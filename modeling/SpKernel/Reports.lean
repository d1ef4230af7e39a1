import SpKernel.Accounting

/-!
# Reports of deaths

Each hand-over of an exit status is recorded in `reports`. An act of the
family either is silent, and then every member keeps its slot, its PID
and its stack, or it delivers one report: of a dead member to the one
whose PID is its `ppid`, and exactly that member goes
(`Inv.act_reports`). A collection delivers (`delivers_reap`), and so does
a death whose parent waits (`delivers_wake`); all other acts are silent.

PIDs are never reused, so a PID that has been reported is no member's
again, and no PID is reported twice. `Fresh` is the invariant that says
this of the members, the reports and the counter of PIDs, and `Fresh.act`
keeps it: the counter only goes up, and a slot that was free is taken by
a birth with the next PID (`Inv.newcomer`).

In the kernel, `Recorded` connects the list with the events of a run:
whoever is in a report has died in it, with the status of its end. Two
results are drawn from it.

- `exit_status_delivered_once`: no death is reported twice, every report
  is of a death with that status, and a step either delivers nothing or
  delivers one status, to the parent, and frees the PCB and the stack of
  the dead process and no others.
- `pids_given_once`: no two births of a run have the same PID, and none
  has one that is in use.
-/

namespace SpKernel

open Lib

namespace Family

/-! ## What an act reports -/

/-- `u` is still a member, with its PID and its stack. -/
structure Kept (f g : Family) (u : PcbId) : Prop where
  mode : (g.members u).mode ≠ .free
  pid : (g.members u).pid = (f.members u).pid
  stack : (g.members u).stack = (f.members u).stack

/-- Nothing is reported and nobody goes. -/
structure Silent (f g : Family) : Prop where
  reports : g.reports = f.reports
  kept : ∀ u, (f.members u).mode ≠ .free → Kept f g u

/-- `r` is reported, and `v` goes with its slot and its stack. -/
structure Delivers (f g : Family) (v : PcbId) (r : Report) : Prop where
  member : (f.members v).mode ≠ .free
  reports : g.reports = f.reports ++ [r]
  child : r.child = (f.members v).pid
  parent : r.parent = (f.members v).ppid
  slot : (g.members v).mode = .free
  stack : ∃ s, (f.members v).stack = some s ∧ s ∉ f.freeStacks ∧ s ∈ g.freeStacks
  kept : ∀ u, u ≠ v → (f.members u).mode ≠ .free → Kept f g u

variable {f : Family}

theorem silent_orphan {v : PcbId} {m : Mode} {status : Word}
    (hen : (Act.terminate v m status).Enabled f) : Silent f (f.orphan v m status) := by
  refine ⟨rfl, fun u hu => ⟨fun hc => hu ((orphan_free hen.1 hen.2 u).mp hc), orphan_pid f v u,
    orphan_stack f v u⟩⟩

theorem silent_fork {p new : PcbId} {stk : StackId} (hen : (Act.fork p new stk).Enabled f) :
    Silent f (f.fork p new stk) := by
  refine ⟨rfl, fun u hu => ?_⟩
  have hne : u ≠ new := by
    rintro rfl
    exact hu hen.2.1
  obtain ⟨hmode, hpid, -, hstk⟩ := fork_old f p stk hne
  exact ⟨hmode ▸ hu, hpid, hstk⟩

theorem silent_block {p : PcbId} (hen : (Act.block p).Enabled f) : Silent f (f.block p) := by
  refine ⟨rfl, fun u hu => ?_⟩
  rcases eq_or_ne u p with rfl | hup
  · have hset : (f.block u).members u = (f.members u).setMode .waiting := by
      rw [block, members_set, if_pos rfl]
    refine ⟨?_, hset ▸ rfl, hset ▸ rfl⟩
    rw [hset, Member.setMode_mode]
    decide
  · have hset : (f.block p).members u = f.members u := by
      rw [block, members_set, if_neg hup]
    exact ⟨hset ▸ hu, hset ▸ rfl, hset ▸ rfl⟩

theorem Kept.of_eq {g : Family} {u : PcbId} (hu : (f.members u).mode ≠ .free)
    (h : g.members u = f.members u) : Kept f g u :=
  ⟨h ▸ hu, h ▸ rfl, h ▸ rfl⟩

theorem delivers_reap {p z : PcbId} (h : f.Inv) (hen : (Act.reap p z).Enabled f) :
    Delivers f (f.reap p z) z ⟨(f.members p).pid, (f.members z).pid, (f.members z).exitstatus⟩ := by
  obtain ⟨hp, -, hz, he⟩ := hen
  have hne : z ≠ p := ne_of_mode hp hz (by decide)
  have hfree : (f.members z).mode ≠ .free := by simp [hz]
  obtain ⟨s, hs, hsf⟩ := h.owns z hfree
  refine ⟨hfree, ?_, rfl, he.symm, reap_self hne, ⟨s, hs, hsf, ?_⟩, fun u hu huf => ?_⟩
  · simp only [reap, handOver, release, members_set, if_neg hne, if_true]
    rfl
  · rw [reap_freeStacks hne, hs]
    exact List.mem_append_right _ (List.mem_singleton.mpr rfl)
  · rcases eq_or_ne u p with rfl | hup
    · have hu' : (f.reap u z).members u = _ := reap_members hne u
      rw [if_neg hu, if_pos rfl] at hu'
      exact ⟨hu' ▸ huf, hu' ▸ rfl, hu' ▸ rfl⟩
    · refine .of_eq huf ?_
      rw [reap_members hne, if_neg hu, if_neg hup]

theorem delivers_wake {q v : PcbId} (h : f.Inv) (hv : (f.members v).mode ≠ .free)
    (hq : (f.members q).pid = (f.members v).ppid) (hne : q ≠ v) :
    Delivers f (f.wake q v) v
      ⟨(f.members q).pid, (f.members v).pid, (f.members v).exitstatus⟩ := by
  obtain ⟨s, hs, hsf⟩ := h.owns v hv
  have hM := wake_members f hne
  refine ⟨hv, rfl, rfl, hq, ?_, ⟨s, hs, hsf, ?_⟩, fun u hu huf => ?_⟩
  · rw [hM, if_neg hne.symm, if_pos rfl]
    rfl
  · change s ∈ f.freeStacks ++ (f.members v).stack.toList
    rw [hs]
    exact List.mem_append_right _ (List.mem_singleton.mpr rfl)
  · rcases eq_or_ne u q with rfl | huq
    · have hu' := hM u
      rw [if_pos rfl] at hu'
      refine ⟨?_, hu' ▸ rfl, hu' ▸ rfl⟩
      rw [hu', Member.setMode_mode]
      decide
    · refine .of_eq huf ?_
      rw [hM, if_neg huq, if_neg hu]

/-- What is told of `v`: it is dead with this status, or dies now. -/
def Told (f : Family) (a : Act) (v : PcbId) (status : Word) : Prop :=
  (f.members v).mode.Dead ∧ (f.members v).exitstatus = status ∨ ∃ m, a = .terminate v m status

theorem Inv.act_reports (h : f.Inv) {a : Act} (hen : a.Enabled f) : Silent f (a.apply f)
    ∨ ∃ v r, Delivers f (a.apply f) v r ∧ Told f a v r.status := by
  cases a with
  | quiet => exact .inl ⟨rfl, fun u hu => .of_eq hu rfl⟩
  | fork p new stk => exact .inl (silent_fork hen)
  | block p => exact .inl (silent_block hen)
  | reap p z => exact .inr ⟨z, _, delivers_reap h hen, .inl ⟨.inr hen.2.2.1, rfl⟩⟩
  | terminate v m status =>
      have hs := silent_orphan hen
      rw [Act.apply]
      obtain ⟨q, -, hpid, ⟨hl, -⟩ | ⟨hl, -, hne, hi⟩⟩ := h.terminate_cases hen
      · rw [hl]
        exact .inl hs
      · rw [hl]
        have hd := delivers_wake (h.orphan hen.1 hen.2) (orphan_dead f hen.2).ne_free hpid hne
        have hppid : ((f.orphan v m status).members v).ppid = (f.members v).ppid := by
          rw [orphan_ppid, if_neg fun he => hi (h.notSelf v hen.1.ne_free he)]
        refine .inr ⟨v, _, ⟨hen.1.ne_free, hd.reports, hd.child.trans (orphan_pid ..),
          hd.parent.trans hppid, hd.slot, ?_, fun u hu huf => ?_⟩, .inr ⟨m, ?_⟩⟩
        · rw [← orphan_stack f v v]
          exact hd.stack
        · obtain ⟨h1, h2, h3⟩ := hs.kept u huf
          obtain ⟨h1', h2', h3'⟩ := hd.kept u hu h1
          exact ⟨h1', h2'.trans h2, h3'.trans h3⟩
        · rw [orphan_exitstatus, if_pos rfl]

theorem Inv.dead_told (h : f.Inv) {a : Act} (hen : a.Enabled f) {x : PcbId}
    (hd : ((a.apply f).members x).mode.Dead) :
    Told f a x ((a.apply f).members x).exitstatus
      ∧ ((a.apply f).members x).pid = (f.members x).pid := by
  cases a with
  | quiet => exact ⟨.inl ⟨hd, rfl⟩, rfl⟩
  | fork p new stk =>
      rw [Act.apply, fork_members] at hd ⊢
      split at hd
      · exact absurd (.inl hen.1) hd.not_live
      · split at hd
        · exact absurd (.inl rfl) hd.not_live
        · rename_i hp hn
          rw [if_neg hp, if_neg hn]
          exact ⟨.inl ⟨hd, rfl⟩, rfl⟩
  | block p =>
      rw [Act.apply, block, members_set] at hd ⊢
      split at hd
      · exact absurd (.inr rfl) hd.not_live
      · rename_i hp
        rw [if_neg hp]
        exact ⟨.inl ⟨hd, rfl⟩, rfl⟩
  | reap p z =>
      have hne : z ≠ p := ne_of_mode hen.1 hen.2.2.1 (by decide)
      rw [Act.apply, reap_members hne] at hd ⊢
      split at hd
      · exact absurd rfl hd.ne_free
      · split at hd
        · exact absurd (.inl hen.1) hd.not_live
        · rename_i hz hp
          rw [if_neg hz, if_neg hp]
          exact ⟨.inl ⟨hd, rfl⟩, rfl⟩
  | terminate v m status =>
      have hsame : (f.terminate v m status).members x = (f.orphan v m status).members x := by
        rw [Act.apply] at hd
        obtain ⟨q, -, -, ⟨hl, -⟩ | ⟨hl, -, hne, -⟩⟩ := h.terminate_cases hen
        · rw [hl]
        · rw [hl, wake_members _ hne] at hd ⊢
          split at hd
          · exact absurd (.inl rfl) hd.not_live
          · split at hd
            · exact absurd rfl hd.ne_free
            · rename_i hq hx
              rw [if_neg hq, if_neg hx]
      rw [Act.apply, hsame] at hd ⊢
      rw [orphan_pid, orphan_exitstatus]
      rw [orphan_mode] at hd
      refine ⟨?_, rfl⟩
      split at hd
      · rename_i hx
        rw [if_pos hx, hx]
        exact .inr ⟨m, rfl⟩
      · rename_i hx
        rw [if_neg hx]
        exact .inl ⟨hd, rfl⟩

/-! ## PIDs are reported once -/

/-- A slot that was free is taken by a birth, with the next PID. -/
theorem Inv.newcomer (h : f.Inv) {a : Act} (hen : a.Enabled f) {u : PcbId}
    (hu : (f.members u).mode = .free) (hu' : ((a.apply f).members u).mode ≠ .free) :
    ((a.apply f).members u).pid = f.nextPid := by
  cases a with
  | quiet => exact absurd hu hu'
  | fork p new stk =>
      rw [Act.apply, fork_members] at hu' ⊢
      split
      · rename_i hp
        rw [hp, hen.1] at hu
        cases hu
      · rename_i hp
        rw [if_neg hp] at hu'
        split at hu'
        · rename_i hn
          rw [if_pos hn]
          rfl
        · exact absurd hu hu'
  | block p =>
      rw [Act.apply, block, members_set] at hu'
      split at hu'
      · rename_i hp
        rw [hp, hen.1] at hu
        cases hu
      · exact absurd hu hu'
  | reap p z =>
      have hne : z ≠ p := ne_of_mode hen.1 hen.2.2.1 (by decide)
      rw [Act.apply, reap_members hne] at hu'
      split at hu'
      · exact absurd rfl hu'
      · split at hu'
        · rename_i hp
          rw [hp, hen.1] at hu
          cases hu
        · exact absurd hu hu'
  | terminate v m status =>
      have hfree : ((f.orphan v m status).members u).mode = .free :=
        (orphan_free hen.1 hen.2 u).mpr hu
      rw [Act.apply] at hu'
      obtain ⟨q, hq, -, ⟨hl, -⟩ | ⟨hl, -, hne, -⟩⟩ := h.terminate_cases hen
      · rw [hl] at hu'
        exact absurd hfree hu'
      · rw [hl, wake_members _ hne] at hu'
        split at hu'
        · rename_i hx
          exact absurd (hx ▸ hfree) hq
        · split at hu'
          · exact absurd rfl hu'
          · exact absurd hfree hu'

theorem nextPid_lay (f : Family) (v : PcbId) : (f.lay v).nextPid = f.nextPid := by
  rw [lay]
  split
  · rfl
  · split <;> rfl

theorem Inv.nextPid_le (h : f.Inv) {a : Act} (hen : a.Enabled f) :
    f.nextPid.toNat ≤ (a.apply f).nextPid.toNat := by
  cases a with
  | quiet => exact le_refl _
  | block p => exact le_refl _
  | reap p z => exact le_refl _
  | terminate v m status =>
      rw [Act.apply, h.terminate_eq hen.1, nextPid_lay]
      exact le_refl _
  | fork p new stk =>
      have hlt := hen.2.2.2
      change _ ≤ (f.nextPid + 1).toNat
      rw [toNat_succ (by omega)]
      exact Nat.le_succ _

/-- Reported PIDs are old, and nobody has them. -/
structure Fresh (f : Family) : Prop where
  nodup : (f.reports.map Report.child).Nodup
  used : ∀ r ∈ f.reports, r.child.toNat < f.nextPid.toNat
  gone : ∀ r ∈ f.reports, ∀ u, (f.members u).mode ≠ .free → (f.members u).pid ≠ r.child

theorem Fresh.act (hf : f.Fresh) (h : f.Inv) {a : Act} (hen : a.Enabled f) :
    (a.apply f).Fresh := by
  have hle := h.nextPid_le hen
  -- who is a member now was one before, or has a PID never used
  have hpid : ∀ {u : PcbId} {pid : Half}, pid.toNat < f.nextPid.toNat →
      ((a.apply f).members u).mode ≠ .free → ((a.apply f).members u).pid = pid →
      (f.members u).mode ≠ .free := by
    intro u pid hlt hu he hfree
    rw [← he, h.newcomer hen hfree hu] at hlt
    exact lt_irrefl _ hlt
  rcases h.act_reports hen with hs | ⟨v, r, hd, -⟩
  · refine ⟨hs.reports ▸ hf.nodup, fun r hr => ?_, fun r hr u hu he => ?_⟩
    · exact lt_of_lt_of_le (hf.used r (hs.reports ▸ hr)) hle
    · have hr' : r ∈ f.reports := hs.reports ▸ hr
      have hu' := hpid (hf.used r hr') hu he
      exact hf.gone r hr' u hu' ((hs.kept u hu').pid.symm.trans he)
  · have hkept : ∀ u, ((a.apply f).members u).mode ≠ .free → (f.members u).mode ≠ .free →
        ((a.apply f).members u).pid = (f.members u).pid ∧ u ≠ v := by
      intro u hu hu'
      have hne : u ≠ v := by
        rintro rfl
        exact hu hd.slot
      exact ⟨(hd.kept u hne hu').pid, hne⟩
    refine ⟨?_, fun s hs => ?_, fun s hs u hu he => ?_⟩
    · rw [hd.reports, List.map_append, List.map_singleton, List.nodup_append_comm,
        List.singleton_append, List.nodup_cons]
      refine ⟨fun hr => ?_, hf.nodup⟩
      obtain ⟨s, hs, he⟩ := List.mem_map.mp hr
      exact hf.gone s hs v hd.member (hd.child.symm.trans he.symm)
    · rw [hd.reports, List.mem_append, List.mem_singleton] at hs
      refine lt_of_lt_of_le ?_ hle
      rcases hs with hs | rfl
      · exact hf.used s hs
      · rw [hd.child]
        exact h.pid_lt hd.member
    · rw [hd.reports, List.mem_append, List.mem_singleton] at hs
      rcases hs with hs | rfl
      · have hu' := hpid (hf.used s hs) hu he
        exact hf.gone s hs u hu' ((hkept u hu hu').1.symm.trans he)
      · rw [hd.child] at he
        have hu' := hpid (h.pid_lt hd.member) hu he
        obtain ⟨hp, hne⟩ := hkept u hu hu'
        exact hne (h.pidInj u v hu' hd.member (hp.symm.trans he))

end Family

/-! ## In the kernel -/

variable {image : Image} {mm : MemMgr} {pages : Nat} {k₀ k : Kernel} {tr : List (Kernel × Event)}

/-- A process with this PID ends in an event, with this status. -/
inductive Died (k : Kernel) : Event → Half → Word → Prop
  | exit {frame keys} : frame.regs.eax = 0 →
      Died k (.interrupt frame (.syscall keys)) (k.pcbs k.current).pid (frame.args 1)
  | badCode {frame keys} : nSyscalls ≤ frame.regs.eax →
      Died k (.interrupt frame (.syscall keys)) (k.pcbs k.current).pid exitBadCode
  | kill {frame keys v} : frame.regs.eax = 5 → (k.pcbs v).Live →
      (k.pcbs v).pid = (frame.args 1).setWidth 16 →
      Died k (.interrupt frame (.syscall keys)) (k.pcbs v).pid exitKilled
  | pageFault {frame} :
      Died k (.interrupt frame .pageFault) (k.pcbs k.current).pid exitKilled

theorem died_of_explains {e : Event} {v : PcbId} {m : Mode} {status : Word}
    (h : Explains k.family k.current e (.terminate v m status))
    (hen : (Act.terminate v m status).Enabled k.family) : Died k e (k.pcbs v).pid status := by
  cases h with
  | exit he => exact .exit he
  | badCode he => exact .badCode he
  | kill he hv => exact .kill he (mode_live.mp hen.1) hv
  | pageFault => exact .pageFault

/-- Every death is on record: of those who are dead, and of those who
were reported. -/
structure Recorded (tr : List (Kernel × Event)) (k : Kernel) : Prop where
  good : Good k
  fresh : k.family.Fresh
  dead : ∀ v, (k.family.members v).mode.Dead →
    ∃ x ∈ tr, Died x.1 x.2 (k.pcbs v).pid (k.pcbs v).exitstatus
  reports : ∀ r ∈ k.reports, ∃ x ∈ tr, Died x.1 x.2 r.child r.status

theorem Recorded.told (h : Recorded tr k) {e : Event} {a : Act} {v : PcbId} {status : Word}
    (ha : Explains k.family k.current e a) (hen : a.Enabled k.family)
    (ht : Family.Told k.family a v status) :
    ∃ x ∈ tr ++ [(k, e)], Died x.1 x.2 (k.pcbs v).pid status := by
  rcases ht with ⟨hd, rfl⟩ | ⟨m, rfl⟩
  · obtain ⟨x, hx, hdied⟩ := h.dead v hd
    exact ⟨x, List.mem_append_left _ hx, hdied⟩
  · exact ⟨(k, e), List.mem_append_right _ (List.mem_singleton.mpr rfl), died_of_explains ha hen⟩

theorem Recorded.step (h : Recorded tr k) {e : Event} {k' : Kernel}
    (hstep : step k e = .ok k') : Recorded (tr ++ [(k, e)]) k' := by
  have hsim := step_sim h.good e
  rw [hstep] at hsim
  obtain ⟨g, a, ha, hen, hf⟩ := hsim
  have hinv := h.good.family
  have hold : ∀ r ∈ k.family.reports,
      ∃ x ∈ tr ++ [(k, e)], Died x.1 x.2 r.child r.status := by
    intro r hr
    obtain ⟨x, hx, hdied⟩ := h.reports r hr
    exact ⟨x, List.mem_append_left _ hx, hdied⟩
  refine ⟨g, hf ▸ h.fresh.act hinv hen, fun v hv => ?_, fun r hr => ?_⟩
  · have hpid : (k'.pcbs v).pid = ((a.apply k.family).members v).pid := hf ▸ rfl
    have hstatus : (k'.pcbs v).exitstatus = ((a.apply k.family).members v).exitstatus := hf ▸ rfl
    rw [hf] at hv
    obtain ⟨ht, hsame⟩ := hinv.dead_told hen hv
    rw [hpid, hsame, hstatus]
    exact h.told ha hen ht
  · change r ∈ k'.family.reports at hr
    rw [hf] at hr
    rcases hinv.act_reports hen with hs | ⟨v, s, hd, ht⟩
    · exact hold r (hs.reports ▸ hr)
    · rw [hd.reports, List.mem_append, List.mem_singleton] at hr
      rcases hr with hr | rfl
      · exact hold r hr
      · rw [hd.child]
        exact h.told ha hen ht

theorem reachable_recorded (h0 : init image mm pages = .ok k₀) (hrun : Steps step k₀ tr k) :
    Recorded tr k := by
  induction hrun with
  | refl =>
      obtain ⟨g, p, stk, rest, hf⟩ := init_spec h0
      have hnone : k₀.family.reports = [] := by rw [hf]; rfl
      refine ⟨g, ⟨?_, ?_, ?_⟩, fun v hv => ?_, ?_⟩
      · rw [hnone]
        exact List.nodup_nil
      · rw [hnone]
        nofun
      · rw [hnone]
        nofun
      · rw [hf] at hv
        obtain rfl := Family.first_only hv.ne_free
        rw [Family.first_self] at hv
        exact absurd (.inl rfl) hv.not_live
      · rw [show k₀.reports = [] from hnone]
        nofun
  | tail _ hstep ih => exact ih.step hstep

/-- `p` keeps its PCB, its PID and its stack, and neither is free. -/
structure Keeps (k k' : Kernel) (p : PcbId) : Prop where
  pcb : (k'.pcbs p).state ≠ .free ∧ p ∉ k'.on .free
  pid : (k'.pcbs p).pid = (k.pcbs p).pid
  stack : ∃ s, (k.pcbs p).stack = some s ∧ (k'.pcbs p).stack = some s ∧ s ∉ k'.freeStacks

/-- No exit status is delivered, and no process goes. -/
structure NoDelivery (k k' : Kernel) : Prop where
  reports : k'.reports = k.reports
  keeps : ∀ p, (k.pcbs p).state ≠ .free → Keeps k k' p

/-- The exit status of `p` is delivered to its parent, and `p` goes: its
PCB and its stack are on their free lists from now on. -/
structure Delivery (k k' : Kernel) (p : PcbId) (r : Report) : Prop where
  reports : k'.reports = k.reports ++ [r]
  child : (k.pcbs p).state ≠ .free ∧ r.child = (k.pcbs p).pid
  parent : r.parent = (k.pcbs p).ppid
  pcb : p ∉ k.on .free ∧ p ∈ k'.on .free
  stack : ∃ s, (k.pcbs p).stack = some s ∧ s ∉ k.freeStacks ∧ s ∈ k'.freeStacks
  keeps : ∀ q, q ≠ p → (k.pcbs q).state ≠ .free → Keeps k k' q

theorem Good.mem_free (g : Good k) {p : PcbId} : p ∈ k.on .free ↔ (k.pcbs p).state = .free := by
  rw [g.placed.mem]
  cases hs : (k.pcbs p).state <;> simp [home, hs]

theorem Family.Kept.keeps {k' : Kernel} {p : PcbId} (g : Good k')
    (h : Family.Kept k.family k'.family p) : Keeps k k' p := by
  have hstate : (k'.pcbs p).state ≠ .free := fun hc => h.mode (mode_eq_free.mpr hc)
  obtain ⟨s, hs, hsf⟩ := g.family.owns p h.mode
  exact ⟨⟨hstate, fun hc => hstate (g.mem_free.mp hc)⟩, h.pid,
    s, h.stack.symm.trans hs, hs, hsf⟩

theorem Good.delivery (g : Good k) {e : Event} {k' : Kernel} (h : SpKernel.step k e = .ok k') :
    NoDelivery k k' ∨ ∃ p r, Delivery k k' p r := by
  have hsim := step_sim g e
  rw [h] at hsim
  obtain ⟨g', a, -, hen, hf⟩ := hsim
  have hfree : ∀ {p}, (k.pcbs p).state ≠ .free → (k.family.members p).mode ≠ .free :=
    fun hp hc => hp (mode_eq_free.mp hc)
  have hrep := g.family.act_reports hen
  rw [← hf] at hrep
  rcases hrep with hs | ⟨v, r, hd, -⟩
  · exact .inl ⟨hs.reports, fun p hp => (hs.kept p (hfree hp)).keeps g'⟩
  · have hv : (k.pcbs v).state ≠ .free := fun hc => hd.member (mode_eq_free.mpr hc)
    refine .inr ⟨v, r, hd.reports, ⟨hv, hd.child⟩, hd.parent, ⟨?_, ?_⟩, hd.stack, fun q hq hp => ?_⟩
    · exact fun hc => hv (g.mem_free.mp hc)
    · exact g'.mem_free.mpr (mode_eq_free.mp hd.slot)
    · exact (hd.kept q hq (hfree hp)).keeps g'

/-- Over every run no PID is reported twice, every report is of a death
with that status, and each further step either delivers nothing and keeps
every process's PCB and stack, or delivers one status, to the parent, and
frees exactly the PCB and the stack of the dead process. -/
theorem exit_status_delivered_once (h0 : init image mm pages = .ok k₀)
    (hrun : Steps step k₀ tr k) :
    (k.reports.map Report.child).Nodup
      ∧ (∀ r ∈ k.reports, ∃ x ∈ tr, Died x.1 x.2 r.child r.status)
      ∧ ∀ e k', step k e = .ok k' → NoDelivery k k' ∨ ∃ p r, Delivery k k' p r := by
  have h := reachable_recorded h0 hrun
  exact ⟨h.fresh.nodup, h.reports, fun e k' hstep => h.good.delivery hstep⟩

/-- A child exits with 42 while its parent waits. -/
theorem exit_status_delivered_once_exit : ∃ k₀ tr k, init someImage lowPageUsed 0 = .ok k₀
    ∧ Steps step k₀ tr k ∧ ⟨1, 100, 42⟩ ∈ k.reports
    ∧ ∃ x ∈ tr, Died x.1 x.2 100 42 := by
  obtain ⟨k₀, tr, k, h0, hrun, -, ht⟩ := run_of_test
    [call 3 0 0 0, call 6 0x8000 0x8004 0, call 0 42 0 0]
    (fun k => decide (⟨1, 100, 42⟩ ∈ k.reports)) (by decide +kernel)
  have hr := of_decide_eq_true ht
  exact ⟨k₀, tr, k, h0, hrun, hr, (exit_status_delivered_once h0 hrun).2.1 _ hr⟩

/-! ## PIDs are given once -/

/-- A successful `fork`: a PCB that was free has become a process with
this PID, which is also what the caller gets. -/
def ForksTo (k : Kernel) (e : Event) (pid : Half) : Prop :=
  ∃ frame keys k' u, e = .interrupt frame (.syscall keys) ∧ frame.regs.eax = 3
    ∧ step k e = .ok k' ∧ (k.pcbs u).state = .free ∧ (k'.pcbs u).state ≠ .free
    ∧ (k'.pcbs u).pid = pid ∧ (k'.pcbs k.current).context.regs.eax = pid.signExtend 32

/-- The new process has the next PID, and the counter moves on. -/
theorem Good.forksTo (g : Good k) {e : Event} {k' : Kernel} {pid : Half}
    (h : ForksTo k e pid) (hstep : SpKernel.step k e = .ok k') :
    pid = k.nextPid ∧ 100 ≤ pid.toNat ∧ pid.toNat < k'.nextPid.toNat := by
  obtain ⟨frame, keys, k₁, u, -, -, hstep₁, hu, hu', hpid, -⟩ := h
  obtain rfl := Except.ok.inj (hstep₁.symm.trans hstep)
  have hsim := step_sim g e
  rw [hstep] at hsim
  obtain ⟨g', a, -, hen, hf⟩ := hsim
  have hfree : (k.family.members u).mode = .free := mode_eq_free.mpr hu
  have hnew : (k₁.family.members u).mode ≠ .free := fun hc => hu' (mode_eq_free.mp hc)
  have hnext : pid = k.nextPid := by
    rw [← hpid]
    have := g.family.newcomer hen hfree (hf ▸ hnew)
    rw [← hf] at this
    exact this
  refine ⟨hnext, hnext ▸ g.family.nextPid.1, ?_⟩
  rw [← hpid]
  exact g'.family.pid_lt hnew

/-- The PIDs given so far are below the counter, and pairwise distinct. -/
structure GivenOnce (tr : List (Kernel × Event)) (k : Kernel) : Prop where
  good : Good k
  below : ∀ x ∈ tr, ∀ pid, ForksTo x.1 x.2 pid → 100 ≤ pid.toNat ∧ pid.toNat < k.nextPid.toNat
  distinct : tr.Pairwise fun x y => ∀ a b, ForksTo x.1 x.2 a → ForksTo y.1 y.2 b → a ≠ b

theorem GivenOnce.step (h : GivenOnce tr k) {e : Event} {k' : Kernel}
    (hstep : step k e = .ok k') : GivenOnce (tr ++ [(k, e)]) k' := by
  have hle : k.nextPid.toNat ≤ k'.nextPid.toNat := by
    have hsim := step_sim h.good e
    rw [hstep] at hsim
    obtain ⟨-, a, -, hen, hf⟩ := hsim
    have := h.good.family.nextPid_le hen
    rw [← hf] at this
    exact this
  refine ⟨h.good.step hstep, fun x hx pid hfork => ?_, ?_⟩
  · rcases List.mem_append.mp hx with hx | hx
    · obtain ⟨hlow, hlt⟩ := h.below x hx pid hfork
      exact ⟨hlow, hlt.trans_le hle⟩
    · obtain rfl := List.mem_singleton.mp hx
      exact (h.good.forksTo hfork hstep).2
  · refine List.pairwise_append.mpr ⟨h.distinct, List.pairwise_singleton .., ?_⟩
    intro x hx y hy a b ha hb
    obtain rfl := List.mem_singleton.mp hy
    rintro rfl
    have hlt := (h.below x hx a ha).2
    rw [(h.good.forksTo hb hstep).1] at hlt
    exact lt_irrefl _ hlt

theorem reachable_givenOnce (h0 : init image mm pages = .ok k₀) (hrun : Steps step k₀ tr k) :
    GivenOnce tr k := by
  induction hrun with
  | refl =>
      exact ⟨(init_spec h0).1, fun x hx => absurd hx List.not_mem_nil, List.Pairwise.nil⟩
  | tail _ hstep ih => exact ih.step hstep

/-- In every reachable state different processes have different PIDs, none
of them that of free PCBs; and over the whole run no two forks give the
same one, nor one of the reserved ones. -/
theorem pids_given_once (h0 : init image mm pages = .ok k₀) (hrun : Steps step k₀ tr k) :
    (∀ p q, (k.pcbs p).state ≠ .free → (k.pcbs q).state ≠ .free → p ≠ q →
      (k.pcbs p).pid ≠ (k.pcbs q).pid)
    ∧ (∀ p, (k.pcbs p).state ≠ .free → (k.pcbs p).pid ≠ -1)
    ∧ (tr.Pairwise fun x y => ∀ a b, ForksTo x.1 x.2 a → ForksTo y.1 y.2 b → a ≠ b)
    ∧ ∀ x ∈ tr, ∀ pid, ForksTo x.1 x.2 pid → pid ≠ pidInit ∧ pid ≠ -1 := by
  have h := reachable_givenOnce h0 hrun
  have hinv := h.good.family
  have hmode : ∀ {p}, (k.pcbs p).state ≠ .free → (k.family.members p).mode ≠ .free :=
    fun hp hc => hp (mode_eq_free.mp hc)
  refine ⟨fun p q hp hq hne he => ?_, fun p hp => hinv.pid_ne_free (hmode hp), h.distinct,
    fun x hx pid hfork => ?_⟩
  · exact hne (hinv.pidInj p q (hmode hp) (hmode hq) he)
  · obtain ⟨hlow, hlt⟩ := h.below x hx pid hfork
    have htop : k.nextPid.toNat ≤ 65000 := hinv.nextPid.2
    constructor
    · rintro rfl
      exact absurd hlow (by decide)
    · rintro rfl
      exact absurd (hlt.trans_le htop) (by decide)

/-- `init` forks twice. -/
theorem pids_given_once_twice : ∃ k₀ tr k, init someImage lowPageUsed 0 = .ok k₀
    ∧ Steps step k₀ tr k ∧ (k.pcbs 1).pid = 100 ∧ (k.pcbs 2).pid = 101
    ∧ (k.pcbs 1).pid ≠ (k.pcbs 2).pid := by
  obtain ⟨k₀, tr, k, h0, hrun, -, ht⟩ := run_of_test [call 3 0 0 0, call 3 0 0 0]
    (fun k => decide ((k.pcbs 1).pid = 100 ∧ (k.pcbs 2).pid = 101
      ∧ (k.pcbs 1).state ≠ .free ∧ (k.pcbs 2).state ≠ .free)) (by decide +kernel)
  obtain ⟨h1, h2, hs1, hs2⟩ := of_decide_eq_true ht
  exact ⟨k₀, tr, k, h0, hrun, h1, h2, (pids_given_once h0 hrun).1 1 2 hs1 hs2 (by decide)⟩

end SpKernel
