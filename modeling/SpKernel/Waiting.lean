import SpKernel.Accounting

/-!
# Waiting for children

`_sys_wait` looks for a child in state `PS_ZOMBIE`. A child that was
killed, or that died of a page fault, is in state `PS_KILLED` and waits
on the zombie queue for ever: no `wait` collects it. `wait_collects_iff`
says from every reachable state when a `wait` collects a child, which is
if there is a zombie among the children, and what it then returns and
stores (`Collects`).

A process that waits has, in the runs described here, no zombie among its
children. The exception is `init`: a dying process passes its children on
to `init`, dead ones included, without looking whether `init` waits.
`AllHeard` is the invariant, stated of families, and `KeepsHeard` the
condition on an event that excludes the exception: no process that has a
zombie for a child ends while `init` waits, unless `init` is its parent
and so stops waiting.

- `AllHeard.act` is the step, by cases on the act. The case of a death
  has the two parts `AllHeard.orphan` and `AllHeard.terminate`.
- `no_wakeup_lost` is the result about runs.
- `wakeup_lost` is a run in which the exception happens: `init` waits,
  and a zombie that it has just been given stays on the queue.
-/

namespace SpKernel

open Lib

variable {image : Image} {mm : MemMgr} {pages : Nat} {k₀ k : Kernel} {tr : List (Kernel × Event)}

/-! ## Collecting a child -/

theorem mem_childrenOf {p z : PcbId} : z ∈ k.childrenOf p ↔
    z ≠ p ∧ (k.pcbs z).state ≠ .free ∧ (k.pcbs z).ppid = (k.pcbs p).pid := by
  simp [Kernel.childrenOf]

/-- The `wait` of the running process returns at once with success: it
reports a dead child through its two out-pointers, and the child's PCB
and stack are free. -/
structure Collects (k : Kernel) (frame : Frame) (z : PcbId) (k' : Kernel) : Prop where
  child : z ∈ k.childrenOf k.current
  dead : (k.pcbs z).state = .zombie ∨ (k.pcbs z).state = .killed
  current : k'.current = k.current
  running : (k'.pcbs k.current).state = .running
  result : (k'.pcbs k.current).context.regs.eax = Status.success.word
  memory : k'.mm.mem = store 4 (store 2 k.mm.mem (frame.args 1) (k.pcbs z).pid) (frame.args 2)
    (k.pcbs z).exitstatus
  pcbFree : (k'.pcbs z).state = .free ∧ z ∈ k'.on .free
  stackFree : ∃ s, (k.pcbs z).stack = some s ∧ s ∉ k.freeStacks ∧ s ∈ k'.freeStacks

/-- What `_sys_wait` has collected is a dead child, and the whole of the
child's resources. -/
theorem Collected.collects {frame : Frame} {z : PcbId} {k' : Kernel} (g : Good k)
    (h : Collected (isrSave k frame) z k') : Collects k frame z (isrRestore k') := by
  have hzombie := h.zombie
  have hne : z ≠ k.current := by
    rintro rfl
    exact absurd ((g.isrSave frame).running.symm.trans hzombie) (by decide)
  have hz := isrSave_other k frame hne
  have hfam := isrSave_family k frame
  have hchild := h.child
  rw [hz] at hzombie hchild
  have hpid : ((isrSave k frame).pcbs k.current).pid = (k.pcbs k.current).pid :=
    congrArg (fun f => (f.members k.current).pid) hfam
  have hfree : (k'.pcbs z).state = .free := by
    rw [← mode_eq_free]
    have := congrArg (fun f => (f.members z).mode) h.family
    exact this.trans (Family.reap_self hne)
  obtain ⟨s, hs, hsf⟩ := g.family.owns z (by simp [hzombie, PState.mode])
  refine ⟨mem_childrenOf.mpr ⟨hne, hzombie.trans_ne (by decide), hchild.trans hpid⟩, .inl hzombie,
    h.current, ?_, h.result, ?_, ⟨hfree, ?_⟩, s, hs, hsf, ?_⟩
  · have := (h.placed.running k'.current id).mpr rfl
    rwa [h.current] at this
  · have := h.memory
    rw [hz] at this
    exact this.trans (by rw [isrSave_current, isrSave_arg, isrSave_arg]; rfl)
  · exact (h.placed.mem z .free).mpr ⟨id, by simp [home, hfree]⟩
  · have := congrArg Family.freeStacks h.family
    rw [isrSave_current, Family.reap_freeStacks hne, hfam, hs] at this
    rw [show (isrRestore k').freeStacks = k'.family.freeStacks from rfl, this]
    exact List.mem_append_right _ (List.mem_singleton.mpr rfl)

/-- A `wait` with a dead child does what it should exactly when some
child died by itself. -/
theorem wait_collects_iff (frame : Frame) (keys : List Byte)
    (h0 : init image mm pages = .ok k₀) (hrun : Steps step k₀ tr k) (hwait : frame.regs.eax = 6)
    (hdead : ∃ z ∈ k.childrenOf k.current,
      (k.pcbs z).state = .zombie ∨ (k.pcbs z).state = .killed) :
    (∃ z k', step k (.interrupt frame (.syscall keys)) = .ok k' ∧ Collects k frame z k')
      ↔ ∃ z ∈ k.childrenOf k.current, (k.pcbs z).state = .zombie := by
  have g := reachable_good h0 hrun
  have g' := g.isrSave frame
  rw [step_wait k keys hwait]
  have hfam := isrSave_family k frame
  have hcount : ((isrSave k frame).pcbs (isrSave k frame).current).children ≠ 0 := by
    obtain ⟨z, hz, -⟩ := hdead
    have hcard := g.family.counted k.current (.inl g.active)
    have hpos := Finset.card_pos.mpr ⟨z, hz⟩
    rw [kidsOf_family] at hcard
    intro hzero
    have hc : (k.family.members k.current).children = 0 :=
      (congrArg (fun f => (f.members k.current).children) hfam).symm.trans hzero
    rw [hc] at hcard
    exact absurd (lt_of_lt_of_le hpos hcard) (by decide)
  constructor
  · rintro ⟨x, k', hstep, hc⟩
    by_contra hnone
    rcases sysWait_cases g' with ⟨hzero, -⟩ | ⟨-, z, k₁, -, hcol⟩ | ⟨-, -, k₁, hw, hpl, hf, -⟩
    · exact hcount hzero
    · have hcol' := hcol.collects g
      exact hnone ⟨z, hcol'.child, (isrSave_other k frame (mem_childrenOf.mp hcol'.child).1) ▸
        hcol.zombie⟩
    · -- the process is blocked, so it does not run
      rw [isrSave_current] at hw
      rw [hw] at hstep
      obtain ⟨k₂, hdisp, hok⟩ := bind_eq_ok.mp hstep
      obtain rfl := Except.ok.inj hok
      have hspec := dispatch_spec hpl
      rw [hdisp] at hspec
      have hblock := congrArg (fun f => (f.members k.current).mode) (hspec.2.trans hf)
      have hmode : (k₂.pcbs k.current).state.mode = .waiting := by
        refine hblock.trans ?_
        rw [isrSave_current, Family.block, Family.members_set, if_pos rfl]
        rfl
      have hrunning := hc.running
      rw [show (isrRestore k₂).pcbs = k₂.pcbs from rfl, mode_eq_waiting.mp hmode] at hrunning
      cases hrunning
  · rintro ⟨z, hz, hzombie⟩
    obtain ⟨hne, -, hppid⟩ := mem_childrenOf.mp hz
    rcases sysWait_cases g' with ⟨hzero, -⟩ | ⟨-, z, k₁, hw, hcol⟩ | ⟨-, hno, -⟩
    · exact absurd hzero hcount
    · refine ⟨z, isrRestore k₁, ?_, hcol.collects g⟩
      rw [isrSave_current] at hw
      rw [hw]
      rfl
    · refine absurd ?_ (hno z (by rw [isrSave_other k frame hne]; exact hzombie))
      rw [isrSave_other k frame hne, hppid]
      exact (congrArg (fun f => (f.members k.current).pid) hfam).symm

/-- A child has exited, and its parent waits for it. -/
theorem wait_collects_exited : ∃ k₀ tr k k', init someImage lowPageUsed 0 = .ok k₀
    ∧ Steps step k₀ tr k ∧ step k (call 6 0x8000 0x8004 0) = .ok k'
    ∧ ∃ z, Collects k (callFrame 6 0x8000 0x8004 0) z k' := by
  obtain ⟨k₀, tr, k, h0, hrun, -, ht⟩ := run_of_test [call 3 0 0 0, call 7 0 0 0, call 0 42 0 0]
    (fun k => decide (k.current = 0 ∧ (k.pcbs 1).state = .zombie
      ∧ (k.pcbs 1).ppid = (k.pcbs 0).pid)) (by decide +kernel)
  obtain ⟨hcur, hzombie, hppid⟩ := of_decide_eq_true ht
  have hchild : (1 : PcbId) ∈ k.childrenOf k.current := by
    refine mem_childrenOf.mpr ⟨?_, ?_, ?_⟩
    · rw [hcur]
      decide
    · rw [hzombie]
      decide
    · rw [hcur, hppid]
  obtain ⟨z, k', hstep, hc⟩ := (wait_collects_iff (callFrame 6 0x8000 0x8004 0) []
    h0 hrun rfl ⟨1, hchild, .inl hzombie⟩).mpr ⟨1, hchild, hzombie⟩
  exact ⟨k₀, tr, k, k', h0, hrun, hstep, z, hc⟩

/-- A child has been killed, and its parent blocks in `wait`. -/
theorem wait_misses_killed : ∃ k₀ tr k, init someImage lowPageUsed 0 = .ok k₀
    ∧ Steps step k₀ tr k
    ∧ tr.map Prod.snd = [call 3 0 0 0, call 3 0 0 0, call 5 100 0 0]
    ∧ (∃ z ∈ k.childrenOf k.current, (k.pcbs z).state = .killed)
    ∧ ¬∃ z k', step k (call 6 0x8000 0x8004 0) = .ok k'
      ∧ Collects k (callFrame 6 0x8000 0x8004 0) z k' := by
  obtain ⟨k₀, tr, k, h0, hrun, hes, ht⟩ := run_of_test
    [call 3 0 0 0, call 3 0 0 0, call 5 100 0 0]
    (fun k => decide (k.current = 0 ∧ (k.pcbs 1).state = .killed
        ∧ (k.pcbs 1).ppid = (k.pcbs 0).pid)
      && okAnd (step k (call 6 0x8000 0x8004 0)) fun k' => decide ((k'.pcbs 0).state = .waiting))
    (by decide +kernel)
  rw [Bool.and_eq_true] at ht
  obtain ⟨hcur, hkilled, hppid⟩ := of_decide_eq_true ht.1
  obtain ⟨k', hstep, hwait⟩ := of_okAnd ht.2
  refine ⟨k₀, tr, k, h0, hrun, hes, ⟨1, mem_childrenOf.mpr ⟨?_, ?_, ?_⟩, hkilled⟩, ?_⟩
  · rw [hcur]
    decide
  · rw [hkilled]
    decide
  · rw [hcur, hppid]
  · rintro ⟨z, k'', hstep', hc⟩
    obtain rfl := Except.ok.inj (hstep.symm.trans hstep')
    have := hc.running
    rw [hcur, of_decide_eq_true hwait] at this
    cases this

/-! ## Lost wake-ups -/

/-- When an act leaves no zombie with a parent that waits: a dying member
that has a zombie for a child is a child of `init`, or `init` does not
wait. -/
def Act.Heard (f : Family) : Act → Prop
  | .terminate v _ _ => (f.members v).ppid ≠ pidInit → (f.members f.init).mode = .waiting →
      ∀ z, (f.members z).mode = .zombie → (f.members z).ppid ≠ (f.members v).pid
  | _ => True

namespace Family

variable {f : Family}

/-- No member that waits has a zombie for a child. -/
def AllHeard (f : Family) : Prop :=
  ∀ p z, (f.members p).mode = .waiting → (f.members z).mode = .zombie →
    (f.members z).ppid ≠ (f.members p).pid

/-- Nobody has started to wait, and nobody has become a zombie. -/
theorem AllHeard.of_old {g : Family} (hh : f.AllHeard)
    (hold : ∀ x, (g.members x).mode ≠ .free → (g.members x).mode ≠ .active →
      g.members x = f.members x) : g.AllHeard := by
  intro p z hp hz
  have hp' := hold p (hp.trans_ne (by decide)) (hp.trans_ne (by decide))
  have hz' := hold z (hz.trans_ne (by decide)) (hz.trans_ne (by decide))
  rw [hp'] at hp ⊢
  rw [hz'] at hz ⊢
  exact hh p z hp hz

theorem AllHeard.fork {p new : PcbId} {stk : StackId} (hh : f.AllHeard)
    (hen : (Act.fork p new stk).Enabled f) : (f.fork p new stk).AllHeard := by
  refine hh.of_old fun x _ hact => ?_
  rw [fork_members] at hact ⊢
  split at hact
  · exact absurd hen.1 hact
  · split at hact
    · exact absurd rfl hact
    · rename_i h1 h2
      rw [if_neg h1, if_neg h2]

theorem AllHeard.block {p : PcbId} (hh : f.AllHeard) (hen : (Act.block p).Enabled f) :
    (f.block p).AllHeard := by
  intro q z hq hz
  rw [Family.block, members_set] at hq hz ⊢
  rw [members_set]
  split at hz
  · cases hz
  · rename_i hzp
    rw [if_neg hzp]
    split at hq
    · rename_i hqp
      rw [if_pos hqp]
      exact hen.2.2 z hz
    · rename_i hqp
      rw [if_neg hqp]
      exact hh q z hq hz

theorem AllHeard.reap {p z : PcbId} (hh : f.AllHeard) (hen : (Act.reap p z).Enabled f) :
    (f.reap p z).AllHeard := by
  obtain ⟨hp, -, hz, -⟩ := hen
  have hne : z ≠ p := ne_of_mode hp hz (by decide)
  refine hh.of_old fun x hfree hact => ?_
  rw [reap_members hne] at hfree hact ⊢
  split at hfree
  · exact absurd rfl hfree
  · rename_i h1
    rw [if_neg h1] at hact ⊢
    split at hact
    · exact absurd hp hact
    · rename_i h2
      rw [if_neg h2]

/-- After the reparenting only the children of `v` have a new parent. -/
theorem AllHeard.orphan {v p z : PcbId} {m : Mode} {status : Word} (hh : f.AllHeard) (h : f.Inv)
    (ht : (Act.terminate v m status).Heard f) (hppid : (f.members v).ppid ≠ pidInit ∨ p ≠ f.init)
    (hp : (f.members p).mode = .waiting) (hz : (f.members z).mode = .zombie) :
    ((f.orphan v m status).members z).ppid ≠ ((f.orphan v m status).members p).pid := by
  rw [orphan_ppid, orphan_pid]
  split
  · rename_i hkid
    intro hpid
    have hpi : p = f.init :=
      h.pidInj p f.init (hp.trans_ne (by decide)) h.initMode (by rw [← hpid, h.initPid])
    rcases hppid with hv | hne
    · exact ht hv (hpi ▸ hp) z hz hkid
    · exact hne hpi
  · exact hh p z hp hz

theorem wake_old {g : Family} {q v x : PcbId} (hne : q ≠ v)
    (hfree : ((g.wake q v).members x).mode ≠ .free)
    (hact : ((g.wake q v).members x).mode ≠ .active) :
    x ≠ q ∧ x ≠ v ∧ (g.wake q v).members x = g.members x := by
  rw [wake_members g hne] at hfree hact ⊢
  split at hact
  · exact absurd rfl hact
  · rename_i hxq
    rw [if_neg hxq] at hfree ⊢
    split at hfree
    · exact absurd rfl hfree
    · rename_i hxv
      rw [if_neg hxv]
      exact ⟨hxq, hxv, rfl⟩

theorem AllHeard.terminate {v : PcbId} {m : Mode} {status : Word} (hh : f.AllHeard) (h : f.Inv)
    (hen : (Act.terminate v m status).Enabled f) (ht : (Act.terminate v m status).Heard f) :
    (f.terminate v m status).AllHeard := by
  have hmode : ∀ x, ((f.orphan v m status).members x).mode = .waiting →
      (f.members x).mode = .waiting := by
    intro x hx
    rw [orphan_mode] at hx
    split at hx
    · exact absurd (.inr hx) hen.2.not_live
    · exact hx
  obtain ⟨q, hq, hpid, hcases⟩ := h.terminate_cases hen
  -- where `v` is a child of `init`, the waiting parent `q` is `init` itself
  have hside : ∀ p, p ≠ q → (f.members v).ppid ≠ pidInit ∨ p ≠ f.init := by
    intro p hpq
    by_cases hv1 : (f.members v).ppid = pidInit
    · have hqi : q = f.init := by
        refine h.pidInj q f.init (fun hf => hq ((orphan_free hen.1 hen.2 q).mpr hf)) h.initMode ?_
        rw [orphan_pid, orphan_ppid, hv1] at hpid
        rw [hpid, h.initPid, ite_self]
      exact .inr fun he => hpq (he.trans hqi.symm)
    · exact .inl hv1
  rcases hcases with ⟨hl, hnw⟩ | ⟨hl, hw, hne, hi⟩
  · rw [hl]
    intro p z hp hz
    have hpq : p ≠ q := fun he => hnw (he ▸ hp)
    rcases eq_or_ne z v with rfl | hzv
    · intro he
      have ho : (f.orphan z m status).Inv := h.orphan hen.1 hen.2
      exact hpq (ho.pidInj p q (hp.trans_ne (by decide)) hq (he.symm.trans hpid.symm))
    · rw [orphan_mode, if_neg hzv] at hz
      exact hh.orphan h ht (hside p hpq) (hmode p hp) hz
  · rw [hl]
    intro p z hp hz
    obtain ⟨hpq, -, hp'⟩ := wake_old hne (hp.trans_ne (by decide)) (hp.trans_ne (by decide))
    obtain ⟨-, hzv, hz'⟩ := wake_old hne (hz.trans_ne (by decide)) (hz.trans_ne (by decide))
    rw [hp'] at hp ⊢
    rw [hz'] at hz ⊢
    rw [orphan_mode, if_neg hzv] at hz
    exact hh.orphan h ht (hside p hpq) (hmode p hp) hz

theorem AllHeard.act (hh : f.AllHeard) (h : f.Inv) {a : Act} (hen : a.Enabled f)
    (ht : a.Heard f) : (a.apply f).AllHeard := by
  cases a with
  | quiet => exact hh
  | fork p new stk => exact hh.fork hen
  | block p => exact hh.block hen
  | reap p z => exact hh.reap hen
  | terminate v m status => exact hh.terminate h hen ht

end Family

/-- The event ends no process that has a zombie for a child, unless
`init` does not wait or is the parent of that process. -/
def KeepsHeard (k : Kernel) (e : Event) : Prop :=
  ∀ v, Ends k e v → (k.pcbs v).ppid ≠ pidInit → (k.pcbs k.initPcb).state = .waiting →
    ∀ z, (k.pcbs z).state = .zombie → (k.pcbs z).ppid ≠ (k.pcbs v).pid

theorem KeepsHeard.allHeard {k' : Kernel} {e : Event} (hc : KeepsHeard k e) (g : Good k)
    (hh : k.family.AllHeard) (h : step k e = .ok k') : k'.family.AllHeard := by
  have hsim := step_sim g e
  rw [h] at hsim
  obtain ⟨-, a, ha, hen, hf⟩ := hsim
  have hheard : a.Heard k.family := by
    cases a with
    | quiet => trivial
    | block p => trivial
    | reap p z => trivial
    | fork p new stk => trivial
    | terminate v m status =>
        intro hv hi z hz
        exact hc v (ends_of_explains ha hen) hv (mode_eq_waiting.mp hi) z (mode_eq_zombie.mp hz)
  rw [hf]
  exact hh.act g.family hen hheard

/-- No process on the waiting queue has a zombie for a child. -/
def NoneLost (k : Kernel) : Prop :=
  ∀ p ∈ k.on .waiting, ∀ z, (k.pcbs z).state = .zombie → (k.pcbs z).ppid ≠ (k.pcbs p).pid

/-- As long as no process passes a zombie on to an `init` that goes on
waiting, no wake-up is lost in any state of a run. -/
theorem no_wakeup_lost (h0 : init image mm pages = .ok k₀) (hrun : Steps step k₀ tr k)
    (hkeep : ∀ x ∈ tr, KeepsHeard x.1 x.2) : NoneLost k := by
  have hx : Good k ∧ k.family.AllHeard := by
    refine hrun.inv_of (P := fun k => Good k ∧ k.family.AllHeard) (C := KeepsHeard)
      (fun s e s' hs hc h => ?_) ?_ hkeep
    · exact ⟨hs.1.step h, hc.allHeard hs.1 hs.2 h⟩
    · obtain ⟨g, p, stk, rest, hf⟩ := init_spec h0
      refine ⟨g, fun q z hq => ?_⟩
      rw [hf] at hq
      have hqp := Family.first_only (p := p) (hq.trans_ne (by decide))
      rw [hqp, Family.first_self] at hq
      cases hq
  intro p hp z hz
  have hstate : (k.pcbs p).state = .waiting := by
    have := ((hx.1.placed.mem p .waiting).mp hp).2
    cases hs : (k.pcbs p).state <;> simp [home, hs] at this ⊢
  exact hx.2 p z (mode_eq_waiting.mpr hstate) (mode_eq_zombie.mpr hz)

/-- `init` waits for its child. -/
theorem no_wakeup_lost_wait : ∃ k₀ tr k, init someImage lowPageUsed 0 = .ok k₀
    ∧ Steps step k₀ tr k ∧ (∀ x ∈ tr, KeepsHeard x.1 x.2) ∧ 0 ∈ k.on .waiting ∧ NoneLost k := by
  obtain ⟨k₀, tr, k, h0, hrun, hes, ht⟩ := run_of_test [call 3 0 0 0, call 6 0 0 0]
    (fun k => decide (0 ∈ k.on .waiting)) (by decide +kernel)
  have hkeep : ∀ x ∈ tr, KeepsHeard x.1 x.2 := by
    intro x hx v hv
    have he : x.2 ∈ [call 3 0 0 0, call 6 0 0 0] := hes ▸ List.mem_map_of_mem hx
    rw [List.mem_pair] at he
    rcases he with he | he <;> rw [he] at hv <;> cases hv with
    | exit h => exact absurd h (by decide)
    | badCode h => exact absurd h (by decide)
    | kill h => exact absurd h (by decide)
  exact ⟨k₀, tr, k, h0, hrun, hkeep, of_decide_eq_true ht, no_wakeup_lost h0 hrun hkeep⟩

/-- `init` waits for a child that has a child and a grandchild; the
grandchild exits, and then its parent. -/
theorem wakeup_lost : ∃ k₀ tr k, init someImage lowPageUsed 0 = .ok k₀
    ∧ Steps step k₀ tr k
    ∧ tr.map Prod.snd = [call 3 0 0 0, call 6 0 0 0, call 3 0 0 0, call 7 0 0 0, call 3 0 0 0,
        call 7 0 0 0, call 7 0 0 0, call 0 0 0 0, call 0 0 0 0]
    ∧ ¬NoneLost k := by
  obtain ⟨k₀, tr, k, h0, hrun, hes, ht⟩ := run_of_test
    [call 3 0 0 0, call 6 0 0 0, call 3 0 0 0, call 7 0 0 0, call 3 0 0 0, call 7 0 0 0,
      call 7 0 0 0, call 0 0 0 0, call 0 0 0 0]
    (fun k => decide (0 ∈ k.on .waiting ∧ (k.pcbs 3).state = .zombie
      ∧ (k.pcbs 3).ppid = (k.pcbs 0).pid)) (by decide +kernel)
  obtain ⟨hw, hz, hppid⟩ := of_decide_eq_true ht
  exact ⟨k₀, tr, k, h0, hrun, hes, fun hn => hn 0 hw 3 hz hppid⟩

end SpKernel
