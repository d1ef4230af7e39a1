import SpKernel.Placement

/-!
# The kernel simulates the family

`Kernel.family` forgets everything about a kernel state but the family
tree: `PState.mode` has the states that a family does not tell apart,
ready, running, sleeping and blocked, as one. Each primitive has one rule
that says what it does to the places of the PCBs and to the family, each
handler is assembled from these (`Handlers`), and `step_sim` there is the
result: an event that returns performs one act of the family and leaves
every PCB in its place, and an event that does not return fails in one of
a few expected ways (`Fault.Expected`).

The rules have one form. The state before is `Placed` with some PCBs in
transit, the call returns, the state after is `Placed` with one more or
one less of them, and the family is the old one or has been changed at
one member:

- `stkDealloc_spec` and `stkAlloc_cons`, and `pcbDealloc_spec` and
  `pcbAlloc_cons`, for stacks and PCBs;
- `schedule_spec` and `dispatch_spec` for the ready queues, which the
  family does not have;
- `deliver_family`, `pcbCleanup_spec`, `reparent_spec` and `lay_spec` for
  the parts of a death, and `zombify_spec` for all of it.
-/

namespace SpKernel

open Function (update update_self update_of_ne)
open Lib

/-- What a process state means for the family. -/
def PState.mode : PState → Mode
  | .free => .free
  | .waiting => .waiting
  | .killed => .killed
  | .zombie => .zombie
  | .ready | .running | .sleeping | .blocked | .new | .invalid => .active

@[simps] def Pcb.member (x : Pcb) : Member where
  mode := x.state.mode
  pid := x.pid
  ppid := x.ppid
  children := x.children
  exitstatus := x.exitstatus
  stack := x.stack

@[simps] def Kernel.family (k : Kernel) : Family where
  members := fun p => (k.pcbs p).member
  init := k.initPcb
  nextPid := k.nextPid
  freeStacks := k.freeStacks
  reports := k.reports

theorem mode_eq_free {s : PState} : s.mode = .free ↔ s = .free := by
  cases s <;> simp [PState.mode]

theorem mode_eq_waiting {s : PState} : s.mode = .waiting ↔ s = .waiting := by
  cases s <;> simp [PState.mode]

theorem mode_eq_killed {s : PState} : s.mode = .killed ↔ s = .killed := by
  cases s <;> simp [PState.mode]

theorem mode_eq_zombie {s : PState} : s.mode = .zombie ↔ s = .zombie := by
  cases s <;> simp [PState.mode]

theorem family_setPcb (k : Kernel) (p : PcbId) (f : Pcb → Pcb) :
    (k.setPcb p f).family = k.family.set p (f (k.pcbs p)).member := by
  have hm : (fun x => ((k.setPcb p f).pcbs x).member)
      = update (fun x => (k.pcbs x).member) p (f (k.pcbs p)).member := by
    funext x
    simp only [Kernel.setPcb, Function.update_apply]
    split <;> rfl
  simp only [Kernel.family, Family.set, hm]
  rfl

theorem family_set_same {f : Family} {p : PcbId} {m : Member} (h : m = f.members p) :
    f.set p m = f := by
  simp only [Family.set, h, Function.update_eq_self]

theorem family_setPcb_same (k : Kernel) (p : PcbId) {f : Pcb → Pcb}
    (h : (f (k.pcbs p)).member = (k.pcbs p).member) : (k.setPcb p f).family = k.family := by
  rw [family_setPcb, family_set_same h]

theorem family_queues (k : Kernel) {Q : QPool QueueId Entry}
    (h : Q.items .freeStacks = k.freeStacks) :
    ({ k with queues := Q } : Kernel).family = k.family := by
  simp only [Kernel.family, Kernel.freeStacks, h]

/-- The faults that events can end in; all others are inconsistencies
that the kernel checks for and never finds. -/
def Fault.Expected : Fault → Prop
  | .kpanic mod msg => (mod, msg) ∈ [("_dispatch", "no ready processes!?!?!"),
      ("_sys_kill", "bad victim state"), ("_sio_isr", "unknown device status")]
  | .panic _ | .null | .diverge => True

variable {k : Kernel} {off : Set PcbId} {run : Option PcbId} {p : PcbId}

/-! ## Stacks -/

theorem Placed.setStacks (h : Placed k off run) {l : List StackId} {n : Nat} (hnd : l.Nodup)
    (htot : (⟨n, update k.queues.items .freeStacks l⟩ : QPool QueueId Entry).total
      = k.queues.total) :
    Placed { k with queues := ⟨n, update k.queues.items .freeStacks l⟩ } off run := by
  have hon : ∀ q, ({ k with queues := ⟨n, update k.queues.items .freeStacks l⟩ } : Kernel).on q
      = k.on q := by
    intro q
    have hne : QueueId.pcbs q ≠ .freeStacks := nofun
    simp only [Kernel.on, update_of_ne hne]
  refine ⟨fun x q => ?_, fun q => ?_, ?_, htot.trans h.total, h.legal, h.running, h.runOn⟩
  · rw [hon]
    exact h.mem x q
  · rw [hon]
    exact h.nodup q
  · simp only [Kernel.freeStacks, update_self]
    exact hnd

theorem stkDealloc_spec (h : Placed k off run) {s : StackId} (hs : s ∉ k.freeStacks) :
    ∃ Q, stkDealloc k (some s) = { k with queues := Q }
      ∧ Placed { k with queues := Q } off run
      ∧ Q.items .freeStacks = k.freeStacks ++ [s] := by
  have hn : k.queues.nodes ≠ 0 := by have := h.nodes; omega
  have htot := QPool.total_enque k.queues .freeStacks none s
  rw [QPool.enque, if_neg hn] at htot
  refine ⟨⟨k.queues.nodes - 1, update k.queues.items .freeStacks (k.freeStacks ++ [s])⟩, ?_,
    h.setStacks ?_ htot, ?_⟩
  · simp only [stkDealloc, QPool.enque, hn, ↓reduceIte]
    rfl
  · rw [List.nodup_append_comm]
    exact List.nodup_cons.mpr ⟨hs, h.stackNodup⟩
  · simp only [update_self]

theorem stkAlloc_nil (hs : k.freeStacks = []) : stkAlloc k = .ok (none, k) := by
  have hsz : k.queues.size .freeStacks < 1 := by
    rw [QPool.size, show k.queues.items .freeStacks = [] from hs]
    decide
  rw [stkAlloc, if_pos hsz]

theorem stkAlloc_cons (h : Placed k off run) {s : StackId} {l : List StackId}
    (hs : k.freeStacks = s :: l) :
    ∃ Q, stkAlloc k = .ok (some s, { k with queues := Q })
      ∧ Placed { k with queues := Q } off run ∧ Q.items .freeStacks = l := by
  have hs' : k.queues.items .freeStacks = s :: l := hs
  have hsz : ¬k.queues.size .freeStacks < 1 := by
    rw [QPool.size, hs']
    simp
  have htot := QPool.total_deque (P := k.queues) (q := .freeStacks)
  refine ⟨_, ?_, h.setStacks (l := l) (n := k.queues.nodes + 1) ?_ ?_, ?_⟩
  · simp only [stkAlloc, hsz, ↓reduceIte, QPool.deque, hs']
  · exact (List.nodup_cons.mp (hs ▸ h.stackNodup)).2
  · simpa only [QPool.deque, hs'] using htot
  · simp only [update_self]

/-! ## PCBs -/

theorem pcbDealloc_spec (h : Placed k off run) (hp : p ∈ off) :
    Placed (pcbDealloc k p) (off \ {p}) run
    ∧ (pcbDealloc k p).family = k.family.set p (k.family.members p).gone
    ∧ (pcbDealloc k p).current = k.current := by
  have h1 := h.setOff hp Pcb.makeFree
  obtain ⟨Q, he, hpl, hstk⟩ := h1.enque (q := .free) hp
    (by rw [setPcb_self]; rfl) (by rw [setPcb_self]; exact ⟨nofun, nofun, nofun⟩)
  have hk : pcbDealloc k p = { k.setPcb p Pcb.makeFree with queues := Q } := by
    simp only [pcbDealloc, he]
  rw [hk]
  refine ⟨hpl, ?_, rfl⟩
  rw [family_queues _ hstk, family_setPcb]
  rfl

theorem pcbAlloc_nil (hf : k.on .free = []) : pcbAlloc k = .ok (none, k) := by
  have hsz : k.queues.size (.pcbs .free) < 1 := by
    rw [QPool.size, show k.queues.items (.pcbs .free) = [] from hf]
    decide
  rw [pcbAlloc, if_pos hsz]

theorem pcbAlloc_cons (h : Placed k off run) {l : List PcbId} (hf : k.on .free = p :: l) :
    ∃ Q, pcbAlloc k = .ok (some p, { k with queues := Q }.setPcb p fun x =>
        { x with state := .new })
      ∧ Placed { k with queues := Q } (insert p off) run
      ∧ Q.items .freeStacks = k.freeStacks := by
  obtain ⟨Q, he, hpl, hstk⟩ := h.deque hf
  have hsz : ¬k.queues.size (.pcbs .free) < 1 := by
    rw [QPool.size, show k.queues.items (.pcbs .free) = p :: l from hf]
    simp
  exact ⟨Q, by simp only [pcbAlloc, hsz, ↓reduceIte, he], hpl, hstk⟩

/-! ## Scheduling -/

theorem legal_makeReady (x : Pcb) : Legal x.makeReady := by
  refine ⟨nofun, nofun, fun _ => ?_⟩
  simp only [Pcb.makeReady]
  split
  · decide
  · rename_i hle
    rw [BitVec.not_lt, BitVec.le_def] at hle
    exact Nat.lt_succ_of_le hle

theorem schedule_spec (h : Placed k off run) (hp : p ∈ off) :
    ∃ k', schedule k p = .ok k' ∧ Placed k' (off \ {p}) run
      ∧ k'.family = k.family.set p ((k.family.members p).setMode .active)
      ∧ k'.current = k.current := by
  have h1 := h.setOff hp Pcb.makeReady
  have hx := setPcb_self k p Pcb.makeReady
  obtain ⟨Q, he, hpl, hstk⟩ := h1.enque
    (q := .ready (Fin.ofNat nPrios ((k.setPcb p Pcb.makeReady).pcbs p).prio.toNat)) hp
    (by rw [hx]; rfl) (by rw [hx]; exact legal_makeReady _)
  refine ⟨_, by simp only [schedule, he], hpl, ?_, rfl⟩
  rw [family_queues _ hstk, family_setPcb]
  rfl

theorem schedule_enque {k' : Kernel} (h : schedule k p = .ok k') :
    ∃ prio, (k.setPcb p Pcb.makeReady).enque (.ready prio) p = (.success, k') := by
  simp only [schedule] at h
  split at h
  · rename_i k₁ he
    obtain rfl := Except.ok.inj h
    exact ⟨_, he⟩
  · cases h

theorem schedule_other {k' : Kernel} {q : PcbId} (h : schedule k p = .ok k') (hq : q ≠ p) :
    k'.pcbs q = k.pcbs q := by
  obtain ⟨prio, he⟩ := schedule_enque h
  rw [← show _ = k' from congrArg Prod.snd he]
  exact setPcb_other k _ hq

theorem home_eq_ready {x : Pcb} {prio : Fin nPrios} (h : home x = some (.ready prio)) :
    x.state = .ready := by
  cases hs : x.state <;> simp [home, hs] at h ⊢

/-- `_dispatch` takes the first process of a ready queue, or finds them
all empty. -/
theorem dispatch_cases (k : Kernel) :
    ((∀ prio, k.on (.ready prio) = [])
      ∧ dispatch k = .error (.kpanic "_dispatch" "no ready processes!?!?!"))
    ∨ ∃ prio p l, k.on (.ready prio) = p :: l
      ∧ ∀ Q, k.deque (.ready prio) = (.success, some p, { k with queues := Q }) →
        dispatch k = .ok { { k with queues := Q, current := p }.setPcb p Pcb.makeRunning with
          mm := setReturnPde k.mm
            (({ k with queues := Q, current := p }.setPcb p Pcb.makeRunning).pcbs p).memory } := by
  cases hf : (List.finRange nPrios).find? fun prio =>
      decide (0 < k.queues.size (.pcbs (.ready prio))) with
  | none =>
      refine .inl ⟨fun prio => ?_, by rw [dispatch, hf]⟩
      have hempty := List.find?_eq_none.mp hf prio (List.mem_finRange prio)
      by_contra hne
      exact hempty (decide_eq_true (List.length_pos_iff.mpr hne))
  | some prio =>
      have hsz : 0 < (k.on (.ready prio)).length := by
        have := List.find?_some hf
        exact of_decide_eq_true this
      obtain ⟨p, l, hq⟩ := List.exists_cons_of_length_pos hsz
      refine .inr ⟨prio, p, l, hq, fun Q he => ?_⟩
      rw [dispatch, hf]
      simp only [he]
      rfl

theorem dispatch_spec (h : Placed k ∅ none) :
    Holds (dispatch k) (fun k' => Placed k' ∅ (some k'.current) ∧ k'.family = k.family)
      Fault.Expected := by
  rcases dispatch_cases k with ⟨-, hd⟩ | ⟨prio, p, l, hq, hd⟩
  · rw [hd]
    exact List.mem_cons_self ..
  · obtain ⟨Q, he, hpl, hstk⟩ := h.deque hq
    have hp : p ∈ k.on (.ready prio) := hq ▸ List.mem_cons_self ..
    have hstate := home_eq_ready ((h.mem p _).mp hp).2
    rw [hd Q he, holds_ok]
    rw [LawfulSingleton.insert_empty_eq] at hpl
    have hcur : Placed { k with queues := Q, current := p } {p} none := hpl.congr rfl rfl
    have h1 := hcur.setOff (Set.mem_singleton p) Pcb.makeRunning
    refine ⟨(h1.start ?_).congr rfl rfl, ?_⟩
    · rw [setPcb_self]
      rfl
    · refine (family_setPcb_same _ p ?_).trans (family_queues k hstk)
      simp only [Pcb.member, Pcb.makeRunning, hstate]
      rfl

/-! ## The end of a process -/

theorem deliver_placed (h : Placed k off run) (parent child : PcbId) :
    Placed (deliver k parent child) off run :=
  (h.set (p := parent) (fun x => { x with context.regs.eax := Status.success.word }) rfl
    fun _ => rfl).congr rfl rfl

theorem deliver_family (k : Kernel) (parent child : PcbId) :
    (deliver k parent child).family
      = { k.family with reports := k.reports ++ [⟨(k.pcbs parent).pid, (k.pcbs child).pid,
          (k.pcbs child).exitstatus⟩] } := by
  have hpid : ∀ x, ((k.setRet parent Status.success.word).pcbs x).member
      = (k.pcbs x).member := by
    intro x
    rcases eq_or_ne x parent with rfl | hx
    · rw [Kernel.setRet, setPcb_self]
      rfl
    · rw [Kernel.setRet, setPcb_other k _ hx]
  have hp := congrArg Member.pid (hpid parent)
  have hc := congrArg Member.pid (hpid child)
  have he := congrArg Member.exitstatus (hpid child)
  simp only [Pcb.member_pid, Pcb.member_exitstatus] at hp hc he
  simp only [deliver, Kernel.family, hpid, hp, hc, he]
  rfl

theorem pcbCleanup_spec (h : Placed k off run) (hp : p ∈ off) {s : StackId}
    (hstk : (k.pcbs p).stack = some s) (hs : s ∉ k.freeStacks) :
    Placed (pcbCleanup k p) (off \ {p}) run
    ∧ (pcbCleanup k p).family = k.family.release p
    ∧ (pcbCleanup k p).current = k.current := by
  obtain ⟨Q, he, hpl, hQ⟩ := stkDealloc_spec h hs
  obtain ⟨h1, h2, h3⟩ := pcbDealloc_spec hpl hp
  have hk : pcbCleanup k p = pcbDealloc { k with queues := Q } p := by
    rw [pcbCleanup, hstk, he]
  rw [hk]
  refine ⟨h1, ?_, h3⟩
  rw [h2]
  simp only [Family.release, Family.set, Kernel.family, Kernel.freeStacks, hQ, Pcb.member_stack,
    hstk, Option.toList_some]

/-- The fields of a PCB that reparenting changes. -/
@[simps] def Pcb.setKin (x : Pcb) (ppid children : Half) : Pcb :=
  { x with ppid := ppid, children := children }

theorem reparent_pcbs (hpid : (k.pcbs p).pid ≠ -1) (hc : 0 < (k.pcbs p).children) :
    ∃ curr tgt, reparent k p = .ok { k with
      childCurr := curr
      childTarget := tgt
      pcbs := fun x => (k.pcbs x).setKin
        (if (k.pcbs x).ppid = (k.pcbs p).pid then pidInit else (k.pcbs x).ppid)
        (if x = p then 0 else if x = k.initPcb then
          (k.pcbs x).children + BitVec.ofNat 16 (k.family.kids (k.pcbs p).pid).length
          else (k.pcbs x).children) } := by
  obtain ⟨k', hk', hsame⟩ := reparent_ok hpid hc
  rw [SameButIter, foldl_adopt_rest] at hsame
  refine ⟨k'.childCurr, k'.childTarget, hk'.trans (congrArg Except.ok ?_)⟩
  have hmem : ∀ x, x ∈ kidsFrom k ((k.pcbs p).pid.signExtend 32) 0
      ↔ (k.pcbs x).ppid = (k.pcbs p).pid := by
    intro x
    rw [kidsFrom_zero]
    simp
  have hlen : (kidsFrom k ((k.pcbs p).pid.signExtend 32) 0).length
      = (k.family.kids (k.pcbs p).pid).length := by
    rw [kidsFrom_zero]
    rfl
  have hpcbs : (k'.setPcb p fun x => { x with children := 0 }).pcbs
      = fun x => (k.pcbs x).setKin
        (if (k.pcbs x).ppid = (k.pcbs p).pid then pidInit else (k.pcbs x).ppid)
        (if x = p then 0 else if x = k.initPcb then
          (k.pcbs x).children + BitVec.ofNat 16 (k.family.kids (k.pcbs p).pid).length
          else (k.pcbs x).children) := by
    have hpcb : k'.pcbs
        = ((kidsFrom k ((k.pcbs p).pid.signExtend 32) 0).foldl adopt k).pcbs := by
      rw [hsame]
    funext x
    rcases eq_or_ne x p with rfl | hxp
    · rw [setPcb_self, hpcb, foldl_adopt_pcbs]
      simp only [hmem, ↓reduceIte, Pcb.setKin]
    · rw [setPcb_other _ _ hxp, hpcb, foldl_adopt_pcbs]
      simp only [hmem, hlen, hxp, ↓reduceIte, Pcb.setKin]
  rw [← hpcbs]
  rw [hsame]
  rfl

theorem reparent_spec (h : Placed k off run) (hpid : (k.pcbs p).pid ≠ -1) :
    ∃ k', reparent k p = .ok k' ∧ Placed k' off run
      ∧ k'.family = (if 0 < (k.family.members p).children then k.family.reparent p
          else k.family)
      ∧ k'.current = k.current := by
  by_cases hc : 0 < (k.pcbs p).children
  · obtain ⟨curr, tgt, hk'⟩ := reparent_pcbs hpid hc
    refine ⟨_, hk', h.of_states rfl (fun x => rfl) fun x _ => rfl, ?_, rfl⟩
    exact (if_pos (show 0 < (k.family.members p).children from hc)).symm ▸ rfl
  · refine ⟨k, by rw [reparent, if_neg hc], h, ?_, rfl⟩
    exact (if_neg (show ¬0 < (k.family.members p).children from hc)).symm

theorem mode_dead_home {x : Pcb} (h : x.state.mode.Dead) :
    home x = some .zombie ∧ Legal x := by
  rcases h with h | h
  · rw [mode_eq_killed] at h
    exact ⟨by simp [home, h], by simp [h], by simp [h], by simp [h]⟩
  · rw [mode_eq_zombie] at h
    exact ⟨by simp [home, h], by simp [h], by simp [h], by simp [h]⟩

theorem lay_spec (h : Placed k {p} run) (hf : k.family.Inv)
    (hp : (k.pcbs p).state.mode.Dead) :
    ∃ k', lay k p = .ok k' ∧ Placed k' ∅ run ∧ k'.family = k.family.lay p
      ∧ k'.current = k.current := by
  obtain ⟨q, hq, -, hfind, hcases⟩ := hf.lay_cases (v := p) hp
  have hfind' : pcbFind k (k.pcbs p).ppid = some q := hfind
  rcases hcases with ⟨hlay, hw⟩ | ⟨hlay, hw, hqp, -⟩
  · have hw' : (k.pcbs q).state ≠ .waiting := fun hc => hw (mode_eq_waiting.mpr hc)
    obtain ⟨hhome, hlegal⟩ := mode_dead_home hp
    obtain ⟨Q, he, hpl, hstk⟩ := h.enque (Set.mem_singleton p) hhome hlegal
    rw [Set.sdiff_self] at hpl
    refine ⟨{ k with queues := Q }, ?_, hpl, ?_, rfl⟩
    · simp only [lay, hfind', hw', ↓reduceIte, he]
    · rw [hlay]
      exact family_queues k hstk
  · have hw' : (k.pcbs q).state = .waiting := mode_eq_waiting.mp hw
    have hon : q ∈ k.on .waiting := (h.mem q _).mpr ⟨hqp, by simp [home, hw']⟩
    obtain ⟨Q, he, hpl, hstk⟩ := h.remove hon
    have hfam := family_queues k hstk
    obtain ⟨s, hs, hsf⟩ := hf.owns p hp.ne_free
    have h1 := deliver_placed hpl q p
    have hfam1 : (deliver { k with queues := Q } q p).family
        = { k.family with reports := k.reports ++ [⟨(k.pcbs q).pid, (k.pcbs p).pid,
          (k.pcbs p).exitstatus⟩] } := by
      rw [deliver_family, hfam]
    obtain ⟨h2, hfam2, hc2⟩ := pcbCleanup_spec (p := p) (s := s) h1 (.inr rfl)
      ((congrArg (fun f => (f.members p).stack) hfam1).trans hs)
      (by rw [show (deliver { k with queues := Q } q p).freeStacks = k.freeStacks from
            congrArg Family.freeStacks hfam1]; exact hsf)
    obtain ⟨k', hk', h3, hfam3, hc3⟩ := schedule_spec (p := q) h2 ⟨.inl rfl, hqp⟩
    have hoff : (insert q {p} \ {p}) \ {q} = (∅ : Set PcbId) := by
      ext x
      simp only [Set.mem_sdiff, Set.mem_insert_iff, Set.mem_singleton_iff, Set.mem_empty_iff_false]
      tauto
    rw [hoff] at h3
    refine ⟨k', ?_, h3, ?_, hc3.trans hc2⟩
    · simp only [lay, hfind', hw', ↓reduceIte, he]
      exact hk'
    · rw [hfam3, hfam2, hfam1, hlay]
      rfl

/-- A process that has just been marked as dead, seen from the family it
was alive in. -/
theorem zombify_spec {f : Family} {m : Mode} {status : Word} (h : Placed k {p} run)
    (hf : f.Inv) (hlive : (f.members p).mode.Live) (hm : m.Dead)
    (hk : k.family = f.set p ((f.members p).die m status)) :
    ∃ k', zombify k p = .ok k' ∧ Placed k' ∅ run ∧ k'.family = f.terminate p m status
      ∧ k'.current = k.current := by
  have hself : k.family.members p = (f.members p).die m status := by
    rw [hk, Family.members_set, if_pos rfl]
  have hpid : (k.pcbs p).pid ≠ -1 := by
    have : (k.pcbs p).pid = (f.members p).pid := congrArg Member.pid hself
    rw [this]
    exact hf.pid_ne_free hlive.ne_free
  obtain ⟨k1, hk1, h1, hfam1, hc1⟩ := reparent_spec h hpid
  have horph : k1.family = f.orphan p m status := by
    rw [hfam1]
    split
    · rw [hk]
      rfl
    · rename_i hc
      rw [hself, Member.die_children] at hc
      have h0 : (f.members p).children = 0 := by
        refine BitVec.eq_of_toNat_eq ?_
        exact Nat.le_zero.mp (Nat.le_of_not_lt hc)
      rw [hk, hf.reparent_zero hlive h0]
  have hmode : (k1.pcbs p).state.mode = m := by
    have := congrArg (fun g => (g.members p).mode) horph
    rw [Family.orphan_mode, if_pos rfl] at this
    exact this
  obtain ⟨k2, hk2, h2, hfam2, hc2⟩ := lay_spec h1 (horph ▸ hf.orphan hlive hm) (hmode ▸ hm)
  refine ⟨k2, ?_, h2, ?_, hc2.trans hc1⟩
  · rw [zombify, hk1]
    exact hk2
  · rw [hfam2, horph, hf.terminate_eq hlive]

end SpKernel
