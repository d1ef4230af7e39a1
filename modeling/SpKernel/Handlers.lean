import SpKernel.Simulation

/-!
# What the handlers do to the family

One rule for each system call and interrupt handler, assembled from the
rules for the primitives. `Good` is the invariant of the kernel between
two events: every PCB is in its place, and the family satisfies
`Family.Inv`. `Performs k P x` says that the computation `x`, started in
`k`, either fails in an expected way or leaves every PCB in its place and
the family changed by one act that `P` allows.

`Explains f p e a` says which acts an event `e` of the process `p` may
perform, so that a later result about acts is one about events: a `fork`
can be nothing or a birth, a `wait` nothing, the start of a wait or the
collection of a child, `exit`, a page fault and a code out of range the
death of the caller, `kill` that of its victim. Everything else is
nothing, to the family.

The longer handlers have a lemma with their cases (`sysSleep_cases`,
`sysKill_cases`, `finishKill_cases`, `sysWait_cases`, `sysFork_cases`),
from which this module and the later ones each take what they need.

`step_syscall` is the way from user mode to user mode around a system
call, and `step_sim` is the result: a step from a `Good` state leaves a
`Good` state and the family changed by one act that explains the event,
or fails in an expected way.
-/

namespace SpKernel

open Function (update update_self update_of_ne)
open Lib

/-- A kernel state between two events. -/
structure Good (k : Kernel) : Prop where
  placed : Placed k ∅ (some k.current)
  family : k.family.Inv

def Performs (k : Kernel) (P : Act → Prop) (x : Except Fault Kernel) : Prop :=
  Holds x (fun k' => Placed k' ∅ (some k'.current)
    ∧ ∃ a, P a ∧ a.Enabled k.family ∧ k'.family = a.apply k.family) Fault.Expected

/-- Which acts an event of process `p` can lead to. -/
inductive Explains (f : Family) (p : PcbId) : Event → Act → Prop
  | quiet {e} : Explains f p e .quiet
  | fork {frame keys new stk} : frame.regs.eax = 3 →
      Explains f p (.interrupt frame (.syscall keys)) (.fork p new stk)
  | block {frame keys} : frame.regs.eax = 6 →
      Explains f p (.interrupt frame (.syscall keys)) (.block p)
  | reap {frame keys z} : frame.regs.eax = 6 →
      Explains f p (.interrupt frame (.syscall keys)) (.reap p z)
  | exit {frame keys} : frame.regs.eax = 0 →
      Explains f p (.interrupt frame (.syscall keys)) (.terminate p .zombie (frame.args 1))
  | badCode {frame keys} : nSyscalls ≤ frame.regs.eax →
      Explains f p (.interrupt frame (.syscall keys)) (.terminate p .zombie exitBadCode)
  | kill {frame keys v} : frame.regs.eax = 5 →
      (f.members v).pid = (frame.args 1).setWidth 16 →
      Explains f p (.interrupt frame (.syscall keys)) (.terminate v .killed exitKilled)
  | pageFault {frame} :
      Explains f p (.interrupt frame .pageFault) (.terminate p .killed exitKilled)

variable {k k' : Kernel} {P : Act → Prop} {p : PcbId}

theorem Good.running (g : Good k) : (k.pcbs k.current).state = .running :=
  (g.placed.running k.current id).mpr rfl

theorem Good.active (g : Good k) : (k.family.members k.current).mode = .active := by
  simp [g.running, PState.mode]

theorem Good.stop (g : Good k) : Placed k {k.current} none := by
  have := g.placed.stop
  rwa [LawfulSingleton.insert_empty_eq] at this

theorem Good.congr (g : Good k) (hp : k'.pcbs = k.pcbs) (hq : k'.queues = k.queues)
    (hc : k'.current = k.current) (hf : k'.family = k.family) : Good k' :=
  ⟨hc ▸ g.placed.congr hp hq, hf ▸ g.family⟩

theorem Performs.quiet (hP : P .quiet) (h : Placed k' ∅ (some k'.current))
    (hf : k'.family = k.family) : Performs k P (.ok k') :=
  ⟨h, .quiet, hP, trivial, hf⟩

theorem Performs.dispatch {a : Act} (hP : P a) (hen : a.Enabled k.family)
    (h : Placed k' ∅ none) (hf : k'.family = a.apply k.family) :
    Performs k P (dispatch k') :=
  (dispatch_spec h).mono fun _ h' => ⟨h'.1, a, hP, hen, h'.2.trans hf⟩

theorem Performs.of_family {x : Except Fault Kernel} (h : Performs k P x)
    (hf : k.family = k'.family) : Performs k' P x := by
  rw [Performs] at h ⊢
  rwa [hf] at h

/-! ## Results -/

theorem Placed.setRet {off : Set PcbId} {run : Option PcbId} (h : Placed k off run) (p : PcbId)
    (v : Word) : Placed (k.setRet p v) off run :=
  h.set _ rfl fun _ => rfl

theorem setRet_state (k : Kernel) (p : PcbId) (v : Word) (q : PcbId) :
    ((k.setRet p v).pcbs q).state = (k.pcbs q).state :=
  setPcb_state k p rfl q

theorem family_setRet (k : Kernel) (p : PcbId) (v : Word) : (k.setRet p v).family = k.family :=
  family_setPcb_same k p rfl

theorem Good.setRet (g : Good k) (hP : P .quiet) (p : PcbId) (v : Word) :
    Performs k P (.ok (k.setRet p v)) :=
  .quiet hP (g.placed.setRet p v) (family_setRet k p v)

theorem Good.setArg (g : Good k) (p : PcbId) (n : Nat) (v : Word) : Good (k.setArg p n v) := by
  have hf : (k.setArg p n v).family = k.family := family_setPcb_same k p rfl
  exact ⟨g.placed.set _ rfl fun _ => rfl, hf ▸ g.family⟩

theorem sysGetpid_spec (g : Good k) (hP : P .quiet) : Performs k P (sysGetpid k p) :=
  g.setRet hP ..

theorem sysGetppid_spec (g : Good k) (hP : P .quiet) : Performs k P (sysGetppid k p) :=
  g.setRet hP ..

theorem sysGettime_spec (g : Good k) (hP : P .quiet) : Performs k P (sysGettime k p) :=
  g.setRet hP ..

theorem sysWrite_spec (g : Good k) (hP : P .quiet) : Performs k P (sysWrite k p) := by
  simp only [sysWrite]
  split
  · exact g.setRet hP ..
  · split
    · have g' : Good { k with
          sio := (sioWrites k.sio k.mm.mem (k.arg p 2) (k.arg p 3).toInt).2 } :=
        g.congr rfl rfl rfl rfl
      exact (g'.setRet hP ..).of_family rfl
    · exact g.setRet hP ..

/-! ## Read -/

theorem Good.block (g : Good k) : ∃ Q,
    k.enque .reading k.current = (.success, { k with queues := Q })
    ∧ Placed ({ k with queues := Q }.setPcb k.current fun x => { x with state := .blocked }) ∅ none
    ∧ Q.items .freeStacks = k.freeStacks := by
  -- the state is set after the PCB is queued
  have h1 := g.stop.setOff (Set.mem_singleton _) fun x => { x with state := .blocked }
  obtain ⟨Q, he, hpl, hstk⟩ := h1.enque (q := .reading) (Set.mem_singleton _)
    (by rw [setPcb_self]; rfl) (by rw [setPcb_self]; exact ⟨nofun, nofun, nofun⟩)
  rw [Set.sdiff_self] at hpl
  refine ⟨Q, ?_, hpl, hstk⟩
  have hQ := congrArg (fun x => (x.1, x.2.queues)) he
  simp only [Kernel.enque, Kernel.order] at hQ ⊢
  obtain ⟨h1, h2⟩ := Prod.mk.inj hQ
  simp only [show (k.setPcb k.current fun x => { x with state := .blocked }).queues
    = k.queues from rfl] at h1 h2
  rw [h1, h2]

theorem readDone_spec (g : Good k) (hP : P .quiet) (n : Nat) :
    Performs k P (readDone k k.current n) := by
  rw [readDone]
  split
  · exact g.setRet hP ..
  · obtain ⟨Q, he, hpl, hstk⟩ := g.block
    simp only [he]
    refine .dispatch hP trivial hpl ?_
    refine (family_setPcb_same { k with queues := Q } _ ?_).trans (family_queues k hstk)
    simp [Pcb.member, g.running, PState.mode]

theorem pollKeys_fault : ∀ (keys : List Byte) (c : Console),
    Holds (pollKeys keys c) (fun _ => True) Fault.Expected
  | [], c => by
      rw [pollKeys]
      split <;> trivial
  | code :: keys, c => by
      rw [pollKeys]
      split
      · trivial
      · exact pollKeys_fault keys _

theorem cGetsLoop_fault : ∀ (size : Nat) (c : Console) (keys : List Byte) (m : Mem) (buffer : Word)
    (count : Nat), Holds (cGetsLoop size c keys m buffer count) (fun _ => True) Fault.Expected
  | 0, c, keys, m, buffer, count => trivial
  | 1, c, keys, m, buffer, count => trivial
  | size + 2, c, keys, m, buffer, count => by
      rw [cGetsLoop]
      have hchar : Holds (cGetchar c keys) (fun _ => True) Fault.Expected :=
        (pollKeys_fault keys c).bind fun _ _ => trivial
      refine hchar.bind fun ⟨ch, c, keys⟩ _ => ?_
      simp only
      split
      · trivial
      · split
        · trivial
        · exact cGetsLoop_fault (size + 1) ..

theorem sysRead_spec (g : Good k) (hP : P .quiet) (keys : List Byte) :
    Performs k P (sysRead keys k k.current) := by
  simp only [sysRead]
  split
  · split
    · exact g.setRet hP ..
    · refine (cGetsLoop_fault ..).bind fun x _ => ?_
      have g' : Good { k with console := x.2.1, mm := { k.mm with mem := x.2.2 } } :=
        g.congr rfl rfl rfl rfl
      exact (readDone_spec g' hP x.1).of_family rfl
  · split
    · have g' : Good { k with
          sio := (sioReads k.sio k.mm.mem (k.arg k.current 2) (k.arg k.current 3).toInt).2.1
          mm := { k.mm with
            mem :=
              (sioReads k.sio k.mm.mem (k.arg k.current 2) (k.arg k.current 3).toInt).2.2 } } :=
        g.congr rfl rfl rfl rfl
      exact (readDone_spec g' hP _).of_family rfl
    · exact g.setRet hP ..

/-! ## Sleep -/

/-- The running process goes back to its ready queue. -/
theorem Good.yield (g : Good k) :
    ∃ k', schedule k k.current = .ok k' ∧ Placed k' ∅ none ∧ k'.family = k.family
      ∧ ∀ x ≠ k.current, k'.pcbs x = k.pcbs x := by
  obtain ⟨k', hk', hpl, hfam, -⟩ := schedule_spec g.stop (Set.mem_singleton _)
  rw [Set.sdiff_self] at hpl
  refine ⟨k', hk', hpl, hfam.trans (family_set_same ?_), fun x hx => schedule_other hk' hx⟩
  rw [← g.active]
  rfl

theorem sysSleep_cases (g : Good k) :
    ∃ k', sysSleep k k.current = dispatch k' ∧ Placed k' ∅ none ∧ k'.family = k.family
      ∧ ∀ x ≠ k.current, k'.pcbs x = k.pcbs x := by
  rw [sysSleep]
  split
  · obtain ⟨k', hk', h⟩ := g.yield
    exact ⟨k', by rw [hk', ok_bind], h⟩
  · have h1 := g.stop.setOff (Set.mem_singleton _) fun x =>
      { x with wakeup := k.now + k.arg k.current 1, state := .sleeping }
    obtain ⟨Q, he, hpl, hstk⟩ := h1.enque (q := .sleeping) (Set.mem_singleton _)
      (by rw [setPcb_self]; rfl) (by rw [setPcb_self]; exact ⟨nofun, nofun, nofun⟩)
    rw [Set.sdiff_self] at hpl
    simp only [he]
    refine ⟨_, rfl, hpl, (family_queues _ hstk).trans ?_, fun x hx => update_of_ne hx ..⟩
    refine family_setPcb_same k _ ?_
    simp [Pcb.member, g.running, PState.mode]

theorem sysSleep_spec (g : Good k) (hP : P .quiet) : Performs k P (sysSleep k k.current) := by
  obtain ⟨k', hk', hpl, hfam, -⟩ := sysSleep_cases g
  rw [hk']
  exact .dispatch hP trivial hpl hfam

/-! ## Exit, kill and page faults -/

/-- The running process is marked as dead and laid to rest. -/
theorem Good.zombify (g : Good k) {m : Mode} {status : Word} {f : Pcb → Pcb} (hm : m.Dead)
    (hf : ∀ x, (f x).member = x.member.die m status) :
    ∃ k', zombify (k.setPcb k.current f) k.current = .ok k' ∧ Placed k' ∅ none
      ∧ k'.family = k.family.terminate k.current m status := by
  have h1 := g.stop.setOff (Set.mem_singleton _) f
  have hfam : (k.setPcb k.current f).family
      = k.family.set k.current ((k.family.members k.current).die m status) := by
    rw [family_setPcb, hf]
    rfl
  obtain ⟨k', hk', hpl, hfam', -⟩ := zombify_spec h1 g.family (.inl g.active) hm hfam
  exact ⟨k', hk', hpl, hfam'⟩

theorem Good.die (g : Good k) {m : Mode} {status : Word} {f : Pcb → Pcb}
    (hP : P (.terminate k.current m status)) (hm : m.Dead)
    (hf : ∀ x, (f x).member = x.member.die m status) :
    Performs k P (do
      let k' ← SpKernel.zombify (k.setPcb k.current f) k.current
      SpKernel.dispatch k') := by
  obtain ⟨k', hk', hpl, hfam⟩ := g.zombify hm hf
  rw [hk']
  exact .dispatch hP ⟨.inl g.active, hm⟩ hpl hfam

theorem sysExit_spec (g : Good k) (hP : P (.terminate k.current .zombie (k.arg k.current 1))) :
    Performs k P (sysExit k k.current) :=
  g.die hP (.inr rfl) fun _ => rfl

theorem pageFaultIsr_spec (g : Good k) (hP : P (.terminate k.current .killed exitKilled)) :
    Performs k P (pageFaultIsr k) :=
  g.die hP (.inl rfl) fun _ => rfl

/-- A victim that is off its queue, or off the CPU, is laid to rest. -/
theorem finishKill_cases {k₁ : Kernel} {v : PcbId} (g : Good k)
    (hlive : (k.family.members v).mode.Live)
    (h : Placed k₁ {v} (if v = k.current then none else some k.current))
    (hf : k₁.family = k.family) (hc : k₁.current = k.current) :
    ∃ k', zombify ((k₁.setPcb v fun x =>
        { x with state := .killed, exitstatus := exitKilled }).setRet k.current
          Status.success.word) v = .ok k'
      ∧ finishKill k₁ k.current v = (if v = k.current then dispatch k' else .ok k')
      ∧ Placed k' ∅ (if v = k.current then none else some k'.current)
      ∧ k'.family = k.family.terminate v .killed exitKilled := by
  have h1 := (h.setOff (Set.mem_singleton v) fun x =>
    { x with state := .killed, exitstatus := exitKilled }).setRet k.current Status.success.word
  have hfam : ((k₁.setPcb v fun x => { x with state := .killed, exitstatus := exitKilled }).setRet
      k.current Status.success.word).family
      = k.family.set v ((k.family.members v).die .killed exitKilled) := by
    rw [family_setRet, family_setPcb, ← hf]
    rfl
  obtain ⟨k', hk', hpl, hfam', hc'⟩ := zombify_spec h1 g.family hlive (.inl rfl) hfam
  have hcur : k'.current = k.current := hc'.trans hc
  refine ⟨k', hk', ?_, by rwa [hcur], hfam'⟩
  simp only [finishKill, hk', ok_bind, hcur]

theorem finishKill_spec {k₁ : Kernel} {v : PcbId} (g : Good k)
    (hP : P (.terminate v .killed exitKilled)) (hlive : (k.family.members v).mode.Live)
    (h : Placed k₁ {v} (if v = k.current then none else some k.current))
    (hf : k₁.family = k.family) (hc : k₁.current = k.current) :
    Performs k P (finishKill k₁ k.current v) := by
  obtain ⟨k', -, heq, hpl, hfam⟩ := finishKill_cases g hlive h hf hc
  rw [heq]
  split
  · rename_i hv
    rw [if_pos hv] at hpl
    exact .dispatch hP ⟨hlive, .inl rfl⟩ hpl hfam
  · rename_i hv
    rw [if_neg hv] at hpl
    exact ⟨hpl, _, hP, ⟨hlive, .inl rfl⟩, hfam⟩

/-- A process that is kept in a queue is not the current one, and it can be
taken from there. -/
theorem Good.takeFrom {v : PcbId} {q : PQueue} (g : Good k) (hq : home (k.pcbs v) = some q) :
    v ≠ k.current ∧ ∃ Q, k.remove q v = (.success, { k with queues := Q })
      ∧ Placed { k with queues := Q } {v} (some k.current)
      ∧ Q.items .freeStacks = k.freeStacks := by
  refine ⟨?_, ?_⟩
  · rintro rfl
    simp [home, g.running] at hq
  · have hremove := g.placed.remove ((g.placed.mem v q).mpr ⟨id, hq⟩)
    rwa [LawfulSingleton.insert_empty_eq] at hremove

theorem killFrom_spec {v : PcbId} {q : PQueue} (g : Good k)
    (hP : P (.terminate v .killed exitKilled)) (hlive : (k.family.members v).mode.Live)
    (hq : home (k.pcbs v) = some q) : Performs k P (killFrom k k.current v q) := by
  obtain ⟨hv, Q, he, hpl, hstk⟩ := g.takeFrom hq
  simp only [killFrom, he]
  exact finishKill_spec g hP hlive (by rwa [if_neg hv]) (family_queues k hstk) rfl

/-- What `_sys_kill` does: nothing, or what the state of its victim asks
for. -/
theorem sysKill_cases (k : Kernel) (p : PcbId) :
    (∃ v, sysKill k p = .ok (k.setRet p v))
    ∨ ∃ victim, pcbFind k ((k.arg p 1).setWidth 16) = some victim
      ∧ ((∃ q, home (k.pcbs victim) = some q ∧ (k.pcbs victim).state.mode.Live
          ∧ sysKill k p = killFrom k p victim q)
        ∨ ((k.pcbs victim).state = .running ∧ sysKill k p = finishKill k p victim)
        ∨ ((k.pcbs victim).state ∈ [.invalid, .free, .new]
          ∧ sysKill k p = .error (.kpanic "_sys_kill" "bad victim state"))) := by
  cases hfind : pcbFind k ((k.arg p 1).setWidth 16) with
  | none => exact .inl ⟨_, by rw [sysKill, hfind]⟩
  | some victim =>
      cases hs : (k.pcbs victim).state with
      | waiting =>
          have hmode := congrArg PState.mode hs
          refine .inr ⟨victim, rfl, .inl ⟨.waiting, by simp [home, hs], .inr hmode, ?_⟩⟩
          simp only [sysKill, hfind, hs]
      | sleeping =>
          have hmode := congrArg PState.mode hs
          refine .inr ⟨victim, rfl, .inl ⟨.sleeping, by simp [home, hs], .inl hmode, ?_⟩⟩
          simp only [sysKill, hfind, hs]
      | blocked =>
          have hmode := congrArg PState.mode hs
          refine .inr ⟨victim, rfl, .inl ⟨.reading, by simp [home, hs], .inl hmode, ?_⟩⟩
          simp only [sysKill, hfind, hs]
      | ready =>
          have hmode := congrArg PState.mode hs
          refine .inr ⟨victim, rfl, .inl ⟨.ready (Fin.ofNat nPrios (k.pcbs victim).prio.toNat),
            by simp only [home, hs], .inl hmode, ?_⟩⟩
          simp only [sysKill, hfind, hs]
      | running =>
          refine .inr ⟨victim, rfl, .inr (.inl ⟨hs, ?_⟩)⟩
          simp only [sysKill, hfind, hs]
      | killed | zombie =>
          refine .inl ⟨Status.success.word, ?_⟩
          simp only [sysKill, hfind, hs]
      | invalid | free | new =>
          refine .inr ⟨victim, rfl, .inr (.inr ⟨by simp [hs], ?_⟩)⟩
          simp only [sysKill, hfind, hs]

theorem sysKill_spec (g : Good k)
    (hP : ∀ v, (k.pcbs v).pid = (k.arg k.current 1).setWidth 16 →
      P (.terminate v .killed exitKilled)) (hQ : P .quiet) :
    Performs k P (sysKill k k.current) := by
  rcases sysKill_cases k k.current with ⟨v, hk⟩ | ⟨victim, hfind, hcases⟩
  · rw [hk]
    exact g.setRet hQ ..
  have hv := hP victim (Family.find_eq_some (f := k.family) hfind)
  rcases hcases with ⟨q, hq, hlive, hk⟩ | ⟨hs, hk⟩ | ⟨-, hk⟩
  · rw [hk]
    exact killFrom_spec g hv hlive hq
  · obtain rfl : k.current = victim := Option.some.inj ((g.placed.running victim id).mp hs)
    rw [hk]
    exact finishKill_spec g hv (.inl g.active) (by rw [if_pos rfl]; exact g.stop) rfl rfl
  · rw [hk]
    exact List.mem_cons_of_mem _ (List.mem_cons_self ..)

/-! ## Wait -/

theorem stkDealloc_rest (k : Kernel) (stack : Option StackId) :
    (stkDealloc k stack).pcbs = k.pcbs ∧ (stkDealloc k stack).mm = k.mm := by
  cases stack <;> exact ⟨rfl, rfl⟩

theorem pcbCleanup_rest (k : Kernel) (z : PcbId) {x : PcbId} (hx : x ≠ z) :
    (pcbCleanup k z).pcbs x = k.pcbs x ∧ (pcbCleanup k z).mm = k.mm := by
  obtain ⟨hp, hm⟩ := stkDealloc_rest k (k.pcbs z).stack
  refine ⟨?_, hm⟩
  rw [← hp]
  exact setPcb_other _ _ hx

theorem deliver_result (k : Kernel) (parent child : PcbId) :
    ((deliver k parent child).pcbs parent).context.regs.eax = Status.success.word :=
  congrArg (fun x : Pcb => x.context.regs.eax)
    (setPcb_self k parent fun x => { x with context.regs.eax := Status.success.word })

theorem deliver_mem (k : Kernel) {parent child : PcbId} (hne : child ≠ parent) :
    (deliver k parent child).mm.mem
      = store 4 (store 2 k.mm.mem (k.arg parent 1) (k.pcbs child).pid) (k.arg parent 2)
          (k.pcbs child).exitstatus := by
  have hc : (k.setRet parent Status.success.word).pcbs child = k.pcbs child :=
    setPcb_other k _ hne
  have ha : ∀ n, (k.setRet parent Status.success.word).arg parent n = k.arg parent n := by
    intro n
    rw [Kernel.arg, Kernel.setRet, setPcb_self]
    rfl
  simp only [deliver, hc, ha]
  rfl

/-- The running process of `k` has collected its dead child `z`. -/
structure Collected (k : Kernel) (z : PcbId) (k' : Kernel) : Prop where
  zombie : (k.pcbs z).state = .zombie
  child : (k.pcbs z).ppid = (k.pcbs k.current).pid
  placed : Placed k' ∅ (some k'.current)
  current : k'.current = k.current
  family : k'.family = k.family.reap k.current z
  result : (k'.pcbs k.current).context.regs.eax = Status.success.word
  memory : k'.mm.mem = store 4 (store 2 k.mm.mem (k.arg k.current 1) (k.pcbs z).pid)
    (k.arg k.current 2) (k.pcbs z).exitstatus

theorem collect_spec (g : Good k) {z : PcbId} (hz : (k.pcbs z).state = .zombie)
    (hkid : (k.pcbs z).ppid = (k.pcbs k.current).pid) :
    ∃ Q, k.remove .zombie z = (.success, { k with queues := Q })
      ∧ Collected k z (pcbCleanup (deliver ({ k with queues := Q }.setPcb k.current
          fun x => { x with children := x.children - 1 }) k.current z) z) := by
  have hne : z ≠ k.current := by
    intro he
    rw [he, g.running] at hz
    cases hz
  obtain ⟨Q, he, hpl, hstk⟩ := g.placed.remove
    ((g.placed.mem z .zombie).mpr ⟨id, by simp [home, hz]⟩)
  rw [LawfulSingleton.insert_empty_eq] at hpl
  have hset := hpl.set (p := k.current) (fun x => { x with children := x.children - 1 }) rfl
    fun _ => rfl
  have hz' := setPcb_other { k with queues := Q }
    (fun x => { x with children := x.children - 1 }) hne
  have hp' := setPcb_self { k with queues := Q } k.current
    (fun x => { x with children := x.children - 1 })
  have hfam : ({ k with queues := Q }.setPcb k.current
      fun x => { x with children := x.children - 1 }).family
      = k.family.set k.current ((k.family.members k.current).setChildren
          ((k.family.members k.current).children - 1)) := by
    rw [family_setPcb, family_queues k hstk]
    rfl
  have hfam1 := deliver_family ({ k with queues := Q }.setPcb k.current
    fun x => { x with children := x.children - 1 }) k.current z
  obtain ⟨s, hs, hsf⟩ := g.family.owns z (by simp [hz, PState.mode])
  have h1 := deliver_placed hset k.current z
  obtain ⟨h2, hfam2, hc2⟩ := pcbCleanup_spec (p := z) (s := s) h1 rfl
    (by
      have := congrArg (fun f => (f.members z).stack) hfam1
      exact this.trans ((congrArg Pcb.stack hz').trans hs))
    (by
      rw [show (deliver _ k.current z).freeStacks = k.freeStacks from
        (congrArg Family.freeStacks hfam1).trans hstk]
      exact hsf)
  rw [Set.sdiff_self] at h2
  obtain ⟨hkeep, hmm⟩ := pcbCleanup_rest (deliver ({ k with queues := Q }.setPcb k.current
    fun x => { x with children := x.children - 1 }) k.current z) z hne.symm
  refine ⟨Q, he, hz, hkid, ?_, hc2, ?_, ?_, ?_⟩
  · rw [hc2]
    exact h2
  · rw [hfam2, hfam1, hfam, hz', hp']
    have hmz : (k.family.set k.current ((k.family.members k.current).setChildren
        ((k.family.members k.current).children - 1))).members z = k.family.members z := by
      rw [Family.members_set, if_neg hne]
    have hmp : (k.family.set k.current ((k.family.members k.current).setChildren
        ((k.family.members k.current).children - 1))).members k.current
        = (k.family.members k.current).setChildren ((k.family.members k.current).children - 1) := by
      rw [Family.members_set, if_pos rfl]
    simp only [Family.reap, Family.handOver, hmz, hmp]
    rfl
  · rw [hkeep, deliver_result]
  · rw [hmm, deliver_mem _ hne, hz', Kernel.arg, Kernel.arg, hp']
    rfl

theorem sysWait_cases (g : Good k) :
    (k.pcbs k.current).children = 0
        ∧ sysWait k k.current = .ok (k.setRet k.current Status.noChild.word)
    ∨ ((k.pcbs k.current).children ≠ 0
        ∧ ∃ z k', sysWait k k.current = .ok k' ∧ Collected k z k')
    ∨ (k.pcbs k.current).children ≠ 0
        ∧ (∀ z, (k.pcbs z).state = .zombie → (k.pcbs z).ppid ≠ (k.pcbs k.current).pid)
        ∧ ∃ k', sysWait k k.current = dispatch k' ∧ Placed k' ∅ none
          ∧ k'.family = k.family.block k.current ∧ ∀ x ≠ k.current, k'.pcbs x = k.pcbs x := by
  by_cases hc : (k.pcbs k.current).children = 0
  · exact .inl ⟨hc, by rw [sysWait, if_pos hc]⟩
  have hpid : (k.pcbs k.current).pid ≠ -1 :=
    g.family.pid_ne_free (p := k.current) (by rw [g.active]; decide)
  obtain ⟨k₁, hsearch, hsame⟩ := findZombie_ok hpid
  obtain ⟨⟨c, k₂⟩, hfind, hloop⟩ := bind_eq_ok.mp hsearch
  simp only at hloop
  obtain ⟨curr, tgt, rfl⟩ : ∃ curr tgt, k₁ = { k with childCurr := curr, childTarget := tgt } :=
    ⟨_, _, hsame⟩
  have g₁ : Good { k with childCurr := curr, childTarget := tgt } := g.congr rfl rfl rfl rfl
  rw [sysWait, if_neg hc, hfind]
  simp only [ok_bind, hloop]
  refine .inr ?_
  rw [kidsFrom_zero] at hloop ⊢
  cases hz : ((List.finRange nPcbs).filter fun z => (k.pcbs z).ppid == (k.pcbs k.current).pid).find?
      fun z => decide ((k.pcbs z).state = .zombie) with
  | some z =>
      have hzombie : (k.pcbs z).state = .zombie := by simpa using List.find?_some hz
      have hkid : (k.pcbs z).ppid = (k.pcbs k.current).pid := by
        simpa using List.mem_of_find?_eq_some hz
      obtain ⟨Q, he, hcol⟩ := collect_spec g₁ hzombie hkid
      refine .inl ⟨hc, z, _, ?_, hcol.zombie, hcol.child, hcol.placed, hcol.current, hcol.family,
        hcol.result, hcol.memory⟩
      simp only [he]
  | none =>
      have h1 := g₁.stop.setOff (Set.mem_singleton _) fun x => { x with state := .waiting }
      obtain ⟨Q, he, hpl, hstk⟩ := h1.enque (q := .waiting) (Set.mem_singleton _)
        (by rw [setPcb_self]; rfl) (by rw [setPcb_self]; exact ⟨nofun, nofun, nofun⟩)
      rw [Set.sdiff_self] at hpl
      refine .inr ⟨hc, fun z hzs hkid => ?_, _, ?_, hpl, ?_, fun x hx => ?_⟩
      · refine absurd (List.find?_eq_none.mp hz z ?_) (by simp [hzs])
        simp [hkid]
      · simp only [he]
      · rw [family_queues _ hstk, family_setPcb]
        rfl
      · exact update_of_ne hx ..

theorem sysWait_spec (g : Good k) (hQ : P .quiet) (hb : P (.block k.current))
    (hr : ∀ z, P (.reap k.current z)) : Performs k P (sysWait k k.current) := by
  rcases sysWait_cases g with ⟨-, hw⟩ | ⟨hc, z, k', hw, h⟩ | ⟨hc, hz, k', hw, h, hf, -⟩
  · rw [hw]
    exact g.setRet hQ ..
  · rw [hw]
    exact ⟨h.placed, _, hr z, ⟨g.active, hc, mode_eq_zombie.mpr h.zombie, h.child⟩, h.family⟩
  · rw [hw]
    exact .dispatch hb ⟨g.active, hc, fun z hm => hz z (mode_eq_zombie.mp hm)⟩ h hf

/-! ## Fork -/

/-- The part of `_sys_fork` after both allocations. -/
def birth (k : Kernel) (p new : PcbId) (stk : StackId) : Kernel :=
  let pid := k.nextPid
  let k := k.setPcb new fun _ => forkPcb (k.pcbs p) pid stk
  let k := { k with nextPid := k.nextPid + 1 }
  let k := k.setRet p (pid.signExtend 32)
  k.setPcb p fun x => { x with children := x.children + 1 }

theorem Placed.birth {new : PcbId} {run : Option PcbId} (h : Placed k {new} run) (p : PcbId)
    (stk : StackId) : Placed (birth k p new stk) {new} run := by
  have h1 := h.setOff (Set.mem_singleton new) fun _ => forkPcb (k.pcbs p) k.nextPid stk
  have h2 : Placed { k.setPcb new (fun _ => forkPcb (k.pcbs p) k.nextPid stk) with
      nextPid := k.nextPid + 1 } {new} run := h1.congr rfl rfl
  exact (h2.setRet p (k.nextPid.signExtend 32)).set
    (fun x => { x with children := x.children + 1 }) rfl fun _ => rfl

theorem birth_member (k : Kernel) {p new : PcbId} (stk : StackId) (hne : new ≠ p) (x : PcbId) :
    ((birth k p new stk).pcbs x).member
      = if x = p then (k.pcbs p).member.setChildren ((k.pcbs p).children + 1)
        else if x = new then (forkPcb (k.pcbs p) k.nextPid stk).member
        else (k.pcbs x).member := by
  simp only [birth, Kernel.setRet, Kernel.setPcb, Function.update_apply]
  rcases eq_or_ne x p with rfl | hx
  · simp only [↓reduceIte, hne.symm]
    rfl
  · simp only [hx, ↓reduceIte]
    split <;> rfl

theorem birth_family {k : Kernel} {p new : PcbId} {stk : StackId} {f : Family} {l : List StackId}
    (hne : new ≠ p) (hs : f.freeStacks = stk :: l)
    (hk : k.family = (f.set new ((f.members new).setMode .active)).setStacks l) :
    (birth k p new stk).family.set new
        (((birth k p new stk).family.members new).setMode .active) = f.fork p new stk := by
  have hmem : ∀ x, x ≠ new → (k.pcbs x).member = f.members x := by
    intro x hx
    have := congrFun (congrArg Family.members hk) x
    rwa [Family.setStacks_members, Family.members_set, if_neg hx] at this
  have hpm := hmem p hne.symm
  have hnext : k.nextPid = f.nextPid := congrArg Family.nextPid hk
  have hinit : k.initPcb = f.init := congrArg Family.init hk
  have hrep : k.reports = f.reports := congrArg Family.reports hk
  refine Family.ext (funext fun x => ?_) hinit ?_ ?_ hrep
  · rw [Family.members_set, Family.fork_members f]
    simp only [Kernel.family_members, birth_member k stk hne]
    rcases eq_or_ne x p with rfl | hx
    · simp only [hne.symm, ↓reduceIte, ← hpm]
      rfl
    · rcases eq_or_ne x new with rfl | hxn
      · simp only [hx, ↓reduceIte, ← hpm, ← hnext]
        rfl
      · simp only [hx, hxn, ↓reduceIte, hmem x hxn]
  · change k.nextPid + 1 = f.nextPid + 1
    rw [hnext]
  · change k.freeStacks = f.freeStacks.tail
    rw [hs]
    exact congrArg Family.freeStacks hk

/-- What `_sys_fork` leaves: nothing has changed but the result, or there
is a new process. -/
structure AfterFork (k k' : Kernel) : Prop where
  placed : Placed k' ∅ (some k'.current)
  family : k'.family = k.family ∨ ∃ new stk, (Act.fork k.current new stk).Enabled k.family
    ∧ k'.family = k.family.fork k.current new stk

theorem Good.forkFails (g : Good k) (v : Word) :
    ∃ k', Except.ok (k.setRet k.current v) = (.ok k' : Except Fault Kernel) ∧ AfterFork k k' :=
  ⟨_, rfl, g.placed.setRet k.current v, .inl (family_setRet k k.current v)⟩

theorem sysFork_cases (g : Good k) :
    ∃ k', sysFork k k.current = .ok k' ∧ AfterFork k k' := by
  rw [sysFork]
  split
  · exact g.forkFails _
  rename_i hlt
  cases hfree : k.on .free with
  | nil =>
      rw [pcbAlloc_nil hfree]
      exact g.forkFails _
  | cons new l =>
      obtain ⟨Q, hnew, hpl, hstk⟩ := pcbAlloc_cons g.placed hfree
      rw [LawfulSingleton.insert_empty_eq] at hpl
      have hst : (k.pcbs new).state = .free := by
        have := ((g.placed.mem new .free).mp (hfree ▸ List.mem_cons_self ..)).2
        cases hs : (k.pcbs new).state <;> simp [home, hs] at this ⊢
      have hne : new ≠ k.current := by
        rintro rfl
        rw [g.running] at hst
        cases hst
      have h1 := hpl.setOff (Set.mem_singleton new) fun x => { x with state := .new }
      have hfam : ({ k with queues := Q }.setPcb new fun x => { x with state := .new }).family
          = k.family.set new ((k.family.members new).setMode .active) := by
        rw [family_setPcb, family_queues k hstk]
        rfl
      generalize hk₁ : ({ k with queues := Q }.setPcb new fun x => { x with state := .new }) = k₁
        at hnew h1 hfam
      have hs₁ : k₁.freeStacks = k.freeStacks := congrArg Family.freeStacks hfam
      have hc₁ : k₁.current = k.current := by rw [← hk₁]; rfl
      cases hs : k.freeStacks with
      | nil =>
          have hnone := stkAlloc_nil (hs₁.trans hs)
          simp only [hnew, ok_bind, hnone]
          have h2 := h1.setRet k.current Status.noStacks.word
          obtain ⟨h3, hf3, hc3⟩ := pcbDealloc_spec h2 (Set.mem_singleton new)
          rw [Set.sdiff_self] at h3
          refine ⟨_, rfl, by rw [hc3]; exact hc₁ ▸ h3, .inl ?_⟩
          -- the slot was free before, and is so again
          rw [hf3, family_setRet, hfam, Family.members_set, if_pos rfl,
            g.family.gone_eq (mode_eq_free.mpr hst)]
          simp only [Family.set, Function.update_idem, Function.update_eq_self]
      | cons stk rest =>
          obtain ⟨Q₂, hsome, h2, hstk2⟩ := stkAlloc_cons h1 (hs₁.trans hs)
          simp only [hnew, ok_bind, hsome]
          have hfam2 : ({ k₁ with queues := Q₂ } : Kernel).family
              = (k.family.set new ((k.family.members new).setMode .active)).setStacks rest := by
            rw [← hfam]
            simp only [Kernel.family, Kernel.freeStacks, hstk2, Family.setStacks]
          have h3 := h2.birth k.current stk
          obtain ⟨k', hk', h4, hfam4, hc4⟩ := schedule_spec h3 (Set.mem_singleton new)
          rw [Set.sdiff_self] at h4
          rw [birth_family hne hs hfam2] at hfam4
          have hcur : k'.current = k.current := hc4.trans hc₁
          have hborn : schedule (birth { k₁ with queues := Q₂ } k.current new stk) new = .ok k' :=
            hk'
          refine ⟨k', hborn, hcur ▸ h4, .inr ⟨new, stk, ⟨g.active, ?_, ?_, ?_⟩, hfam4⟩⟩
          · exact mode_eq_free.mpr hst
          · rw [Kernel.family_freeStacks, hs]
            rfl
          · exact Nat.lt_of_not_le hlt

theorem sysFork_spec (g : Good k) (hQ : P .quiet)
    (hP : ∀ new stk, P (.fork k.current new stk)) : Performs k P (sysFork k k.current) := by
  obtain ⟨k', hk', hpl, hf | ⟨new, stk, hen, hf⟩⟩ := sysFork_cases g
  · rw [hk']
    exact .quiet hQ hpl hf
  · rw [hk']
    exact ⟨hpl, _, hP new stk, hen, hf⟩

/-! ## Exec and mmap -/

theorem searchPage_fault (mm : MemMgr) : ∀ fuel index,
    Holds (searchPage mm fuel index) (fun _ => True) Fault.Expected
  | 0, _ => trivial
  | fuel + 1, index => by
      rw [searchPage]
      split
      · trivial
      · simp only
        split
        · exact searchPage_fault mm fuel _
        · trivial

theorem getNextPage_fault (mm : MemMgr) :
    Holds (getNextPage mm) (fun _ => True) Fault.Expected :=
  searchPage_fault mm ..

theorem dEntry_fault (mm : MemMgr) (vspace v : Word) :
    Holds (dEntry mm vspace v) (fun _ => True) Fault.Expected := by
  simp only [dEntry]
  split
  · exact (getNextPage_fault mm).bind fun _ _ => trivial
  · trivial

theorem mapPlain_fault (vspace done : Word) : ∀ fuel mm p v,
    Holds (mapPlain vspace done fuel mm p v) (fun _ => True) Fault.Expected
  | 0, _, _, _ => trivial
  | fuel + 1, mm, p, v => by
      rw [mapPlain]
      split
      · exact (dEntry_fault mm vspace v).bind fun x _ => mapPlain_fault vspace done fuel ..
      · trivial

theorem mapFree_fault (vspace done : Word) : ∀ fuel mm v,
    Holds (mapFree vspace done fuel mm v) (fun _ => True) Fault.Expected
  | 0, _, _ => trivial
  | fuel + 1, mm, v => by
      rw [mapFree]
      split
      · refine (dEntry_fault mm vspace v).bind fun x _ => ?_
        exact (getNextPage_fault _).bind fun y _ => mapFree_fault vspace done fuel ..
      · trivial

theorem kMmap_fault (mm : MemMgr) (vspace v p n : Word) :
    Holds (kMmap mm vspace v p n) (fun _ => True) Fault.Expected := by
  rw [kMmap]
  split
  · trivial
  · split
    · trivial
    · split
      · exact (mapPlain_fault ..).bind fun _ _ => trivial
      · exact (mapFree_fault ..).bind fun _ _ => trivial

theorem sysMmap_spec (g : Good k) (hP : P .quiet) : Performs k P (sysMmap k p) := by
  refine (kMmap_fault ..).bind fun x _ => ?_
  have g' : Good { k with mm := x.2.2 } := g.congr rfl rfl rfl rfl
  exact (g'.setRet hP ..).of_family rfl

theorem sysExec_spec (g : Good k) (hP : P .quiet) : Performs k P (sysExec k k.current) := by
  have hspace : Holds (execSpace k.mm (k.arg k.current 3)) (fun _ => True) Fault.Expected := by
    rw [execSpace]
    split
    · trivial
    · exact (getNextPage_fault k.mm).bind fun _ _ => trivial
  refine hspace.bind fun x _ => ?_
  have hf : (k.setPcb k.current fun y => { y with
      prio := k.arg k.current 3
      context := stkSetup k.image (k.arg k.current 1) (k.arg k.current 2) }).family = k.family :=
    family_setPcb_same k _ rfl
  have g₁ : Good (k.setPcb k.current fun y => { y with
      prio := k.arg k.current 3
      context := stkSetup k.image (k.arg k.current 1) (k.arg k.current 2) }) :=
    ⟨g.placed.set _ rfl (by rw [g.running]; nofun), hf ▸ g.family⟩
  generalize (k.setPcb k.current fun y => { y with
      prio := k.arg k.current 3
      context := stkSetup k.image (k.arg k.current 1) (k.arg k.current 2) }) = k₁ at hf g₁ ⊢
  have g₂ : Good { k₁ with mm := setReturnPde x.2 x.1 } := g₁.congr rfl rfl rfl rfl
  exact Performs.quiet hP (g₂.placed.set _ rfl fun _ => rfl) ((family_setPcb_same _ _ rfl).trans hf)

/-! ## The handlers of interrupts -/

/-- A process that is on a queue, but not free, waiting or dead. -/
theorem mode_of_home {off : Set PcbId} {run : Option PcbId} {q : PQueue} (h : Placed k off run)
    (hp : p ∈ k.on q) (hf : q ≠ .free) (hw : q ≠ .waiting) (hz : q ≠ .zombie) :
    (k.family.members p).mode = .active := by
  have := ((h.mem p q).mp hp).2
  rw [Kernel.family_members, Pcb.member_mode]
  cases hs : (k.pcbs p).state <;> simp only [home, hs, Option.some.injEq] at this
  · cases this
  · exact absurd this.symm hf
  · cases this
  · rfl
  · cases this
  · rfl
  · exact absurd this.symm hw
  · rfl
  · exact absurd this.symm hz
  · exact absurd this.symm hz

theorem deque_on {q : PQueue} {l : List PcbId} {st : Status} {x : Option PcbId}
    (hq : k.on q = p :: l) (h : k.deque q = (st, x, k')) : k'.on q = l := by
  have hq' : k.queues.items (.pcbs q) = p :: l := hq
  simp only [Kernel.deque, QPool.deque, hq', Prod.mk.injEq] at h
  rw [← h.2.2]
  exact update_self ..

theorem schedule_on (h : schedule k p = .ok k') : k'.on .sleeping = k.on .sleeping := by
  simp only [schedule, Kernel.enque, QPool.enque] at h
  split at h
  · rename_i hst
    split at hst
    · cases hst
    · obtain ⟨-, rfl⟩ := Prod.mk.inj hst
      rw [← Except.ok.inj h]
      exact (on_update (k.setPcb p Pcb.makeReady) _ _ _ _).trans (if_neg fun hc => by cases hc)
  · cases h

theorem wakeLoop_spec : ∀ (fuel : Nat) (k : Kernel) (run : Option PcbId), Placed k ∅ run →
    (k.on .sleeping).length < fuel →
    ∃ k', wakeLoop fuel k = .ok k' ∧ Placed k' ∅ run ∧ k'.family = k.family
      ∧ k'.current = k.current
  | 0, _, _, _, h => absurd h (Nat.not_lt_zero _)
  | fuel + 1, k, run, h, hlen => by
      rw [wakeLoop]
      cases hq : k.on .sleeping with
      | nil =>
          have hpeek : k.queues.peek (.pcbs .sleeping) = (.emptyQueue, none) := by
            rw [QPool.peek, show k.queues.items (.pcbs .sleeping) = [] from hq]
          simp only [hpeek]
          exact ⟨k, rfl, h, rfl, rfl⟩
      | cons p l =>
          have hpeek : k.queues.peek (.pcbs .sleeping) = (.success, some p) := by
            rw [QPool.peek, show k.queues.items (.pcbs .sleeping) = p :: l from hq]
          simp only [hpeek]
          split
          · obtain ⟨Q, he, hpl, hstk⟩ := h.deque hq
            rw [LawfulSingleton.insert_empty_eq] at hpl
            obtain ⟨k₁, hk₁, h1, hfam, hc⟩ := schedule_spec hpl (Set.mem_singleton p)
            rw [Set.sdiff_self] at h1
            simp only [he, hk₁, ok_bind]
            have hfam₁ : k₁.family = k.family := by
              rw [hfam, family_queues k hstk]
              refine family_set_same ?_
              have hp : p ∈ k.on .sleeping := hq ▸ List.mem_cons_self ..
              rw [← mode_of_home h hp (by decide) (by decide) (by decide)]
              rfl
            have hlen₁ : (k₁.on .sleeping).length < fuel := by
              rw [schedule_on hk₁, deque_on hq he]
              rw [hq] at hlen
              exact Nat.lt_of_succ_lt_succ hlen
            obtain ⟨k', hk', h', hf', hc'⟩ := wakeLoop_spec fuel k₁ run h1 hlen₁
            exact ⟨k', hk', h', hf'.trans hfam₁, hc'.trans hc⟩
          · exact ⟨k, rfl, h, rfl, rfl⟩

theorem clkIsr_spec (g : Good k) (hP : P .quiet) : Performs k P (clkIsr k) := by
  have g₁ : Good { k with
      pinwheel := if k.pinwheel + 1 = 100 then 0 else k.pinwheel + 1, now := k.now + 1 } :=
    g.congr rfl rfl rfl rfl
  obtain ⟨k₂, hk₂, h2, hf2, hc2⟩ := wakeLoop_spec ((k.on .sleeping).length + 1) _ _ g₁.placed
    (Nat.lt_succ_self _)
  have hk₂' : wakeLoop (k.queues.size (.pcbs .sleeping) + 1) _ = _ := hk₂
  have hpl : Placed (k₂.setPcb k₂.current fun x => { x with qTicks := x.qTicks - 1 }) ∅
      (some k₂.current) := by
    rw [hc2]
    exact h2.set _ rfl fun _ => rfl
  have hf3 : (k₂.setPcb k₂.current fun x => { x with qTicks := x.qTicks - 1 }).family
      = k.family := (family_setPcb_same k₂ _ rfl).trans hf2
  rw [clkIsr]
  simp only [hk₂', ok_bind]
  have g₃ : Good (k₂.setPcb k₂.current fun x => { x with qTicks := x.qTicks - 1 }) :=
    ⟨hpl, hf3 ▸ g.family⟩
  split
  · obtain ⟨k', hk', h', hf', -⟩ := g₃.yield
    have hyield : schedule (k₂.setPcb k₂.current fun x => { x with qTicks := x.qTicks - 1 })
        k₂.current = .ok k' := hk'
    rw [hyield]
    exact .dispatch hP trivial h' (hf'.trans hf3)
  · exact .quiet hP hpl hf3

theorem sioEvent_spec (g : Good k) (e : SioEvent) :
    Holds (sioEvent k e) (fun k' => Good k' ∧ k'.family = k.family) Fault.Expected := by
  cases e with
  | lineStatus => exact ⟨g, rfl⟩
  | rxTimeout ch => exact ⟨g, rfl⟩
  | modemStatus => exact ⟨g, rfl⟩
  | tx => exact ⟨g.congr rfl rfl rfl rfl, rfl⟩
  | unknown => exact List.mem_cons_of_mem _ (List.mem_cons_of_mem _ (List.mem_cons_self ..))
  | rx ch =>
      simp only [sioEvent]
      split
      · rename_i hsz
        cases hq : k.on .reading with
        | nil => simp [QPool.size, show k.queues.items (.pcbs .reading) = [] from hq] at hsz
        | cons p l =>
            obtain ⟨Q, he, hpl, hstk⟩ := g.placed.deque hq
            rw [LawfulSingleton.insert_empty_eq] at hpl
            simp only [he]
            have hret := hpl.setRet p ((if ch = 13 then 10 else ch).setWidth 32)
            obtain ⟨k', hk', h', hf', hc'⟩ := schedule_spec hret (Set.mem_singleton p)
            rw [Set.sdiff_self] at h'
            rw [hk']
            have hfam : k'.family = k.family := by
              rw [hf', family_setRet, family_queues k hstk]
              refine family_set_same ?_
              have hp : p ∈ k.on .reading := hq ▸ List.mem_cons_self ..
              rw [← mode_of_home g.placed hp (by decide) (by decide) (by decide)]
              rfl
            have hcur : k'.current = k.current := hc'
            exact ⟨⟨hcur ▸ h', hfam ▸ g.family⟩, hfam⟩
      · exact ⟨g.congr rfl rfl rfl rfl, rfl⟩

theorem sioIsr_spec : ∀ (pending : List SioEvent) {k : Kernel}, Good k →
    Holds (sioIsr pending k) (fun k' => Good k' ∧ k'.family = k.family) Fault.Expected
  | [], _, g => ⟨g, rfl⟩
  | e :: pending, k, g => by
      rw [sioIsr, List.foldlM_cons]
      refine (sioEvent_spec g e).bind fun k₁ h₁ => ?_
      exact (sioIsr_spec pending h₁.1).mono fun k' h' => ⟨h'.1, h'.2.trans h₁.2⟩

/-! ## The kernel -/

theorem sysIsr_spec {frame : Frame} {keys : List Byte} (g : Good k)
    (hctx : (k.pcbs k.current).context = frame) :
    Performs k (Explains k.family k.current (.interrupt frame (.syscall keys)))
      (sysIsr keys k) := by
  have harg : ∀ n, k.arg k.current n = frame.args n := fun n => by rw [Kernel.arg, hctx]
  simp only [sysIsr, hctx]
  split
  · rename_i hcode
    -- the handler of exit finds the status in the patched argument
    have hf : (k.setArg k.current 1 exitBadCode).family = k.family := family_setPcb_same k _ rfl
    have g' := g.setArg k.current 1 exitBadCode
    have harg' : (k.setArg k.current 1 exitBadCode).arg k.current 1 = exitBadCode := by
      rw [Kernel.arg, Kernel.setArg, setPcb_self]
      simp only [update_self]
    refine (sysExit_spec g' ?_).of_family hf
    have hc : (k.setArg k.current 1 exitBadCode).current = k.current := rfl
    rw [hc, harg']
    exact .badCode hcode
  · rename_i hcode
    have hlt : frame.regs.eax.toNat < 13 := Nat.lt_of_not_le hcode
    have heax : frame.regs.eax = BitVec.ofNat 32 frame.regs.eax.toNat := by
      rw [BitVec.ofNat_toNat, BitVec.setWidth_eq]
    generalize frame.regs.eax.toNat = n at hlt heax
    interval_cases n
    · exact sysExit_spec g (harg 1 ▸ .exit heax)
    · exact sysRead_spec g .quiet keys
    · exact sysWrite_spec g .quiet
    · exact sysFork_spec g .quiet fun _ _ => .fork heax
    · exact sysExec_spec g .quiet
    · exact sysKill_spec g (fun v hv => .kill heax (harg 1 ▸ hv)) .quiet
    · exact sysWait_spec g .quiet (.block heax) fun _ => .reap heax
    · exact sysSleep_spec g .quiet
    · exact sysGetpid_spec g .quiet
    · exact sysGetppid_spec g .quiet
    · exact sysGettime_spec g .quiet
    · exact sysMmap_spec g .quiet
    · exact trivial

/-- Saving a context changes no other field of a PCB. -/
theorem isrSave_eq (k : Kernel) (frame : Frame) : ∃ mm, isrSave k frame
    = { k with mm := mm }.setPcb k.current fun x => { x with context := frame } :=
  ⟨_, rfl⟩

@[simp] theorem isrSave_current (k : Kernel) (frame : Frame) :
    (isrSave k frame).current = k.current := rfl

theorem isrSave_family (k : Kernel) (frame : Frame) : (isrSave k frame).family = k.family := by
  obtain ⟨mm, hk⟩ := isrSave_eq k frame
  rw [hk]
  exact family_setPcb_same _ _ rfl

theorem Good.isrSave (g : Good k) (frame : Frame) : Good (isrSave k frame) := by
  refine ⟨?_, isrSave_family k frame ▸ g.family⟩
  obtain ⟨mm, hk⟩ := isrSave_eq k frame
  rw [hk]
  have h : Placed { k with mm := mm } ∅ (some k.current) := g.placed.congr rfl rfl
  exact h.set _ rfl fun _ => rfl

theorem isrSave_context (k : Kernel) (frame : Frame) :
    ((isrSave k frame).pcbs k.current).context = frame := by
  obtain ⟨mm, hk⟩ := isrSave_eq k frame
  rw [hk, setPcb_self]

theorem isrSave_arg (k : Kernel) (frame : Frame) (n : Nat) :
    (isrSave k frame).arg k.current n = frame.args n := by
  rw [Kernel.arg, isrSave_context]

theorem isrSave_other (k : Kernel) (frame : Frame) {p : PcbId} (h : p ≠ k.current) :
    (isrSave k frame).pcbs p = k.pcbs p := by
  obtain ⟨mm, hk⟩ := isrSave_eq k frame
  rw [hk, setPcb_other _ _ h]

theorem isrSave_state (k : Kernel) (frame : Frame) (x : PcbId) :
    ((isrSave k frame).pcbs x).state = (k.pcbs x).state := by
  obtain ⟨mm, hk⟩ := isrSave_eq k frame
  rw [hk]
  exact setPcb_state _ _ rfl x

theorem syscalls_lt {keys : List Byte} {n : Nat} {handler : Kernel → PcbId → Except Fault Kernel}
    (h : syscalls keys n = some handler) : n < 13 := by
  obtain ⟨x, hx, -⟩ := Option.map_eq_some_iff.mp h
  have hmem := List.mem_reverse.mp (List.mem_of_find?_eq_some hx)
  have hn : x.1 = n := by simpa using List.find?_some hx
  have hall : ∀ x ∈ sysInit keys, x.1 < 13 := by simp [sysInit]
  exact hn ▸ hall x hmem

theorem sysIsr_code {frame : Frame} {keys : List Byte} {n : Nat}
    {handler : Kernel → PcbId → Except Fault Kernel} (heax : frame.regs.eax = BitVec.ofNat 32 n)
    (hs : syscalls keys n = some handler) :
    sysIsr keys (isrSave k frame) = handler (isrSave k frame) k.current := by
  have hn := syscalls_lt hs
  have hcode : frame.regs.eax.toNat = n := by
    rw [heax, BitVec.toNat_ofNat]
    omega
  have hlt : ¬nSyscalls ≤ frame.regs.eax := by
    rw [BitVec.le_def, hcode]
    exact Nat.not_le_of_lt hn
  simp only [sysIsr, isrSave_current, isrSave_context, hlt, ↓reduceIte, hcode, hs]

theorem sysIsr_badCode {frame : Frame} (keys : List Byte) (heax : nSyscalls ≤ frame.regs.eax) :
    sysIsr keys (isrSave k frame)
      = sysExit ((isrSave k frame).setArg k.current 1 exitBadCode) k.current := by
  rw [sysIsr]
  simp only [isrSave_current, isrSave_context, if_pos heax]

theorem step_syscall (k : Kernel) {frame : Frame} {keys : List Byte} {n : Nat}
    {handler : Kernel → PcbId → Except Fault Kernel} (heax : frame.regs.eax = BitVec.ofNat 32 n)
    (hs : syscalls keys n = some handler) :
    step k (.interrupt frame (.syscall keys)) = (do
      let k' ← handler (isrSave k frame) k.current
      .ok (isrRestore k')) := by
  rw [step, handle, sysIsr_code heax hs]

theorem handle_spec (g : Good k) (frame : Frame) (cause : Cause) :
    Performs k (Explains k.family k.current (.interrupt frame cause))
      (handle (isrSave k frame) cause) := by
  have g' := g.isrSave frame
  have hf := isrSave_family k frame
  have hc : (isrSave k frame).current = k.current := rfl
  refine Performs.of_family ?_ hf
  rw [← hf, ← hc]
  cases cause with
  | syscall keys => exact sysIsr_spec g' (isrSave_context k frame)
  | clock => exact clkIsr_spec g' .quiet
  | serial pending =>
      exact (sioIsr_spec pending g').mono fun k' h => ⟨h.1.placed, .quiet, .quiet, trivial, h.2⟩
  | keyboard code => exact .quiet .quiet (g'.placed.congr rfl rfl) rfl
  | pageFault => exact pageFaultIsr_spec g' .pageFault

/-- An event leaves every PCB in its place and performs one act of the
family, or fails in an expected way. -/
theorem step_sim (g : Good k) (e : Event) :
    Holds (step k e) (fun k' => Good k' ∧ ∃ a, Explains k.family k.current e a
      ∧ a.Enabled k.family ∧ k'.family = a.apply k.family) Fault.Expected := by
  cases e with
  | store a b => exact ⟨g.congr rfl rfl rfl rfl, .quiet, .quiet, trivial, rfl⟩
  | interrupt frame cause =>
      refine Holds.bind (handle_spec g frame cause) fun k' ⟨hpl, a, ha, hen, hf⟩ => ?_
      exact ⟨⟨hpl.congr rfl rfl, hf ▸ g.family.act hen⟩, a, ha, hen, hf⟩

end SpKernel
