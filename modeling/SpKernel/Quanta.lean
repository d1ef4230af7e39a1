import SpKernel.Contexts
import SpKernel.Forking
import SpKernel.Lib.Potential
import SpKernel.Lifecycle

/-!
# Quanta, and how long a ready process waits

A process runs for five ticks at most: `_dispatch` gives it its default
quantum, each tick takes one away, and with none left `_clk_isr` puts it
back. Whoever is ready therefore moves towards the front of its queue
within five ticks, as long as no better queue has somebody in it: with
`n` processes ahead it runs, or is ended, before the clock has ticked
`5 * (n + 1)` times (`served_in_time`). On the best queue nothing can
come between.

`Pcb.Alike` is what no handler changes of a PCB, but for the few that
have to do with quanta and priorities. `Charges` says of an event which
PCBs are charged a tick, and `Quantum` is the invariant that follows:
every process has the standard quantum, and the running one has at least
one tick of it left.

The bound is an instance of `Steps.countP_le` of the library. The
potential (`delay`) is five for every process ahead and what the running
process has left; a tick uses up one of it, a process that is put on the
queue goes behind the one that waits, and the kernel's other events add
nothing (`delay_step`). The induction is over the run and not over the
queue, so that it does not matter who comes and goes meanwhile.
-/

namespace SpKernel

open Function (update update_self update_of_ne)
open Lib

variable {k k' : Kernel} {p x : PcbId} {q : PQueue} {e : Event} {frame : Frame}

/-- Quantum and priority are the same; a priority out of range may have been
put right. -/
structure Pcb.Alike (x y : Pcb) : Prop where
  qDefault : y.qDefault = x.qDefault
  qTicks : y.qTicks = x.qTicks
  prio : x.prio ≤ 3 → y.prio = x.prio

theorem Pcb.Alike.refl (x : Pcb) : x.Alike x := ⟨rfl, rfl, fun _ => rfl⟩

theorem Pcb.Alike.trans {x y z : Pcb} (h : x.Alike y) (h' : y.Alike z) : x.Alike z :=
  ⟨h'.qDefault.trans h.qDefault, h'.qTicks.trans h.qTicks,
    fun hx => (h'.prio ((h.prio hx).symm ▸ hx)).trans (h.prio hx)⟩

/-- Of all PCBs. -/
def Evenly (k k' : Kernel) : Prop := ∀ x, (k.pcbs x).Alike (k'.pcbs x)

namespace Evenly

theorem refl (k : Kernel) : Evenly k k := fun x => .refl (k.pcbs x)

theorem trans {k₁ : Kernel} (h : Evenly k k₁) (h' : Evenly k₁ k') : Evenly k k' :=
  fun x => (h x).trans (h' x)

theorem of_pcbs (h : k'.pcbs = k.pcbs) : Evenly k k' := fun x => h ▸ .refl (k.pcbs x)

theorem setPcb (k : Kernel) (p : PcbId) {f : Pcb → Pcb} (hf : ∀ y : Pcb, y.Alike (f y)) :
    Evenly k (k.setPcb p f) := by
  intro x
  by_cases hx : x = p
  · rw [hx, setPcb_self]
    exact hf _
  · rw [setPcb_other _ _ hx]
    exact .refl _

theorem setRet (k : Kernel) (p : PcbId) (v : Word) : Evenly k (k.setRet p v) :=
  setPcb k p fun _ => ⟨rfl, rfl, fun _ => rfl⟩

theorem enque {st : Status} (h : k.enque q p = (st, k')) : Evenly k k' :=
  of_pcbs (enque_pcbs h)

theorem deque {st : Status} (h : k.deque q = (st, some p, k')) : Evenly k k' := by
  obtain ⟨n, l, -, rfl⟩ := deque_eq h
  exact refl _

theorem remove (h : k.remove q p = (.success, k')) : Evenly k k' := by
  obtain ⟨-, n, rfl⟩ := remove_eq h
  exact refl _

theorem schedule (h : SpKernel.schedule k p = .ok k') : Evenly k k' := by
  intro x
  rw [schedule_pcbs h]
  split
  · rename_i hx
    subst hx
    refine ⟨rfl, rfl, fun hp => if_neg ?_⟩
    exact BitVec.not_lt.mpr hp
  · exact .refl _

theorem stkDealloc (k : Kernel) (stack : Option StackId) :
    Evenly k (SpKernel.stkDealloc k stack) := by
  cases stack with
  | none => exact refl k
  | some s => exact refl k

theorem pcbCleanup (k : Kernel) (p : PcbId) : Evenly k (SpKernel.pcbCleanup k p) := by
  have hfree := setPcb (SpKernel.stkDealloc k (k.pcbs p).stack) p (f := Pcb.makeFree)
    fun _ => ⟨rfl, rfl, fun _ => rfl⟩
  have henq : Evenly ((SpKernel.stkDealloc k (k.pcbs p).stack).setPcb p Pcb.makeFree)
      (SpKernel.pcbCleanup k p) := enque (q := .free) rfl
  exact ((stkDealloc k _).trans hfree).trans henq

theorem pcbFindChildOf {ppid : Word} {y : Option PcbId}
    (h : SpKernel.pcbFindChildOf k ppid = .ok (y, k')) : Evenly k k' := by
  obtain ⟨curr, tgt, rfl⟩ := pcbFindChildOf_same h
  exact refl _

theorem adopt (k : Kernel) (whom : PcbId) : Evenly k (SpKernel.adopt k whom) :=
  (setPcb k whom (f := fun x => { x with ppid := pidInit }) fun _ => ⟨rfl, rfl, fun _ => rfl⟩).trans
    (setPcb _ k.initPcb (f := fun x => { x with children := x.children + 1 })
      fun _ => ⟨rfl, rfl, fun _ => rfl⟩)

theorem reparentLoop : ∀ (fuel : Nat) {k : Kernel} {y : Option PcbId},
    SpKernel.reparentLoop fuel k y = .ok k' → Evenly k k' := by
  intro fuel
  induction fuel with
  | zero =>
      intro k y h
      cases y with
      | none => exact Except.ok.inj h ▸ refl k
      | some whom => cases h
  | succ fuel ih =>
      intro k y h
      cases y with
      | none => exact Except.ok.inj h ▸ refl k
      | some whom =>
          obtain ⟨⟨next, k₁⟩, hk₁, h⟩ := bind_eq_ok.mp h
          exact ((adopt k whom).trans (pcbFindChildOf hk₁)).trans (ih h)

theorem reparent (h : SpKernel.reparent k p = .ok k') : Evenly k k' := by
  rw [SpKernel.reparent] at h
  split at h
  · obtain ⟨⟨whom, k₁⟩, hk₁, h⟩ := bind_eq_ok.mp h
    obtain ⟨k₂, hk₂, h⟩ := bind_eq_ok.mp h
    rw [← Except.ok.inj h]
    exact ((pcbFindChildOf hk₁).trans (reparentLoop _ hk₂)).trans
      (setPcb _ p fun _ => ⟨rfl, rfl, fun _ => rfl⟩)
  · exact Except.ok.inj h ▸ refl k

theorem lay (h : SpKernel.lay k p = .ok k') : Evenly k k' := by
  obtain ⟨parent, ⟨-, k₁, he, hs⟩ | ⟨-, he⟩⟩ := lay_cases h
  · have hdel : Evenly k₁ (deliver k₁ parent p) :=
      (setRet k₁ parent Status.success.word).trans (of_pcbs rfl)
    exact (((remove he).trans hdel).trans (pcbCleanup _ p)).trans (schedule hs)
  · exact enque he

theorem zombify (h : SpKernel.zombify k p = .ok k') : Evenly k k' := by
  obtain ⟨k₁, hk₁, h⟩ := bind_eq_ok.mp h
  exact (reparent hk₁).trans (lay h)

theorem zombieLoop : ∀ (fuel : Nat) {k : Kernel} {c z : Option PcbId},
    SpKernel.zombieLoop fuel k c = .ok (z, k') → Evenly k k' := by
  intro fuel
  induction fuel with
  | zero =>
      intro k c z h
      cases c with
      | none => exact (Prod.mk.inj (Except.ok.inj h)).2 ▸ refl k
      | some c => cases h
  | succ fuel ih =>
      intro k c z h
      cases c with
      | none => exact (Prod.mk.inj (Except.ok.inj h)).2 ▸ refl k
      | some c =>
          rw [SpKernel.zombieLoop] at h
          split at h
          · exact (Prod.mk.inj (Except.ok.inj h)).2 ▸ refl k
          · obtain ⟨⟨next, k₁⟩, hk₁, h⟩ := bind_eq_ok.mp h
            exact (pcbFindChildOf hk₁).trans (ih h)

theorem wakeLoop : ∀ (fuel : Nat) {k : Kernel}, SpKernel.wakeLoop fuel k = .ok k' → Evenly k k'
  | 0, _, h => by cases h
  | fuel + 1, k, h => by
      rcases wakeLoop_round h with rfl | ⟨p, k₁, k₂, hd, hs, h⟩
      · exact refl k'
      · exact ((deque hd).trans (schedule hs)).trans (wakeLoop fuel h)

theorem sioEvent {ev : SioEvent} (h : SpKernel.sioEvent k ev = .ok k') : Evenly k k' := by
  cases ev with
  | lineStatus | rxTimeout ch | modemStatus | tx => exact Except.ok.inj h ▸ refl k
  | unknown => cases h
  | rx ch =>
      rcases sioEvent_rx h with ⟨-, rfl⟩ | ⟨p, l, k₁, -, hd, hs⟩
      · exact refl k
      · exact ((deque hd).trans (setRet k₁ p _)).trans (schedule hs)

theorem sioIsr : ∀ (pending : List SioEvent) {k : Kernel},
    SpKernel.sioIsr pending k = .ok k' → Evenly k k'
  | [], k, h => Except.ok.inj h ▸ refl k
  | ev :: pending, k, h => by
      rw [SpKernel.sioIsr, List.foldlM_cons] at h
      obtain ⟨k₁, hk₁, h⟩ := bind_eq_ok.mp h
      exact (sioEvent hk₁).trans (sioIsr pending h)

end Evenly

/-! ## Handlers -/

/-- What a handler does to quanta and priorities before it ends or calls
`_dispatch`. -/
structure Charges (k : Kernel) (e : Event) (r : Kernel × Bool) : Prop where
  others : ∀ x, (k.pcbs x).state ≠ .free → x ≠ k.current → (k.pcbs x).Alike (r.1.pcbs x)
  born : ∀ x, (k.pcbs x).state = .free → (r.1.pcbs x).state ≠ .free →
    (r.1.pcbs x).qDefault = quantStd
  qDefault : (r.1.pcbs k.current).qDefault = (k.pcbs k.current).qDefault
  ticked : e.Tick → (r.1.pcbs k.current).qTicks = (k.pcbs k.current).qTicks - 1
    ∧ (r.2 = false → ¬(r.1.pcbs k.current).qTicks < 1)
  qTicks : ¬e.Tick → (r.1.pcbs k.current).qTicks = (k.pcbs k.current).qTicks

/-- The handlers that neither tick nor create a process, nor set a priority. -/
theorem Charges.of_evenly {r : Kernel × Bool} (h : Evenly k r.1) (ht : ¬e.Tick)
    (hfree : ∀ x, (k.pcbs x).state = .free → (r.1.pcbs x).state = .free) : Charges k e r :=
  ⟨fun x _ _ => h x, fun x hx hx' => absurd (hfree x hx) hx', (h _).qDefault,
    fun hc => absurd hc ht, fun _ => (h _).qTicks⟩

section Handlers

variable {r : Kernel × Bool} {keys : List Byte}

theorem readDone_evenly {n : Nat} (h : UpTo.readDone k p n = .ok r) : Evenly k r.1 := by
  rw [UpTo.readDone] at h
  split at h
  · exact Except.ok.inj h ▸ .setRet k p _
  · split at h
    · rename_i k₁ he
      obtain rfl := Except.ok.inj h
      exact (Evenly.enque he).trans (.setPcb k₁ _ (f := fun x => { x with state := .blocked })
        fun _ => ⟨rfl, rfl, fun _ => rfl⟩)
    · rename_i k₁ _ he
      obtain rfl := Except.ok.inj h
      exact (Evenly.enque he).trans (.setRet k₁ p _)

theorem sysRead_evenly (h : UpTo.sysRead keys k p = .ok r) : Evenly k r.1 := by
  simp only [UpTo.sysRead] at h
  split at h
  · split at h
    · exact Except.ok.inj h ▸ .setRet k p _
    · obtain ⟨⟨n, c, m⟩, -, h⟩ := bind_eq_ok.mp h
      exact readDone_evenly (k := { k with console := c, mm := { k.mm with mem := m } }) h
  · split at h
    · exact readDone_evenly (k := { k with
        sio := (sioReads k.sio k.mm.mem (k.arg p 2) (k.arg p 3).toInt).2.1
        mm := { k.mm with
          mem := (sioReads k.sio k.mm.mem (k.arg p 2) (k.arg p 3).toInt).2.2 } }) h
    · exact Except.ok.inj h ▸ .setRet k p _

theorem sysSleep_evenly (h : UpTo.sysSleep k p = .ok r) : Evenly k r.1 := by
  simp only [UpTo.sysSleep] at h
  split at h
  · exact .schedule (UpTo.calls_ok h)
  · split at h
    · rename_i k₁ he
      obtain rfl := Except.ok.inj h
      refine (Evenly.setPcb k p ?_).trans (.enque he)
      exact fun _ => ⟨rfl, rfl, fun _ => rfl⟩
    · cases h

theorem finishKill_evenly {v : PcbId} (h : UpTo.finishKill k p v = .ok r) : Evenly k r.1 := by
  obtain ⟨k₁, hk₁, h⟩ := bind_eq_ok.mp h
  obtain rfl := Except.ok.inj h
  have hset := Evenly.setPcb k v (f := fun x =>
    { x with state := .killed, exitstatus := exitKilled }) fun _ => ⟨rfl, rfl, fun _ => rfl⟩
  exact (hset.trans (.setRet _ p _)).trans (.zombify hk₁)

theorem killFrom_evenly {v : PcbId} (h : UpTo.killFrom k p v q = .ok r) : Evenly k r.1 := by
  rw [UpTo.killFrom] at h
  split at h
  · rename_i k₁ he
    exact (Evenly.remove he).trans (finishKill_evenly h)
  · cases h

theorem sysKill_evenly (h : UpTo.sysKill k p = .ok r) : Evenly k r.1 := by
  rw [UpTo.sysKill] at h
  split at h
  · exact Except.ok.inj h ▸ .setRet k p _
  · split at h
    · exact killFrom_evenly h
    · exact killFrom_evenly h
    · exact killFrom_evenly h
    · exact killFrom_evenly h
    · exact finishKill_evenly h
    · exact Except.ok.inj h ▸ .setRet k p _
    · exact Except.ok.inj h ▸ .setRet k p _
    · cases h
    · cases h
    · cases h

theorem sysWait_evenly (h : UpTo.sysWait k p = .ok r) : Evenly k r.1 := by
  rw [UpTo.sysWait] at h
  split at h
  · exact Except.ok.inj h ▸ .setRet k p _
  · obtain ⟨⟨c, k₁⟩, hk₁, h⟩ := bind_eq_ok.mp h
    obtain ⟨⟨z, k₂⟩, hk₂, h⟩ := bind_eq_ok.mp h
    have h₂ : Evenly k k₂ := (Evenly.pcbFindChildOf hk₁).trans (.zombieLoop _ hk₂)
    cases z with
    | some child =>
        dsimp only at h
        split at h
        · rename_i k₃ he
          obtain rfl := Except.ok.inj h
          have hset := Evenly.setPcb k₃ p (f := fun x =>
            { x with children := x.children - 1 }) fun _ => ⟨rfl, rfl, fun _ => rfl⟩
          have hdel : Evenly (k₃.setPcb p fun x => { x with children := x.children - 1 })
              (deliver (k₃.setPcb p fun x => { x with children := x.children - 1 }) p child) :=
            (Evenly.setRet _ p Status.success.word).trans (.of_pcbs rfl)
          exact (((h₂.trans (.remove he)).trans hset).trans hdel).trans (.pcbCleanup _ child)
        · cases h
    | none =>
        dsimp only at h
        split at h
        · rename_i k₃ he
          obtain rfl := Except.ok.inj h
          refine (h₂.trans (Evenly.setPcb k₂ p ?_)).trans (.enque he)
          exact fun _ => ⟨rfl, rfl, fun _ => rfl⟩
        · cases h

theorem sysWrite_evenly (h : sysWrite k p = .ok k') : Evenly k k' := by
  simp only [sysWrite] at h
  split at h
  · exact Except.ok.inj h ▸ .setRet k p _
  · split at h
    · rw [← Except.ok.inj h]
      exact (Evenly.of_pcbs rfl).trans (.setRet _ p _)
    · exact Except.ok.inj h ▸ .setRet k p _

theorem sysMmap_evenly (h : sysMmap k p = .ok k') : Evenly k k' := by
  obtain ⟨⟨x, st, mm⟩, -, h⟩ := bind_eq_ok.mp h
  exact Except.ok.inj h ▸ .setRet { k with mm := mm } p _

theorem sysExec_alike (h : sysExec k p = .ok k') : (∀ x ≠ p, (k.pcbs x).Alike (k'.pcbs x))
    ∧ (k'.pcbs p).qDefault = (k.pcbs p).qDefault ∧ (k'.pcbs p).qTicks = (k.pcbs p).qTicks := by
  obtain ⟨⟨memory, mm⟩, -, h⟩ := bind_eq_ok.mp h
  rw [← Except.ok.inj h]
  refine ⟨fun x hx => ?_, ?_, ?_⟩
  · simp only [Kernel.setPcb, update_of_ne hx]
    exact .refl _
  · simp only [Kernel.setPcb, update_self]
  · simp only [Kernel.setPcb, update_self]

theorem pcbAlloc_evenly {y : Option PcbId} (h : pcbAlloc k = .ok (y, k')) : Evenly k k' := by
  rcases pcbAlloc_cases h with ⟨-, rfl⟩ | ⟨p, k₁, -, hd, rfl⟩
  · exact .refl k'
  · exact (Evenly.deque hd).trans (.setPcb k₁ p fun _ => ⟨rfl, rfl, fun _ => rfl⟩)

theorem stkAlloc_evenly {y : Option StackId} (h : stkAlloc k = .ok (y, k')) : Evenly k k' := by
  rcases stkAlloc_cases h with ⟨-, rfl⟩ | ⟨s, l, -, -, rfl⟩
  · exact .refl k'
  · exact .refl k

/-- `_sys_fork` gives the new process, and no other, the standard quantum. -/
theorem sysFork_alike (g : Good k) (hp : (k.pcbs p).state = .running) (h : sysFork k p = .ok k') :
    (Evenly k k' ∧ ∀ x, (k.pcbs x).state = .free → (k'.pcbs x).state = .free)
      ∨ ∃ new, (k.pcbs new).state = .free ∧ (k'.pcbs new).qDefault = quantStd
        ∧ ∀ x ≠ new, (k.pcbs x).Alike (k'.pcbs x) ∧ (k'.pcbs x).state = (k.pcbs x).state := by
  have hret : ∀ v, Evenly k (k.setRet p v)
      ∧ ∀ x, (k.pcbs x).state = .free → ((k.setRet p v).pcbs x).state = .free :=
    fun v => ⟨.setRet k p v, fun x hx => (setRet_state k p v x).trans hx⟩
  rw [sysFork] at h
  split at h
  · exact .inl (Except.ok.inj h ▸ hret _)
  obtain ⟨⟨y, k₁⟩, hk₁, h⟩ := bind_eq_ok.mp h
  rcases pcbAlloc_cases hk₁ with ⟨hy, hk₀⟩ | ⟨new, k₀, rfl, hd, hk₀⟩
  · rw [hy, hk₀] at h
    exact .inl (Except.ok.inj h ▸ hret _)
  have hfree := g.mem_free.mp (pcbAlloc_free hk₁)
  have hne : new ≠ p := fun hc => by
    rw [hc, hp] at hfree
    cases hfree
  have h₁ := pcbAlloc_evenly hk₁
  obtain ⟨n, l, -, rfl⟩ := deque_eq hd
  obtain ⟨⟨stk, k₂⟩, hk₂, h⟩ := bind_eq_ok.mp h
  have h₂ := h₁.trans (stkAlloc_evenly hk₂)
  have hpcbs : ∀ x ≠ new, k₂.pcbs x = k.pcbs x := by
    intro x hx
    have hx₁ : k₁.pcbs x = k.pcbs x := hk₀ ▸ setPcb_other _ _ hx
    rcases stkAlloc_cases hk₂ with ⟨-, rfl⟩ | ⟨s, l, -, -, rfl⟩
    · exact hx₁
    · exact hx₁
  cases stk with
  | none =>
      refine .inl ⟨?_, fun x hx => ?_⟩
      · rw [← Except.ok.inj h]
        have hset := Evenly.setPcb (k₂.setRet p Status.noStacks.word) new (f := Pcb.makeFree)
          fun _ => ⟨rfl, rfl, fun _ => rfl⟩
        exact ((h₂.trans (.setRet k₂ p _)).trans hset).trans (.enque (q := .free) rfl)
      · have hpcb : k'.pcbs = ((k₂.setRet p Status.noStacks.word).setPcb new Pcb.makeFree).pcbs :=
          (congrArg Kernel.pcbs (Except.ok.inj h)).symm.trans (enque_pcbs (q := .free) rfl)
        rw [hpcb]
        by_cases hn : x = new
        · rw [hn, setPcb_self]
          rfl
        · rw [setPcb_other _ _ hn, setRet_state, hpcbs x hn, hx]
  | some stk =>
      have hborn : schedule (birth k₂ p new stk) new = .ok k' := h
      have hsched := Evenly.schedule hborn
      refine .inr ⟨new, hfree, ?_, fun x hx => ⟨?_, ?_⟩⟩
      · rw [(hsched new).qDefault, birth_pcbs hne, if_neg hne, if_pos rfl]
        rfl
      · refine (h₂ x).trans (.trans ?_ (hsched x))
        rw [birth_pcbs hne, if_neg hx]
        split
        · rename_i hxp
          rw [hxp]
          exact ⟨rfl, rfl, fun _ => rfl⟩
        · exact .refl _
      · rw [schedule_pcbs hborn, if_neg hx, birth_state _ _ _ hx, hpcbs x hx]

/-! ### All handlers -/

theorem Until.stays_free (g : Good k) (h : Until k e r) (he : ¬e.Calls 3)
    (hx : (k.pcbs x).state = .free) : (r.1.pcbs x).state = .free := by
  have hm := h.moves g x
  rw [hx] at hm
  generalize hs : (r.1.pcbs x).state = s at hm
  cases hm with
  | stays => rfl
  | born hc => exact absurd hc he
  | died ha hen _ => exact absurd hx (mode_live.mp hen.1).1

theorem Good.sysIsr_charges (g : Good k) {frame : Frame}
    (hctx : (k.pcbs k.current).context = frame)
    (hfree : frame.regs.eax ≠ 3 → ∀ x, (k.pcbs x).state = .free → (r.1.pcbs x).state = .free)
    (h : UpTo.sysIsr keys k = .ok r) :
    Charges k (.interrupt frame (.syscall keys)) r := by
  have heven : ∀ {code : Word}, frame.regs.eax = code → code ≠ 3 → Evenly k r.1 →
      Charges k (.interrupt frame (.syscall keys)) r := fun hcode hne hev =>
    .of_evenly hev id (hfree fun hc => hne (hcode.symm.trans hc))
  have hdie : ∀ {k₁ : Kernel}, Evenly k k₁ → UpTo.sysExit k₁ k.current = .ok r → Evenly k r.1 := by
    intro k₁ h₁ hr
    have hset := Evenly.setPcb k₁ k.current (f := fun x =>
        { x with exitstatus := k₁.arg k.current 1, state := .zombie })
      fun _ => ⟨rfl, rfl, fun _ => rfl⟩
    exact (h₁.trans hset).trans (.zombify (UpTo.calls_ok hr))
  simp only [UpTo.sysIsr, hctx] at h
  split at h
  · rename_i hcode
    refine heven rfl (fun hc => ?_) (hdie ?_ h)
    · rw [hc] at hcode
      exact absurd hcode (by decide)
    · exact .setPcb k k.current fun _ => ⟨rfl, rfl, fun _ => rfl⟩
  · rename_i hcode
    have hlt : frame.regs.eax.toNat < 13 := Nat.lt_of_not_le hcode
    have heax : frame.regs.eax = BitVec.ofNat 32 frame.regs.eax.toNat := by
      rw [BitVec.ofNat_toNat, BitVec.setWidth_eq]
    generalize frame.regs.eax.toNat = n at h hlt heax
    interval_cases n
    · exact heven heax (fun hc => by cases hc) (hdie (.refl k) h)
    · exact heven heax (fun hc => by cases hc) (sysRead_evenly h)
    · exact heven heax (fun hc => by cases hc) (sysWrite_evenly (UpTo.plain_ok h))
    · have hk' : sysFork k k.current = .ok r.1 := UpTo.plain_ok h
      rcases sysFork_alike g g.running hk' with ⟨hev, hnone⟩ | ⟨new, hnew, hq, hothers⟩
      · exact .of_evenly hev id hnone
      · have hcur : k.current ≠ new := ne_of_apply_ne (fun x => (k.pcbs x).state) (by
          rw [g.running, hnew]
          exact fun hc => by cases hc)
        refine ⟨fun x hx _ => (hothers x ?_).1, fun x hx hx' => ?_, (hothers _ hcur).1.qDefault,
          fun hc => hc.elim, fun _ => (hothers _ hcur).1.qTicks⟩
        · rintro rfl
          exact hx hnew
        · by_cases hn : x = new
          · rw [hn]
            exact hq
          · rw [(hothers x hn).2] at hx'
            exact absurd hx hx'
    · have hk' : sysExec k k.current = .ok r.1 := UpTo.plain_ok h
      obtain ⟨hothers, hq, ht⟩ := sysExec_alike hk'
      refine ⟨fun x _ hx => hothers x hx, fun x hx hx' => ?_, hq, fun hc => hc.elim, fun _ => ht⟩
      refine absurd (hfree (fun hc => ?_) x hx) hx'
      exact absurd (heax.symm.trans hc) (by decide)
    · exact heven heax (fun hc => by cases hc) (sysKill_evenly h)
    · exact heven heax (fun hc => by cases hc) (sysWait_evenly h)
    · exact heven heax (fun hc => by cases hc) (sysSleep_evenly h)
    · exact heven heax (fun hc => by cases hc) (Except.ok.inj h ▸ .setRet k _ _)
    · exact heven heax (fun hc => by cases hc) (Except.ok.inj h ▸ .setRet k _ _)
    · exact heven heax (fun hc => by cases hc) (Except.ok.inj h ▸ .setRet k _ _)
    · exact heven heax (fun hc => by cases hc) (sysMmap_evenly (UpTo.plain_ok h))
    · cases h

/-- A tick is charged to the running process, which goes when it has used
up its quantum. -/
theorem Good.clkIsr_charges (g : Good k) (he : e.Tick)
    (hfree : ∀ x, (k.pcbs x).state = .free → (r.1.pcbs x).state = .free)
    (h : UpTo.clkIsr k = .ok r) : Charges k e r := by
  obtain ⟨k₂, hk₂, h⟩ := bind_eq_ok.mp h
  have haw := wakeLoop_awake _ hk₂ (g.placed.nodup .sleeping)
  have hnow : Evenly k { k with
      pinwheel := if k.pinwheel + 1 = 100 then 0 else k.pinwheel + 1, now := k.now + 1 } :=
    .of_pcbs rfl
  have h₂ : Evenly k k₂ := hnow.trans (.wakeLoop _ hk₂)
  have hcur : k₂.current = k.current := haw.current
  dsimp only at h
  generalize hk₃ : (k₂.setPcb k₂.current fun x => { x with qTicks := x.qTicks - 1 }) = k₃ at h
  have hself : k₃.pcbs k.current
      = { k₂.pcbs k.current with qTicks := (k₂.pcbs k.current).qTicks - 1 } := by
    rw [← hk₃, hcur, setPcb_self]
  have hother : ∀ x ≠ k.current, k₃.pcbs x = k₂.pcbs x := by
    intro x hx
    rw [← hk₃, hcur, setPcb_other _ _ hx]
  have hafter : Evenly k₃ r.1 ∧ (r.2 = false → ¬(k₃.pcbs k.current).qTicks < 1) := by
    rw [← hcur]
    split at h
    · refine ⟨.schedule (UpTo.calls_ok h), fun hd => ?_⟩
      cases hs : schedule k₃ k₂.current with
      | error f =>
          rw [hs] at h
          cases h
      | ok k' =>
          rw [hs] at h
          obtain rfl := Except.ok.inj h
          cases hd
    · rename_i hlt
      obtain rfl := Except.ok.inj h
      exact ⟨.refl _, fun _ => hlt⟩
  obtain ⟨hev, hno⟩ := hafter
  refine ⟨fun x _ hx => ?_, fun x hx hx' => absurd (hfree x hx) hx', ?_,
    fun _ => ⟨?_, fun hd => ?_⟩, fun hc => absurd he hc⟩
  · exact (h₂ x).trans (hother x hx ▸ hev x)
  · rw [(hev _).qDefault, hself]
    exact (h₂ _).qDefault
  · rw [(hev _).qTicks, hself, ← (h₂ k.current).qTicks]
  · rw [(hev _).qTicks]
    exact hno hd

theorem Good.charges (g : Good k) {cause : Cause}
    (h : UpTo.handle (SpKernel.isrSave k frame) cause = .ok r) :
    Charges k (.interrupt frame cause) r := by
  have g' := g.isrSave frame
  have hsaved : Evenly k (SpKernel.isrSave k frame) := by
    obtain ⟨mm, hk⟩ := isrSave_eq k frame
    rw [hk]
    have hmm : Evenly k { k with mm := mm } := .of_pcbs rfl
    exact hmm.trans
      (.setPcb _ _ (f := fun x => { x with context := frame }) fun _ => ⟨rfl, rfl, fun _ => rfl⟩)
  have hfree : ¬(Event.interrupt frame cause).Calls 3 →
      ∀ x, ((SpKernel.isrSave k frame).pcbs x).state = .free → (r.1.pcbs x).state = .free :=
    fun hne x hx => (g.until h).stays_free g hne ((isrSave_state k frame x).symm.trans hx)
  suffices hch : Charges (SpKernel.isrSave k frame) (.interrupt frame cause) r by
    have hcur := hsaved k.current
    refine ⟨fun x hx hne => ?_, fun x hx hx' => ?_, ?_, fun ht => ?_, fun ht => ?_⟩
    · exact (hsaved x).trans (hch.others x (isrSave_state k frame x ▸ hx) hne)
    · exact hch.born x ((isrSave_state k frame x).trans hx) hx'
    · exact hch.qDefault.trans hcur.qDefault
    · obtain ⟨h1, h2⟩ := hch.ticked ht
      exact ⟨h1.trans (by rw [isrSave_current, hcur.qTicks]), h2⟩
    · exact (hch.qTicks ht).trans hcur.qTicks
  cases cause with
  | syscall keys => exact g'.sysIsr_charges (isrSave_context k frame) hfree h
  | clock => exact g'.clkIsr_charges trivial (hfree id) h
  | serial pending => exact .of_evenly (.sioIsr pending (UpTo.plain_ok h)) id (hfree id)
  | keyboard code => exact .of_evenly (Except.ok.inj h ▸ .of_pcbs rfl) id (hfree id)
  | pageFault =>
      have hset := Evenly.setPcb (SpKernel.isrSave k frame) k.current (f := fun x =>
        { x with state := .killed, exitstatus := exitKilled }) fun _ => ⟨rfl, rfl, fun _ => rfl⟩
      exact .of_evenly (hset.trans (.zombify (UpTo.calls_ok h))) id (hfree id)

end Handlers

/-! ## The quantum of the running process -/

/-- Every process has the standard quantum, and the running one has some of
it left. -/
structure Quantum (k : Kernel) : Prop where
  qDefault : ∀ x, (k.pcbs x).state ≠ .free → (k.pcbs x).qDefault = quantStd
  pos : 1 ≤ (k.pcbs k.current).qTicks.toNat
  le : (k.pcbs k.current).qTicks.toNat ≤ quantStd.toNat

/-- What an event does to quanta and to the ready queues. -/
theorem Good.step_charges (g : Good k) (h : SpKernel.step k e = .ok k') :
    (∃ r, Charges k e r ∧ Served k r.1 ∧ Placed r.1 ∅ (if r.2 then none else some k.current)
      ∧ (r.2 = true → Dispatching k e r.1)
      ∧ (r.2 = false ∧ k' = isrRestore r.1 ∧ k'.current = k.current
        ∨ r.2 = true ∧ ∃ prio p, Dispatched r.1 prio p k'))
    ∨ ¬e.Tick ∧ k'.pcbs = k.pcbs ∧ k'.queues = k.queues ∧ k'.current = k.current := by
  cases e with
  | store a b =>
      obtain rfl := Except.ok.inj h
      exact .inr ⟨id, rfl, rfl, rfl⟩
  | interrupt frame cause =>
      have g' := g.step h
      obtain ⟨k₂, hk₂, h⟩ := bind_eq_ok.mp h
      rw [UpTo.handle_eq] at hk₂
      obtain ⟨⟨k₁, d⟩, hk₁, hk₂⟩ := bind_eq_ok.mp hk₂
      obtain rfl := Except.ok.inj h
      have hserved : Served k k₁ := handle_served (g.isrSave frame) hk₁
      have hu := g.until hk₁
      refine .inl ⟨(k₁, d), g.charges hk₁, hserved, hu.placed, ?_, ?_⟩
      · rintro rfl
        exact hk₁
      · cases d with
        | true =>
            obtain ⟨prio, p, hd⟩ := dispatch_eq hk₂
            exact .inr ⟨rfl, prio, p, hd.front, hd.best, hd.others, hd.current, hd.pcbs, hd.now⟩
        | false =>
            obtain rfl := Except.ok.inj hk₂
            refine .inl ⟨rfl, rfl, ?_⟩
            have hrun : some k.current = some k₁.current :=
              (hu.placed.running k₁.current id).mp g'.running
            exact (Option.some.inj hrun).symm

theorem Quantum.step (hq : Quantum k) (g : Good k) (h : SpKernel.step k e = .ok k') :
    Quantum k' := by
  rcases g.step_charges h with ⟨r, hc, -, hpl, -, hend⟩ | ⟨-, hp, -, hcur⟩
  · have hcurrent : (k.pcbs k.current).state ≠ .free := by
      rw [g.running]
      exact nofun
    have hall : ∀ x, (r.1.pcbs x).state ≠ .free → (r.1.pcbs x).qDefault = quantStd := by
      intro x hx
      by_cases hxc : x = k.current
      · rw [hxc, hc.qDefault]
        exact hq.qDefault _ hcurrent
      by_cases hfree : (k.pcbs x).state = .free
      · exact hc.born x hfree hx
      · rw [(hc.others x hfree hxc).qDefault]
        exact hq.qDefault x hfree
    rcases hend with ⟨hd, rfl, hcur⟩ | ⟨-, prio, p, hd⟩
    · have hk : (isrRestore r.1).pcbs = r.1.pcbs := rfl
      have hpos := hq.pos
      have hle := hq.le
      have hleft : 1 ≤ (r.1.pcbs k.current).qTicks.toNat
          ∧ (r.1.pcbs k.current).qTicks.toNat ≤ (k.pcbs k.current).qTicks.toNat := by
        by_cases ht : e.Tick
        · obtain ⟨heq, hno⟩ := hc.ticked ht
          have hge : 1 ≤ (r.1.pcbs k.current).qTicks.toNat := Nat.le_of_not_lt (hno hd)
          refine ⟨hge, ?_⟩
          rw [heq, BitVec.toNat_sub_of_le hpos]
          exact Nat.sub_le _ _
        · rw [hc.qTicks ht]
          exact ⟨hpos, le_refl _⟩
      refine ⟨hall, ?_, ?_⟩
      · rw [hcur]
        exact hleft.1
      · rw [hcur]
        exact hleft.2.trans hle
    · have hp : p ∈ r.1.on (.ready prio) := hd.front ▸ List.mem_cons_self ..
      have hlive : (r.1.pcbs p).state ≠ .free := by
        intro hf
        have := ((hpl.mem p _).mp hp).2
        simp [home, hf] at this
      have hqt : (k'.pcbs k'.current).qTicks = quantStd := by
        rw [hd.current, hd.pcbs, if_pos rfl]
        exact hall p hlive
      refine ⟨fun x hx => ?_, hqt ▸ (by decide), hqt ▸ le_refl _⟩
      rw [hd.pcbs] at hx ⊢
      split
      · exact hall p hlive
      · rename_i hxp
        rw [if_neg hxp] at hx
        exact hall x hx
  · exact ⟨hp ▸ hq.qDefault, hp ▸ hcur ▸ hq.pos, hp ▸ hcur ▸ hq.le⟩

/-! ## Waiting to be served -/

/-- The ticks after which at the latest `p` is served, when no better queue
comes between. -/
def delay (prio : Fin nPrios) (p : PcbId) (k : Kernel) : Nat :=
  quantStd.toNat * (k.on (.ready prio)).idxOf p + (k.pcbs k.current).qTicks.toNat

theorem delay_step {prio : Fin nPrios} (g : Good k) (hq : Quantum k)
    (h : SpKernel.step k e = .ok k') (hp : p ∈ k.on (.ready prio))
    (hp' : p ∈ k'.on (.ready prio))
    (hbest : ∀ k₁, Dispatching k e k₁ → ∀ better < prio, k₁.on (.ready better) = []) :
    delay prio p k' + (isTick (k, e)).toNat ≤ delay prio p k := by
  have hnd := g.placed.nodup (.ready prio)
  have hpos := hq.pos
  have htick : isTick (k, e) = true ↔ e.Tick := by
    cases e with
    | store a b => exact ⟨nofun, False.elim⟩
    | interrupt frame cause => cases cause <;> simp [isTick, Event.Tick]
  rcases g.step_charges h with ⟨r, hc, hserved, hpl, hdisp, ⟨hd, rfl, hcur⟩ | ⟨hd, best, x, hx⟩⟩ |
    ⟨ht, hpcbs, hqs, hcur⟩
  · have hidx : ((isrRestore r.1).on (.ready prio)).idxOf p ≤ (k.on (.ready prio)).idxOf p :=
      (hserved prio).idxOf_le hnd hp hp'
    have hmul := Nat.mul_le_mul_left quantStd.toNat hidx
    have hleft : (r.1.pcbs k.current).qTicks.toNat + (isTick (k, e)).toNat
        ≤ (k.pcbs k.current).qTicks.toNat := by
      by_cases ht : e.Tick
      · rw [(hc.ticked ht).1, htick.mpr ht, BitVec.toNat_sub_of_le hpos]
        exact le_of_eq (Nat.sub_add_cancel hpos)
      · rw [hc.qTicks ht, Bool.eq_false_iff.mpr fun hb => ht (htick.mp hb)]
        exact le_refl _
    have hlast : ((isrRestore r.1).pcbs (isrRestore r.1).current).qTicks
        = (r.1.pcbs k.current).qTicks := by rw [hcur]; rfl
    rw [delay, delay, hlast]
    omega
  · have hsame : best = prio := by
      rcases lt_trichotomy best prio with hlt | heq | hlt
      · have hnil := hbest r.1 (hdisp hd) best hlt
        rw [hx.front] at hnil
        cases hnil
      · exact heq
      · have hne : PQueue.ready prio ≠ .ready best := fun hc =>
          (PQueue.ready.inj hc ▸ hlt).false
        rw [hx.others _ hne, hx.best prio hlt] at hp'
        cases hp'
    subst hsame
    have hfront : (x :: k'.on (.ready best)).Nodup := hx.front ▸ hpl.nodup (.ready best)
    have hne : x ≠ p := fun hc => (List.nodup_cons.mp hfront).1 (hc ▸ hp')
    have hidx := (hx.front ▸ hserved best : Lib.Follows _ _).idxOf_lt hnd hp hne hp'
    have hmul := Nat.mul_le_mul_left quantStd.toNat hidx
    rw [Nat.mul_succ] at hmul
    have hfull := (hq.step g h).le
    have hone := Bool.toNat_le (isTick (k, e))
    rw [delay, delay]
    omega
  · have hno : isTick (k, e) = false := Bool.eq_false_iff.mpr fun hb => ht (htick.mp hb)
    rw [delay, delay, hno, hpcbs, hcur, Kernel.on, hqs]
    exact le_refl _

/-- A ready process that is neither ended nor chosen stays on its queue. -/
theorem Good.stays_ready {prio : Fin nPrios} (g : Good k) (h : SpKernel.step k e = .ok k')
    (hp : p ∈ k.on (.ready prio)) (hends : ¬Ends k e p) (hcur : k'.current ≠ p) :
    p ∈ k'.on (.ready prio) := by
  have g' := g.step h
  have hhome := ((g.placed.mem p _).mp hp).2
  have hs : (k.pcbs p).state = .ready := by
    cases hst : (k.pcbs p).state <;> simp [home, hst] at hhome ⊢
  have hne : p ≠ k.current := by
    rintro rfl
    rw [g.running] at hs
    cases hs
  have hs' : (k'.pcbs p).state = .ready := by
    rcases g.step_moves h p with hm | ⟨-, hc, -⟩
    · rw [hs] at hm
      generalize (k'.pcbs p).state = s at hm
      cases hm with
      | stays => rfl
      | died ha hen _ => exact absurd (ends_of_explains ha hen) hends
    · exact absurd hc.symm hcur
  have hle : (k.pcbs p).prio ≤ 3 :=
    BitVec.le_def.mpr (Nat.le_of_lt_succ ((g.placed.legal p id).prio hs))
  have hprio : (k'.pcbs p).prio = (k.pcbs p).prio := by
    rcases g.step_charges h with ⟨r, hc, -, -, -, ⟨-, rfl, -⟩ | ⟨-, best, x, hx⟩⟩ | ⟨-, hpcbs, -⟩
    · exact (hc.others p (by rw [hs]; exact fun hc => by cases hc) hne).prio hle
    · rw [hx.pcbs, if_neg fun hc => hcur (hx.current.trans hc.symm)]
      exact (hc.others p (by rw [hs]; exact fun hc => by cases hc) hne).prio hle
    · rw [hpcbs]
  refine (g'.placed.mem p _).mpr ⟨id, ?_⟩
  rw [home, hs] at hhome
  rw [home, hs', hprio]
  exact hhome

/-! ## The first tick -/

theorem initProcess_quantum (h : initProcess k = .ok k') :
    (k'.pcbs k'.initPcb).qDefault = quantStd
      ∧ (k'.pcbs k'.current).qTicks = (k'.pcbs k'.current).qDefault := by
  obtain ⟨⟨pcb, k₁⟩, -, h⟩ := bind_eq_ok.mp h
  cases pcb with
  | none => cases h
  | some p =>
      obtain ⟨⟨stk, k₂⟩, -, h⟩ := bind_eq_ok.mp h
      cases stk with
      | none => cases h
      | some stk =>
          obtain ⟨k₃, hsched, h⟩ := bind_eq_ok.mp h
          obtain ⟨k₄, hdisp, h⟩ := bind_eq_ok.mp h
          obtain rfl := Except.ok.inj h
          obtain ⟨prio, x, hd⟩ := dispatch_eq hdisp
          have hinit := (dispatch_spaces hdisp).initPcb.trans (schedule_spaces hsched).initPcb
          refine ⟨?_, ?_⟩
          · change (k₄.pcbs k₄.initPcb).qDefault = quantStd
            have hset : (k₃.pcbs p).qDefault = quantStd := by
              rw [(Evenly.schedule hsched p).qDefault]
              simp only [Kernel.setPcb, update_self]
            rw [hinit, hd.pcbs]
            split
            · rename_i hx
              rw [← hx]
              exact hset
            · exact hset
          · change (k₄.pcbs k₄.current).qTicks = (k₄.pcbs k₄.current).qDefault
            rw [hd.current, hd.pcbs, if_pos rfl]
            rfl

variable {image : Image} {mm : MemMgr} {pages : Nat} {k₀ : Kernel} {tr : List (Kernel × Event)}

theorem init_quantum (h0 : init image mm pages = .ok k₀) : Quantum k₀ := by
  obtain ⟨g₀, p, stk, rest, hf⟩ := init_spec h0
  have honly : ∀ x, (k₀.pcbs x).state ≠ .free → x = k₀.initPcb := by
    intro x hx
    have hm : (k₀.family.members x).mode ≠ .free := fun hc => hx (mode_eq_free.mp hc)
    have hi : k₀.initPcb = p := congrArg Family.init hf
    rw [hf] at hm
    exact (Family.first_only hm).trans hi.symm
  obtain ⟨mm', -, hk⟩ := bind_eq_ok.mp h0
  obtain ⟨hq, ht⟩ := initProcess_quantum hk
  have hcur := honly k₀.current (by rw [g₀.running]; exact nofun)
  rw [hcur, hq] at ht
  refine ⟨fun x hx => honly x hx ▸ hq, ?_, ?_⟩
  · rw [hcur, ht]
    decide
  · rw [hcur, ht]

theorem reachable_quantum (h0 : init image mm pages = .ok k₀) (hrun : Steps step k₀ tr k) :
    Quantum k := by
  have hboth : Good k ∧ Quantum k := hrun.inv (P := fun t => Good t ∧ Quantum t)
    (fun _ _ _ ht hst => ⟨ht.1.step hst, ht.2.step ht.1 hst⟩) ⟨(init_spec h0).1, init_quantum h0⟩
  exact hboth.2

/-! ## Service -/

/-- A process on a ready queue, behind `n` others, runs or is ended before
the clock has ticked `5 * (n + 1)` times, in every run in which no better
queue has somebody in it when `_dispatch` is called. -/
theorem served_in_time (h0 : init image mm pages = .ok k₀) (hrun : Steps step k₀ tr k)
    {prio : Fin nPrios} (hp : p ∈ k.on (.ready prio)) {tr' : List (Kernel × Event)}
    (hlater : Steps step k tr' k')
    (hbest : ∀ x ∈ tr', ∀ k₁, Dispatching x.1 x.2 k₁ →
      ∀ better < prio, k₁.on (.ready better) = [])
    (hticks : 5 * ((k.on (.ready prio)).idxOf p + 1) ≤ ticks tr') :
    ∃ x ∈ tr', Ends x.1 x.2 p ∨ ∃ t, step x.1 x.2 = .ok t ∧ t.current = p := by
  by_contra hno
  have g := reachable_good h0 hrun
  have hq := reachable_quantum h0 hrun
  have hstep : ∀ t e t', (Good t ∧ Quantum t ∧ p ∈ t.on (.ready prio)) →
      ((¬Ends t e p ∧ ∀ t', step t e = .ok t' → t'.current ≠ p)
        ∧ ∀ k₁, Dispatching t e k₁ → ∀ better < prio, k₁.on (.ready better) = []) →
      step t e = .ok t' → (Good t' ∧ Quantum t' ∧ p ∈ t'.on (.ready prio))
        ∧ delay prio p t' + (isTick (t, e)).toNat ≤ delay prio p t := by
    rintro t e t' ⟨gt, hqt, hpt⟩ ⟨⟨hends, hchosen⟩, hb⟩ hst
    have hp' := gt.stays_ready hst hpt hends (hchosen t' hst)
    exact ⟨⟨gt.step hst, hqt.step gt hst, hp'⟩, delay_step gt hqt hst hpt hp' hb⟩
  have hwaits : ∀ x ∈ tr', (¬Ends x.1 x.2 p ∧ ∀ t', step x.1 x.2 = .ok t' → t'.current ≠ p)
      ∧ ∀ k₁, Dispatching x.1 x.2 k₁ → ∀ better < prio, k₁.on (.ready better) = [] :=
    fun x hx => ⟨⟨fun hc => hno ⟨x, hx, .inl hc⟩, fun t hst hc => hno ⟨x, hx, .inr ⟨t, hst, hc⟩⟩⟩,
      hbest x hx⟩
  obtain ⟨⟨-, hq', -⟩, hle⟩ := Steps.countP_le hstep hlater ⟨g, hq, hp⟩ hwaits
  have hpos := hq'.pos
  have hfull := hq.le
  have h5 : quantStd.toNat = 5 := rfl
  change delay prio p k' + ticks tr' ≤ _ at hle
  rw [delay, delay, h5] at hle
  rw [h5] at hfull
  omega

/-- The child of `init` waits for the five ticks that `init` has left. -/
theorem served_in_time_child : ∃ k₀ tr k tr' k', init someImage lowPageUsed 0 = .ok k₀
    ∧ Steps step k₀ tr k ∧ 1 ∈ k.on (.ready 0) ∧ Steps step k tr' k' ∧ tr'.length = 5
    ∧ ∃ x ∈ tr', Ends x.1 x.2 1 ∨ ∃ t, step x.1 x.2 = .ok t ∧ t.current = 1 := by
  obtain ⟨k₀, tr, k, h0, hrun, -, ht⟩ := run_of_test [call 3 0 0 0]
    (fun k => decide (k.on (.ready 0) = [1])
      && okAnd (run step k (List.replicate 5 (.interrupt (callFrame 0 0 0 0) .clock)))
        fun _ => true) (by decide +kernel)
  rw [Bool.and_eq_true, decide_eq_true_eq] at ht
  obtain ⟨hq, ht⟩ := ht
  obtain ⟨k', hk', -⟩ := of_okAnd ht
  obtain ⟨tr', hlater, hes⟩ := steps_of_run hk'
  have hp : 1 ∈ k.on (.ready 0) := hq ▸ List.mem_singleton_self 1
  have hlen : tr'.length = 5 := by
    rw [← List.length_map (f := Prod.snd), hes, List.length_replicate]
  have hticks : ticks tr' = 5 := by
    refine (List.countP_eq_length.mpr fun x hx => ?_).trans hlen
    have hx' : x.2 ∈ tr'.map Prod.snd := List.mem_map_of_mem hx
    rw [hes] at hx'
    rw [isTick, List.eq_of_mem_replicate hx']
  refine ⟨k₀, tr, k, tr', k', h0, hrun, hp, hlater, hlen, ?_⟩
  refine served_in_time h0 hrun hp hlater (fun _ _ _ _ better hlt => ?_) ?_
  · exact absurd hlt (Fin.not_lt_zero better)
  · rw [hq, hticks, List.idxOf_cons_self]

end SpKernel
