import SpKernel.Sleepers

/-!
# Round robin

`_dispatch` takes the first process of the best ready queue, and
`_schedule` puts processes at the end. Whoever is ahead on a ready queue
is therefore served first, whatever happens in between, also where `kill`
takes processes out of the middle. `round_robin` says so of every run,
and `Quanta` counts the ticks until it happens.

`_dispatch` is the last thing a handler does, where it is called at all.
The handlers of `UpTo` are those of the kernel up to that point: they
return the state `_dispatch` would find and whether it is called there,
and `UpTo.handle_eq` says that nothing else has been changed. Without
this the order could only be followed from one state in which a process
runs to the next, and the process that `_dispatch` takes off would look
like one that has left.

`Served k k'` is what a handler does to the ready queues up to there:
what is on each of them afterwards follows what was there before
(`Follows` of the library), so that nobody is overtaken. It needs to know
that whoever is put on a queue was not on it (`Kernel.Unready`). There is
one lemma for each function, `handle_served` for all handlers, and
`ready_ahead` carries the order through a run.
-/

namespace SpKernel

open Function (update update_self update_of_ne)
open Lib

variable {image : Image} {mm : MemMgr} {pages : Nat} {k₀ b k k' : Kernel} {p : PcbId}
  {tr : List (Kernel × Event)} {e : Event} {frame : Frame}

/-! ## Up to the dispatcher -/

namespace UpTo

/-- The state in which a handler ends or calls `_dispatch`, and which of
the two it is. -/
abbrev Result := Except Fault (Kernel × Bool)

/-- What is left to do. -/
def finish : Kernel × Bool → Except Fault Kernel
  | (k, true) => dispatch k
  | (k, false) => .ok k

/-- `_dispatch` is not called. -/
def plain (r : Except Fault Kernel) : Result := r.map fun k => (k, false)

/-- `_dispatch` is called next. -/
def calls (r : Except Fault Kernel) : Result := r.map fun k => (k, true)

@[simp] theorem plain_bind (r : Except Fault Kernel) : plain r >>= finish = r := by
  cases r <;> rfl

theorem plain_ok {r : Except Fault Kernel} {x : Kernel × Bool} (h : plain r = .ok x) :
    r = .ok x.1 := by
  cases r with
  | error f => cases h
  | ok k => exact Except.ok.inj h ▸ rfl

theorem calls_ok {r : Except Fault Kernel} {x : Kernel × Bool} (h : calls r = .ok x) :
    r = .ok x.1 := by
  cases r with
  | error f => cases h
  | ok k => exact Except.ok.inj h ▸ rfl

@[simp] theorem calls_bind (r : Except Fault Kernel) : calls r >>= finish = r >>= dispatch := by
  cases r <;> rfl

def sysExit (k : Kernel) (p : PcbId) : Result :=
  calls (zombify
    (k.setPcb p fun x => { x with exitstatus := k.arg p 1, state := .zombie }) p)

def readDone (k : Kernel) (p : PcbId) (n : Nat) : Result :=
  if 0 < n then .ok (k.setRet p (BitVec.ofNat 32 n), false)
  else
    match k.enque .reading p with
    | (.success, k) => .ok (k.setPcb k.current fun x => { x with state := .blocked }, true)
    | (_, k) => .ok (k.setRet p Status.failure.word, false)

def sysRead (keys : List Byte) (k : Kernel) (p : PcbId) : Result :=
  let chan := k.arg p 1
  let buf := k.arg p 2
  let size := k.arg p 3
  if chan = 0 then
    if cInputQueue k.console < 1 then .ok (k.setRet p Status.noChar.word, false)
    else do
      let (n, c, m) ← cGets k.console keys k.mm.mem buf size
      readDone { k with console := c, mm := { k.mm with mem := m } } p n
  else if chan = 1 then
    let (n, s, m) := sioReads k.sio k.mm.mem buf size.toInt
    readDone { k with sio := s, mm := { k.mm with mem := m } } p n
  else .ok (k.setRet p Status.badChan.word, false)

def sysSleep (k : Kernel) (p : PcbId) : Result :=
  if k.arg p 1 = 0 then calls (schedule k p)
  else
    let k := k.setPcb p fun x => { x with wakeup := k.now + k.arg p 1, state := .sleeping }
    match k.enque .sleeping p with
    | (.success, k) => .ok (k, true)
    | _ => .error (.kpanic "_sys_sleep" "can't enque sleeper")

def finishKill (k : Kernel) (p victim : PcbId) : Result := do
  let k := k.setPcb victim fun x => { x with state := .killed, exitstatus := exitKilled }
  let k ← zombify (k.setRet p Status.success.word) victim
  .ok (k, decide (victim = k.current))

def killFrom (k : Kernel) (p victim : PcbId) (which : PQueue) : Result :=
  match k.remove which victim with
  | (.success, k) => finishKill k p victim
  | _ => .error (.kpanic "_sys_kill" "can't remove victim")

def sysKill (k : Kernel) (p : PcbId) : Result :=
  match pcbFind k ((k.arg p 1).setWidth 16) with
  | none => .ok (k.setRet p Status.noProcess.word, false)
  | some victim =>
    match (k.pcbs victim).state with
    | .waiting => killFrom k p victim .waiting
    | .sleeping => killFrom k p victim .sleeping
    | .blocked => killFrom k p victim .reading
    | .ready => killFrom k p victim (.ready (Fin.ofNat nPrios (k.pcbs victim).prio.toNat))
    | .running => finishKill k p victim
    | .killed | .zombie => .ok (k.setRet p Status.success.word, false)
    | .invalid | .free | .new => .error (.kpanic "_sys_kill" "bad victim state")

def sysWait (k : Kernel) (p : PcbId) : Result :=
  if (k.pcbs p).children = 0 then .ok (k.setRet p Status.noChild.word, false)
  else do
    let (child, k) ← pcbFindChildOf k ((k.pcbs p).pid.signExtend 32)
    let (zombie, k) ← zombieLoop nPcbs k child
    match zombie with
    | some child =>
      match k.remove .zombie child with
      | (.success, k) =>
        let k := k.setPcb p fun x => { x with children := x.children - 1 }
        .ok (pcbCleanup (deliver k p child) child, false)
      | _ => .error (.kpanic "_sys_wait" "can't deque zombie")
    | none =>
      match (k.setPcb p fun x => { x with state := .waiting }).enque .waiting p with
      | (.success, k) => .ok (k, true)
      | _ => .error (.kpanic "_sys_wait" "can't enque waiting parent")

def sysIsr (keys : List Byte) (k : Kernel) : Result :=
  let p := k.current
  let syscode := (k.pcbs p).context.regs.eax
  if nSyscalls ≤ syscode then
    sysExit (k.setArg p 1 exitBadCode) p
  else
    match syscode.toNat with
    | 0 => sysExit k p
    | 1 => sysRead keys k p
    | 5 => sysKill k p
    | 6 => sysWait k p
    | 7 => sysSleep k p
    | n =>
      match syscalls keys n with
      | some handler => plain (handler k p)
      | none => .error .null

def clkIsr (k : Kernel) : Result := do
  let pinwheel := if k.pinwheel + 1 = 100 then 0 else k.pinwheel + 1
  let k := { k with pinwheel := pinwheel, now := k.now + 1 }
  let k ← wakeLoop (k.queues.size (.pcbs .sleeping) + 1) k
  let p := k.current
  let k := k.setPcb p fun x => { x with qTicks := x.qTicks - 1 }
  if (k.pcbs p).qTicks < 1 then calls (schedule k p) else .ok (k, false)

def pageFaultIsr (k : Kernel) : Result :=
  calls (zombify (k.setPcb k.current fun x =>
    { x with state := .killed, exitstatus := exitKilled }) k.current)

def handle (k : Kernel) : Cause → Result
  | .syscall keys => sysIsr keys k
  | .clock => clkIsr k
  | .serial pending => plain (sioIsr pending k)
  | .keyboard code => .ok ({ k with console := cInputScanCode k.console code }, false)
  | .pageFault => pageFaultIsr k

/-! ### Nothing is left out -/

theorem sysExit_eq (k : Kernel) (p : PcbId) : SpKernel.sysExit k p = sysExit k p >>= finish := by
  rw [sysExit, calls_bind]
  rfl

theorem readDone_eq (k : Kernel) (p : PcbId) (n : Nat) :
    SpKernel.readDone k p n = readDone k p n >>= finish := by
  rw [SpKernel.readDone, readDone]
  split
  · rfl
  · rcases k.enque .reading p with ⟨st, k₁⟩
    cases st <;> rfl

theorem sysRead_eq (keys : List Byte) (k : Kernel) (p : PcbId) :
    SpKernel.sysRead keys k p = sysRead keys k p >>= finish := by
  simp only [SpKernel.sysRead, sysRead]
  split
  · split
    · rfl
    · rw [bind_assoc]
      refine congrArg _ (funext fun x => ?_)
      exact readDone_eq ..
  · split
    · exact readDone_eq ..
    · rfl

theorem sysSleep_eq (k : Kernel) (p : PcbId) :
    SpKernel.sysSleep k p = sysSleep k p >>= finish := by
  simp only [SpKernel.sysSleep, sysSleep]
  split
  · rw [calls_bind]
  · generalize Kernel.enque _ _ _ = r
    rcases r with ⟨st, k₁⟩
    cases st <;> rfl

theorem finishKill_eq (k : Kernel) (p victim : PcbId) :
    SpKernel.finishKill k p victim = finishKill k p victim >>= finish := by
  rw [SpKernel.finishKill, finishKill, bind_assoc]
  refine congrArg _ (funext fun k₁ => ?_)
  by_cases hv : victim = k₁.current
  · simp only [hv, ↓reduceIte, decide_true, ok_bind, finish]
  · simp only [hv, ↓reduceIte, decide_false, ok_bind, finish]

theorem killFrom_eq (k : Kernel) (p victim : PcbId) (which : PQueue) :
    SpKernel.killFrom k p victim which = killFrom k p victim which >>= finish := by
  rw [SpKernel.killFrom, killFrom]
  rcases k.remove which victim with ⟨st, k₁⟩
  cases st
  case success => exact finishKill_eq ..
  all_goals rfl

theorem sysKill_eq (k : Kernel) (p : PcbId) :
    SpKernel.sysKill k p = sysKill k p >>= finish := by
  rw [SpKernel.sysKill, sysKill]
  cases pcbFind k ((k.arg p 1).setWidth 16) with
  | none => rfl
  | some victim =>
      cases hs : (k.pcbs victim).state <;> simp only [hs]
      case waiting => exact killFrom_eq ..
      case sleeping => exact killFrom_eq ..
      case blocked => exact killFrom_eq ..
      case ready => exact killFrom_eq ..
      case running => exact finishKill_eq ..
      all_goals rfl

theorem sysWait_eq (k : Kernel) (p : PcbId) :
    SpKernel.sysWait k p = sysWait k p >>= finish := by
  rw [SpKernel.sysWait, sysWait]
  split
  · rfl
  · simp only [bind_assoc]
    refine congrArg _ (funext fun x => congrArg _ (funext fun y => ?_))
    rcases y with ⟨zombie, k₁⟩
    cases zombie with
    | some child =>
        simp only
        rcases k₁.remove .zombie child with ⟨st, k₂⟩
        cases st <;> rfl
    | none =>
        simp only
        generalize Kernel.enque _ _ _ = r
        rcases r with ⟨st, k₂⟩
        cases st <;> rfl

theorem sysIsr_eq (keys : List Byte) (k : Kernel) :
    SpKernel.sysIsr keys k = sysIsr keys k >>= finish := by
  simp only [SpKernel.sysIsr, sysIsr]
  split
  · exact sysExit_eq ..
  · rename_i hcode
    have hlt : (k.pcbs k.current).context.regs.eax.toNat < 13 := Nat.lt_of_not_le hcode
    generalize (k.pcbs k.current).context.regs.eax.toNat = n at hlt
    interval_cases n
    · exact sysExit_eq ..
    · exact sysRead_eq ..
    · exact (plain_bind _).symm
    · exact (plain_bind _).symm
    · exact (plain_bind _).symm
    · exact sysKill_eq ..
    · exact sysWait_eq ..
    · exact sysSleep_eq ..
    · exact (plain_bind _).symm
    · exact (plain_bind _).symm
    · exact (plain_bind _).symm
    · exact (plain_bind _).symm
    · rfl

theorem clkIsr_eq (k : Kernel) : SpKernel.clkIsr k = clkIsr k >>= finish := by
  rw [SpKernel.clkIsr, clkIsr]
  simp only [bind_assoc]
  refine congrArg _ (funext fun k₁ => ?_)
  split
  · rw [calls_bind]
  · rfl

/-- Every handler is the handler up to its call of `_dispatch`, and then
`_dispatch`. -/
theorem handle_eq (k : Kernel) (cause : Cause) :
    SpKernel.handle k cause = handle k cause >>= finish := by
  cases cause with
  | syscall keys => exact sysIsr_eq keys k
  | clock => exact clkIsr_eq k
  | serial pending => exact (plain_bind _).symm
  | keyboard code => rfl
  | pageFault =>
      rw [handle, pageFaultIsr, calls_bind]
      rfl

end UpTo

/-! ## First in, first out -/

/-- Since `b` the ready queues have been served first in, first out. -/
def Served (b k : Kernel) : Prop := ∀ prio, Follows (b.on (.ready prio)) (k.on (.ready prio))

/-- `p` is on no ready queue. -/
def Kernel.Unready (k : Kernel) (p : PcbId) : Prop := ∀ prio, p ∉ k.on (.ready prio)

theorem Good.unready (g : Good k) {q : PQueue} (hp : p ∈ k.on q) (hq : ∀ prio, q ≠ .ready prio) :
    k.Unready p :=
  fun prio => g.not_on hp (hq prio).symm

theorem Good.current_unready (g : Good k) : k.Unready k.current :=
  fun prio => g.current_not_on (.ready prio)

namespace Served

theorem refl (k : Kernel) : Served k k := fun prio => .refl (k.on (.ready prio))

theorem of_eq (h : Served b k) (hr : ∀ prio, k'.on (.ready prio) = k.on (.ready prio)) :
    Served b k' :=
  fun prio => hr prio ▸ h prio

theorem of_queues (h : Served b k) (hq : k'.queues = k.queues) : Served b k' :=
  h.of_eq fun prio => by rw [Kernel.on, hq, Kernel.on]

theorem of_sublist (h : Served b k)
    (hs : ∀ prio, (k'.on (.ready prio)).Sublist (k.on (.ready prio))) : Served b k' :=
  fun prio => (h prio).of_sublist (hs prio)

theorem queues {q : PQueue} {l : List PcbId} (h : Served b k) (n : Nat)
    (hq : ∀ prio, q ≠ .ready prio) :
    Served b { k with queues := ⟨n, update k.queues.items (.pcbs q) l⟩ } :=
  h.of_eq fun prio => (on_update k q _ l n).trans (if_neg (hq prio).symm)

theorem enque {q : PQueue} {st : Status} (h : Served b k) (he : k.enque q p = (st, k'))
    (hq : ∀ prio, q ≠ .ready prio) : Served b k' := by
  rcases enque_eq he with rfl | ⟨n, rfl⟩
  · exact h
  · exact h.queues n hq

theorem deque {q : PQueue} {st : Status} {x : PcbId} (h : Served b k)
    (hd : k.deque q = (st, some x, k')) (hq : ∀ prio, q ≠ .ready prio) : Served b k' := by
  obtain ⟨n, l, -, rfl⟩ := deque_eq hd
  exact h.queues n hq

theorem remove {q : PQueue} (h : Served b k) (he : k.remove q p = (.success, k')) :
    Served b k' := by
  obtain ⟨-, n, rfl⟩ := remove_eq he
  refine h.of_sublist fun prio => ?_
  rw [on_update]
  split
  · rename_i hq
    rw [hq]
    exact List.erase_sublist
  · exact List.Sublist.refl _

/-- Who was not ready before goes to the end of a queue. -/
theorem schedule (h : Served b k) (hp : b.Unready p) (hs : SpKernel.schedule k p = .ok k') :
    Served b k' := by
  intro prio
  rw [schedule_ready hs]
  split
  · exact (h prio).append (hp prio)
  · exact h prio

theorem dispatch (h : Served b k) (hd : SpKernel.dispatch k = .ok k') : Served b k' := by
  obtain ⟨prio, p, hd⟩ := dispatch_eq hd
  refine h.of_sublist fun prio' => ?_
  rcases eq_or_ne prio' prio with rfl | hne
  · rw [hd.front]
    exact List.sublist_cons_self ..
  · rw [hd.others _ (by simpa using hne)]

theorem stkDealloc (h : Served b k) (stack : Option StackId) :
    Served b (SpKernel.stkDealloc k stack) := by
  cases stack with
  | none => exact h
  | some s =>
      simp only [SpKernel.stkDealloc, QPool.enque]
      split
      · exact h
      · refine h.of_eq fun prio => ?_
        have hne : QueueId.pcbs (.ready prio) ≠ .freeStacks := by simp
        simp only [Kernel.on, update_of_ne hne]

theorem pcbDealloc (h : Served b k) (p : PcbId) : Served b (SpKernel.pcbDealloc k p) :=
  Served.enque (k := k.setPcb p Pcb.makeFree) h rfl (by simp)

theorem pcbCleanup (h : Served b k) (p : PcbId) : Served b (SpKernel.pcbCleanup k p) :=
  (h.stkDealloc _).pcbDealloc p

/-- A waiting parent that is given the status was waiting before. -/
theorem lay (g : Good b) (h : Served b k) (hw : k.on .waiting ⊆ b.on .waiting)
    (hl : SpKernel.lay k p = .ok k') : Served b k' := by
  rw [SpKernel.lay] at hl
  split at hl
  · cases hl
  · rename_i parent hfind
    split at hl
    · split at hl
      · rename_i k₁ he
        have hmem := hw (remove_eq he).1
        have h₁ : Served b (deliver k₁ parent p) := (h.remove he).of_queues rfl
        exact (h₁.pcbCleanup p).schedule (g.unready hmem (by simp)) hl
      · cases hl
    · split at hl
      · rename_i k₁ he
        rw [← Except.ok.inj hl]
        exact h.enque he (by simp)
      · cases hl

theorem zombify (g : Good b) (h : Served b k) (hw : k.on .waiting ⊆ b.on .waiting)
    (hz : SpKernel.zombify k p = .ok k') : Served b k' := by
  obtain ⟨k₁, hk₁, hl⟩ := bind_eq_ok.mp hz
  have hq := reparent_queues hk₁
  refine (h.of_queues hq).lay g ?_ hl
  rwa [Kernel.on, hq]

end Served

/-! ### Handlers -/

section Handlers

variable {r : Kernel × Bool} {keys : List Byte}

theorem sysExit_served (g : Good k) (h : UpTo.sysExit k p = .ok r) : Served k r.1 :=
  Served.zombify g (k := k.setPcb p _) (Served.refl k) (fun _ hx => hx) (UpTo.calls_ok h)

theorem pageFaultIsr_served (g : Good k) (h : UpTo.pageFaultIsr k = .ok r) : Served k r.1 :=
  Served.zombify g (k := k.setPcb k.current _) (Served.refl k) (fun _ hx => hx) (UpTo.calls_ok h)

theorem readDone_served {n : Nat} (hb : Served b k) (h : UpTo.readDone k p n = .ok r) :
    Served b r.1 := by
  rw [UpTo.readDone] at h
  split at h
  · exact Except.ok.inj h ▸ hb
  · split at h
    · rename_i k₁ he
      have h₁ := hb.enque he (by simp)
      exact Except.ok.inj h ▸ h₁
    · rename_i k₁ _ he
      have h₁ := hb.enque he (by simp)
      exact Except.ok.inj h ▸ h₁

theorem sysRead_served (h : UpTo.sysRead keys k p = .ok r) : Served k r.1 := by
  simp only [UpTo.sysRead] at h
  split at h
  · split at h
    · exact Except.ok.inj h ▸ Served.refl k
    · obtain ⟨⟨n, c, m⟩, -, h⟩ := bind_eq_ok.mp h
      refine readDone_served ?_ h
      exact (Served.refl k).of_queues rfl
  · split at h
    · refine readDone_served ?_ h
      exact (Served.refl k).of_queues rfl
    · exact Except.ok.inj h ▸ Served.refl k

theorem sysSleep_served (hp : k.Unready p) (h : UpTo.sysSleep k p = .ok r) : Served k r.1 := by
  simp only [UpTo.sysSleep] at h
  split at h
  · exact (Served.refl k).schedule hp (UpTo.calls_ok h)
  · split at h
    · rename_i k₁ he
      rw [← Except.ok.inj h]
      exact Served.enque (k := k.setPcb p _) (Served.refl k) he (by simp)
    · cases h

theorem finishKill_served {v : PcbId} (g : Good b) (hb : Served b k)
    (hw : k.on .waiting ⊆ b.on .waiting) (h : UpTo.finishKill k p v = .ok r) : Served b r.1 := by
  obtain ⟨k₁, hk₁, h⟩ := bind_eq_ok.mp h
  rw [← Except.ok.inj h]
  exact Served.zombify g (k := (k.setPcb v _).setRet p _) hb hw hk₁

theorem killFrom_served {v : PcbId} {q : PQueue} (g : Good k)
    (h : UpTo.killFrom k p v q = .ok r) : Served k r.1 := by
  rw [UpTo.killFrom] at h
  split at h
  · rename_i k₁ he
    refine finishKill_served g ((Served.refl k).remove he) ?_ h
    obtain ⟨-, n, rfl⟩ := remove_eq he
    rw [on_update]
    split
    · rename_i hq
      rw [hq]
      exact List.erase_subset
    · exact fun _ hx => hx
  · cases h

theorem sysKill_served (g : Good k) (h : UpTo.sysKill k p = .ok r) : Served k r.1 := by
  rw [UpTo.sysKill] at h
  split at h
  · exact Except.ok.inj h ▸ Served.refl k
  · split at h
    · exact killFrom_served g h
    · exact killFrom_served g h
    · exact killFrom_served g h
    · exact killFrom_served g h
    · exact finishKill_served g (Served.refl k) (fun _ hx => hx) h
    · exact Except.ok.inj h ▸ Served.refl k
    · exact Except.ok.inj h ▸ Served.refl k
    · cases h
    · cases h
    · cases h

theorem sysWait_served (h : UpTo.sysWait k p = .ok r) : Served k r.1 := by
  rw [UpTo.sysWait] at h
  split at h
  · exact Except.ok.inj h ▸ Served.refl k
  · obtain ⟨⟨x, k₁⟩, hk₁, h⟩ := bind_eq_ok.mp h
    obtain ⟨⟨z, k₂⟩, hk₂, h⟩ := bind_eq_ok.mp h
    have h₂ : Served k k₂ := (Served.refl k).of_queues
      ((zombieLoop_queues _ hk₂).trans (pcbFindChildOf_queues hk₁))
    cases z with
    | some child =>
        dsimp only at h
        split at h
        · rename_i k₃ he
          have h₃ := h₂.remove he
          rw [← Except.ok.inj h]
          exact Served.pcbCleanup (k := deliver (k₃.setPcb p _) p child) h₃ child
        · cases h
    | none =>
        dsimp only at h
        split at h
        · rename_i k₃ he
          rw [← Except.ok.inj h]
          exact Served.enque (k := k₂.setPcb p _) h₂ he (by simp)
        · cases h

theorem pcbAlloc_served {x : Option PcbId} (h : pcbAlloc k = .ok (x, k')) : Served k k' := by
  rcases pcbAlloc_cases h with ⟨-, rfl⟩ | ⟨p, k₁, -, hd, rfl⟩
  · exact .refl k'
  · have h₁ := (Served.refl k).deque hd (by simp)
    exact h₁.of_queues rfl

theorem stkAlloc_served {x : Option StackId} (hb : Served b k) (h : stkAlloc k = .ok (x, k')) :
    Served b k' := by
  rcases stkAlloc_cases h with ⟨-, rfl⟩ | ⟨s, l, -, -, rfl⟩
  · exact hb
  · refine hb.of_eq fun prio => ?_
    have hne : QueueId.pcbs (.ready prio) ≠ .freeStacks := by simp
    simp only [Kernel.on, update_of_ne hne]

theorem sysWrite_queues (h : sysWrite k p = .ok k') : k'.queues = k.queues := by
  simp only [sysWrite] at h
  split at h
  · exact Except.ok.inj h ▸ rfl
  · split at h <;> exact Except.ok.inj h ▸ rfl

theorem sysExec_queues (h : sysExec k p = .ok k') : k'.queues = k.queues := by
  obtain ⟨⟨memory, mm⟩, -, h⟩ := bind_eq_ok.mp h
  exact Except.ok.inj h ▸ rfl

theorem sysMmap_queues (h : sysMmap k p = .ok k') : k'.queues = k.queues := by
  obtain ⟨⟨r, st, mm⟩, -, h⟩ := bind_eq_ok.mp h
  exact Except.ok.inj h ▸ rfl

theorem sysFork_served (g : Good k) (h : sysFork k p = .ok k') : Served k k' := by
  rw [sysFork] at h
  split at h
  · exact Except.ok.inj h ▸ Served.refl k
  · obtain ⟨⟨new, k₁⟩, hk₁, h⟩ := bind_eq_ok.mp h
    have h₁ := pcbAlloc_served hk₁
    cases new with
    | none => exact Except.ok.inj h ▸ h₁
    | some new =>
        obtain ⟨⟨stk, k₂⟩, hk₂, h⟩ := bind_eq_ok.mp h
        have h₂ : Served k k₂ := stkAlloc_served h₁ hk₂
        cases stk with
        | none => exact Except.ok.inj h ▸ Served.pcbDealloc (k := k₂.setRet p _) h₂ new
        | some stk =>
            have hnew := g.unready (pcbAlloc_free hk₁) (by simp)
            exact Served.schedule (k := birth k₂ p new stk) h₂ hnew h

theorem sioEvent_served {e : SioEvent} (g : Good b) (hb : Served b k)
    (hr : k.on .reading ⊆ b.on .reading) (h : sioEvent k e = .ok k') :
    Served b k' ∧ k'.on .reading ⊆ b.on .reading := by
  cases e with
  | lineStatus => exact Except.ok.inj h ▸ ⟨hb, hr⟩
  | rxTimeout ch => exact Except.ok.inj h ▸ ⟨hb, hr⟩
  | modemStatus => exact Except.ok.inj h ▸ ⟨hb, hr⟩
  | tx => exact Except.ok.inj h ▸ ⟨hb, hr⟩
  | unknown => cases h
  | rx ch =>
      rcases sioEvent_rx h with ⟨-, rfl⟩ | ⟨p, l, k₁, hq, hd, hs⟩
      · exact ⟨hb, hr⟩
      · have hp : p ∈ b.on .reading := hr (hq ▸ List.mem_cons_self ..)
        have h₁ : Served b (k₁.setRet p ((crToLf ch).setWidth 32)) :=
          (hb.deque hd (by simp)).of_queues rfl
        refine ⟨h₁.schedule (g.unready hp (by simp)) hs, ?_⟩
        rw [schedule_ready hs, if_neg (by simp)]
        obtain ⟨n, l', hq', rfl⟩ := deque_eq hd
        have hon : ({ k with queues := ⟨n, update k.queues.items (.pcbs .reading) l'⟩ } :
            Kernel).on .reading = l' := (on_update k _ _ _ _).trans (if_pos rfl)
        intro x hx
        refine hr (hq' ▸ List.mem_cons_of_mem _ ?_)
        exact hon ▸ hx

theorem sioIsr_served : ∀ (pending : List SioEvent) {k : Kernel}, Good b → Served b k →
    k.on .reading ⊆ b.on .reading → sioIsr pending k = .ok k' → Served b k'
  | [], k, _, hb, _, h => Except.ok.inj h ▸ hb
  | e :: pending, k, g, hb, hr, h => by
      rw [sioIsr, List.foldlM_cons] at h
      obtain ⟨k₁, hk₁, h⟩ := bind_eq_ok.mp h
      obtain ⟨hb₁, hr₁⟩ := sioEvent_served g hb hr hk₁
      exact sioIsr_served pending g hb₁ hr₁ h

theorem clkIsr_served (g : Good k) (h : UpTo.clkIsr k = .ok r) : Served k r.1 := by
  obtain ⟨k₂, hk₂, h⟩ := bind_eq_ok.mp h
  have haw := wakeLoop_awake _ hk₂ (g.placed.nodup .sleeping)
  have hcur : k₂.current = k.current := haw.current
  have h₂ : Served k k₂ := by
    intro prio
    refine ⟨_, _, haw.ready prio, List.Sublist.refl _, fun x hx => ?_⟩
    have hsl := (List.takeWhile_prefix _).subset (List.mem_of_mem_filter hx)
    exact g.unready (q := .sleeping) hsl (by simp) prio
  simp only at h
  split at h
  · refine Served.schedule (k := k₂.setPcb k₂.current _) h₂ ?_ (UpTo.calls_ok h)
    exact hcur ▸ g.current_unready
  · exact Except.ok.inj h ▸ h₂

theorem sysIsr_served (g : Good k) (h : UpTo.sysIsr keys k = .ok r) : Served k r.1 := by
  simp only [UpTo.sysIsr] at h
  split at h
  · have hs := sysExit_served (g.setArg k.current 1 exitBadCode) h
    exact hs
  · rename_i hcode
    have hlt : (k.pcbs k.current).context.regs.eax.toNat < 13 := Nat.lt_of_not_le hcode
    generalize (k.pcbs k.current).context.regs.eax.toNat = n at h hlt
    interval_cases n
    · exact sysExit_served g h
    · exact sysRead_served h
    · exact (Served.refl k).of_queues (sysWrite_queues (UpTo.plain_ok h))
    · exact sysFork_served g (UpTo.plain_ok h)
    · exact (Served.refl k).of_queues (sysExec_queues (UpTo.plain_ok h))
    · exact sysKill_served g h
    · exact sysWait_served h
    · exact sysSleep_served g.current_unready h
    · exact Except.ok.inj (UpTo.plain_ok h) ▸ Served.refl k
    · exact Except.ok.inj (UpTo.plain_ok h) ▸ Served.refl k
    · exact Except.ok.inj (UpTo.plain_ok h) ▸ Served.refl k
    · exact (Served.refl k).of_queues (sysMmap_queues (UpTo.plain_ok h))
    · cases h

theorem handle_served {cause : Cause} (g : Good k) (h : UpTo.handle k cause = .ok r) :
    Served k r.1 := by
  cases cause with
  | syscall keys => exact sysIsr_served g h
  | clock => exact clkIsr_served g h
  | serial pending =>
      exact sioIsr_served pending g (Served.refl k) (fun _ hx => hx) (UpTo.plain_ok h)
  | keyboard code => exact Except.ok.inj h ▸ Served.refl k
  | pageFault => exact pageFaultIsr_served g h

end Handlers

/-! ## No overtaking -/

/-- In the course of the event `_dispatch` is called, in the state `k₁`. -/
def Dispatching (k : Kernel) : Event → Kernel → Prop
  | .interrupt frame cause, k₁ => UpTo.handle (isrSave k frame) cause = .ok (k₁, true)
  | .store _ _, _ => False

/-- In the course of the event `_dispatch` is called, in the state `k₁`,
and takes `p` from `_ready[prio]`. -/
structure Takes (k : Kernel) (e : Event) (k₁ : Kernel) (prio : Fin nPrios) (p : PcbId) :
    Prop where
  calls : Dispatching k e k₁
  front : ∃ k', dispatch k₁ = .ok k' ∧ k'.current = p
    ∧ k₁.on (.ready prio) = p :: k'.on (.ready prio)

theorem Dispatching.served {k₁ : Kernel} (g : Good k) (h : Dispatching k e k₁) :
    Served k k₁ := by
  cases e with
  | store a b => cases h
  | interrupt frame cause => exact handle_served (g.isrSave frame) h

/-- A process that has been taken runs, and those who were behind it are
still there. -/
theorem Takes.after {k₁ : Kernel} {prio : Fin nPrios} (h : Takes k e k₁ prio p) :
    ∃ k', step k e = .ok k' ∧ k'.current = p
      ∧ k₁.on (.ready prio) = p :: k'.on (.ready prio) := by
  cases e with
  | store a b => cases h.calls
  | interrupt frame cause =>
      obtain ⟨k₂, hd, hcur, hfront⟩ := h.front
      have hcalls : UpTo.handle (isrSave k frame) cause = .ok (k₁, true) := h.calls
      refine ⟨isrRestore k₂, ?_, hcur, hfront⟩
      rw [step, UpTo.handle_eq, hcalls, ok_bind, UpTo.finish, hd, ok_bind]

theorem step_served (g : Good k) (h : step k e = .ok k') : Served k k' := by
  cases e with
  | store a b => exact Except.ok.inj h ▸ Served.refl k
  | interrupt frame cause =>
      obtain ⟨k₂, hk₂, h⟩ := bind_eq_ok.mp h
      rw [UpTo.handle_eq] at hk₂
      obtain ⟨⟨k₁, d⟩, hk₁, hk₂⟩ := bind_eq_ok.mp hk₂
      have hs : Served k k₁ := handle_served (g.isrSave frame) hk₁
      rw [← Except.ok.inj h]
      cases d with
      | true => exact (hs.dispatch hk₂).of_queues rfl
      | false => exact Except.ok.inj hk₂ ▸ hs

/-- As long as `q` is on the ready queue, `p` is not ahead of it. -/
theorem ready_ahead {s s' : Kernel} {q : PcbId} {prio : Fin nPrios} (hne : p ≠ q) (g : Good s)
    (ha : Ahead q p (s.on (.ready prio))) (hrun : Steps step s tr s')
    (hq : ∀ x ∈ tr.map Prod.fst ++ [s'], q ∈ x.on (.ready prio)) :
    Good s' ∧ Ahead q p (s'.on (.ready prio)) := by
  induction hrun with
  | refl => exact ⟨g, ha⟩
  | @tail tr s₁ s₂ e _ hst ih =>
      rw [List.map_append] at hq
      obtain ⟨g₁, ha₁⟩ := ih fun x hx => hq x (List.mem_append_left _ hx)
      have hq₂ : q ∈ s₂.on (.ready prio) := hq s₂ (by simp)
      exact ⟨g₁.step hst, ha₁.follows (g₁.placed.nodup _) hne (step_served g₁ hst prio) hq₂⟩

/-- `_dispatch` takes a process from the best ready queue that is not
empty, and whoever is on that queue then has left it before the same
process is taken from it again. In the beginning nobody is left ready. -/
theorem round_robin {s : Kernel} (h0 : init image mm pages = .ok k₀)
    (hrun : Steps step k₀ tr s) :
    (∀ prio, k₀.on (.ready prio) = [])
    ∧ (∀ e s₁ s₂, Dispatching s e s₁ → dispatch s₁ = .ok s₂ →
      ∃ prio p, Takes s e s₁ prio p ∧ ∀ prio' < prio, s₁.on (.ready prio') = [])
    ∧ ∀ e s₁ prio p q k tr' s' e' s₁', Takes s e s₁ prio p → step s e = .ok k →
      q ∈ s₁.on (.ready prio) → Steps step k tr' s' → Takes s' e' s₁' prio p →
      ∃ x ∈ tr'.map Prod.fst ++ [s', s₁'], q ∉ x.on (.ready prio) := by
  refine ⟨fun prio => init_on h0 (by simp) (by simp) (by simp), fun e s₁ s₂ hcalls hd => ?_, ?_⟩
  · obtain ⟨prio, p, hd'⟩ := dispatch_eq hd
    exact ⟨prio, p, ⟨hcalls, s₂, hd, hd'.current, hd'.front⟩, hd'.best⟩
  intro e s₁ prio p q k tr' s' e' s₁' ht hst hq hlater ht'
  obtain ⟨k₁, hst₁, hcur, hfront⟩ := ht.after
  obtain rfl := Except.ok.inj (hst₁.symm.trans hst)
  have g : Good k₁ := (reachable_good h0 hrun).step hst
  have hp : p ∉ k₁.on (.ready prio) := hcur ▸ g.current_not_on _
  by_contra hno
  have hstay : ∀ x ∈ tr'.map Prod.fst ++ [s'], q ∈ x.on (.ready prio) := fun x hx =>
    by_contra fun hc => hno ⟨x, by rw [List.append_cons]; exact List.mem_append_left _ hx, hc⟩
  have hstay' : q ∈ s₁'.on (.ready prio) := by_contra fun hc => hno ⟨s₁', by simp, hc⟩
  have hq₀ : q ∈ k₁.on (.ready prio) := hstay k₁ hlater.start_mem
  have hne : p ≠ q := fun he => hp (he ▸ hq₀)
  have ha : Ahead q p (k₁.on (.ready prio)) := ⟨hq₀, fun hc => absurd hc hp⟩
  obtain ⟨g', ha'⟩ := ready_ahead hne g ha hlater hstay
  -- when `p` is taken again it is at the front, so `q` cannot be ahead of it
  have ha₁ := ha'.follows (g'.placed.nodup _) hne (ht'.calls.served g' prio) hstay'
  obtain ⟨k₂, hst₂, hcur₂, hfront₂⟩ := ht'.after
  have g₂ := g'.step hst₂
  have hnd : (p :: k₂.on (.ready prio)).Nodup :=
    List.nodup_cons.mpr ⟨hcur₂ ▸ g₂.current_not_on _, g₂.placed.nodup _⟩
  rw [hfront₂] at ha₁
  exact ha₁.not_head hnd

/-- The test for `Takes`. -/
def takes (k : Kernel) (frame : Frame) (cause : Cause) (prio : Fin nPrios) (p q : PcbId) : Bool :=
  okAnd (UpTo.handle (isrSave k frame) cause) fun r =>
    r.2 && decide (q ∈ r.1.on (.ready prio)) && okAnd (dispatch r.1) fun k' =>
      decide (k'.current = p ∧ r.1.on (.ready prio) = p :: k'.on (.ready prio))

theorem of_takes {cause : Cause} {prio : Fin nPrios} {q : PcbId}
    (h : takes k frame cause prio p q = true) :
    ∃ k₁, Takes k (.interrupt frame cause) k₁ prio p ∧ q ∈ k₁.on (.ready prio) := by
  obtain ⟨⟨k₁, d⟩, hk₁, h⟩ := of_okAnd h
  rw [Bool.and_eq_true, Bool.and_eq_true] at h
  obtain ⟨⟨hd, hq⟩, h⟩ := h
  obtain ⟨k', hk', h⟩ := of_okAnd h
  obtain rfl : d = true := hd
  exact ⟨k₁, ⟨hk₁, k', hk', of_decide_eq_true h⟩, of_decide_eq_true hq⟩

/-- `init` and its two children yield in turn. -/
theorem round_robin_two : ∃ k₀ tr s s₁ k tr' s' s₁', init someImage lowPageUsed 0 = .ok k₀
    ∧ Steps step k₀ tr s ∧ Takes s (call 7 0 0 0) s₁ 0 1 ∧ 2 ∈ s₁.on (.ready 0)
    ∧ step s (call 7 0 0 0) = .ok k ∧ Steps step k tr' s'
    ∧ Takes s' (call 7 0 0 0) s₁' 0 1
    ∧ ∃ x ∈ tr'.map Prod.fst ++ [s', s₁'], 2 ∉ x.on (.ready 0) := by
  obtain ⟨k₀, tr, s, h0, hrun, -, ht⟩ := run_of_test [call 3 0 0 0, call 3 0 0 0]
    (fun s => takes s (callFrame 7 0 0 0) (.syscall []) 0 1 2
      && okAnd (step s (call 7 0 0 0)) fun k =>
        okAnd (run step k [call 7 0 0 0, call 7 0 0 0]) fun s' =>
          takes s' (callFrame 7 0 0 0) (.syscall []) 0 1 2) (by decide +kernel)
  rw [Bool.and_eq_true] at ht
  obtain ⟨s₁, ht₁, hq⟩ := of_takes ht.1
  obtain ⟨k, hk, ht⟩ := of_okAnd ht.2
  obtain ⟨s', hs', ht⟩ := of_okAnd ht
  obtain ⟨s₁', ht₁', -⟩ := of_takes ht
  obtain ⟨tr', hlater, -⟩ := steps_of_run hs'
  have hall := (round_robin h0 hrun).2.2 _ s₁ 0 1 2 k tr' s' _ s₁' ht₁ hk hq hlater ht₁'
  exact ⟨k₀, tr, s, s₁, k, tr', s', s₁', h0, hrun, ht₁, hq, hk, hlater, ht₁', hall⟩

end SpKernel
