import SpKernel.Handles

/-!
# Calls of `IO_PROTOTYPE` that fail

`grab_handle` has changed the table when the pool of the type is asked
for an object, and no branch of `IO_PROTOTYPE` gives the handle back. So
a call that finds no object leaves its handle in use (`PrototypeAtomic`
is what it should do instead), unless it was in use before. Entry `p`,
which the search has found, stays free: the next call finds it again and
takes the same handle, and the handles do not run out.

`ioPrototype_outcomes` has the ways in which a call ends, and
`Io.reserve` is the state with the handle taken. `atomic_iff` is the
equivalence for a call that fails, and `prototype_atomic_iff` says it of
every state and every type, with what a run of failing calls comes to:
after the first one no further handle is lost
(`prototypeStep_hasHandle`).
-/

namespace SpKernel

open Function (update update_self update_of_ne)
open Lib

variable {io io' : Io} {type : IoObjType}

/-! ## What the call does -/

/-- Entry `i`, behind the free entry `p`, is taken for an object. -/
def Io.reserve (io : Io) (p i : Fin 100) (type : IoObjType) : Io :=
  { io with next := p }.setEntry i ⟨i.val, type, 0, none, 0⟩

/-- `IO_PROTOTYPE` finds no free entry, or the last one, or it constructs
an object for the entry behind the one it has found. -/
theorem ioPrototype_outcomes (io : Io) (type : IoObjType) :
    (∀ i, io.taken i = true) ∧ ioPrototype io type = .ok (.noMoreHandles, ioHandleNull, io)
    ∨ ∃ p, FirstFree io.taken io.next p
      ∧ (p.val = 99 ∧ ioPrototype io type = .error (.bounds 100)
        ∨ ∃ i : Fin 100, i.val = p.val + 1
          ∧ ioPrototype io type = constructAs (io.reserve p i type) type i.val) := by
  rcases cyclicSearch_finds io.taken io.next with ⟨p, hs, hp⟩ | ⟨hs, hall⟩
  · refine .inr ⟨p, hp, ?_⟩
    by_cases hlast : p.val = 99
    · exact .inl ⟨hlast, ioPrototype_last hs hlast⟩
    · have hlt := p.isLt
      obtain ⟨i, hi⟩ : ∃ i : Fin 100, i.val = p.val + 1 := ⟨⟨p.val + 1, by omega⟩, rfl⟩
      exact .inr ⟨i, hi, ioPrototype_found hs hi⟩
  · exact .inl ⟨hall, ioPrototype_full hs⟩

section Pool

variable {n : Nat} [NeZero n] {α : Type} [IoObject α]

theorem construct_failed (P : Pool n α) (ref : Fin n → IoRef) (put : Io → Pool n α → Io)
    {handle h : IoHandle} {st : Status} (hput : put io P = io)
    (hc : construct P ref put io handle = .ok (st, h, io')) (hst : st ≠ .success) : io' = io := by
  rw [construct] at hc
  rcases grabNext_spec P with ⟨i, P', hg, -⟩ | ⟨hg, -⟩
  · simp only [hg, liftFault, Except.mapError, ok_bind] at hc
    obtain ⟨j, -, hc⟩ := bind_eq_ok.mp hc
    cases hc
    exact absurd rfl hst
  · simp only [hg, liftFault, Except.mapError, ok_bind] at hc
    cases hc
    exact hput

end Pool

theorem constructAs_failed {handle h : IoHandle} {st : Status}
    (hc : constructAs io type handle = .ok (st, h, io')) (hst : st ≠ .success) : io' = io := by
  cases type with
  | filesystem =>
      exact construct_failed io.filesystems .filesystem ({ · with filesystems := · }) rfl hc hst
  | device => exact construct_failed io.devices .device ({ · with devices := · }) rfl hc hst
  | middleware =>
      exact construct_failed io.middlewares .middleware ({ · with middlewares := · }) rfl hc hst
  | message => exact construct_failed io.messages .message ({ · with messages := · }) rfl hc hst
  | mount => exact construct_failed io.mounts .mount ({ · with mounts := · }) rfl hc hst
  | filter | file | unknown =>
      cases hc
      rfl

/-! ## The handles in use -/

/-- A slot of the type is free. -/
def Io.HasObject (io : Io) (type : IoObjType) : Prop :=
  ∃ r : IoRef, r.type = type ∧ (io.slot r).handle = ioHandleNull

/-- The handles in use and the pools are those of before. -/
structure Untouched (io io' : Io) : Prop where
  handles : ∀ h, ioHandleIsValid io' h = ioHandleIsValid io h
  filesystems : io'.filesystems = io.filesystems
  devices : io'.devices = io.devices
  middlewares : io'.middlewares = io.middlewares
  messages : io'.messages = io.messages
  mounts : io'.mounts = io.mounts

/-- `IO_PROTOTYPE` returns, and it has changed nothing unless it has made
an object. -/
def PrototypeAtomic (io : Io) (type : IoObjType) : Prop :=
  ∃ st h io', ioPrototype io type = .ok (st, h, io') ∧ (st ≠ .success → Untouched io io')

/-- The first free entry, from `IO_HANDLE_NEXT` on, is not the last of the
table, and if there is no object the handle of the entry behind it is in
use. -/
def AtomicWhen (io : Io) (type : IoObjType) : Prop :=
  ∀ p, FirstFree io.taken io.next p →
    p.val < 99 ∧ (io.HasObject type ∨ ioHandleIsValid io (p.val + 1) = true)

theorem constructAs_success {i : Fin 100} (h : io.HasObject type) :
    ∃ io', constructAs io type i.val = .ok (.success, i.val, io') := by
  rcases constructAs_spec (tableIndex_val i) io type with ⟨r, io', hc, -⟩ | ⟨st, io', -, href⟩
  · exact ⟨io', hc⟩
  · obtain ⟨r, hr, hfree⟩ := h
    exact absurd hfree (href.exhausted r hr)

theorem constructAs_fails {i : Fin 100} (h : ¬io.HasObject type) :
    ∃ st, st ≠ .success ∧ constructAs io type i.val = .ok (st, ioHandleNull, io) := by
  rcases constructAs_spec (tableIndex_val i) io type with ⟨r, io', -, hc⟩ | ⟨st, io', hc, href⟩
  · exact absurd ⟨r, hc.type, hc.wasFree⟩ h
  · obtain rfl := constructAs_failed hc href.ne_success
    exact ⟨st, href.ne_success, hc⟩

theorem hasObject_reserve {p i : Fin 100} :
    (io.reserve p i type).HasObject type ↔ io.HasObject type := by
  have hslot : ∀ r, (io.reserve p i type).slot r = io.slot r := fun r => by cases r <;> rfl
  simp only [Io.HasObject, hslot]

/-- Only the handle of the entry that is taken can be new. -/
theorem untouched_reserve (p : Fin 100) (type : IoObjType) {i : Fin 100} :
    Untouched io (io.reserve p i type) ↔ ioHandleIsValid io i.val = true := by
  have hi : ioHandleIsValid (io.reserve p i type) i.val = true := by
    rw [ioHandleIsValid_eq]
    refine ⟨i, tableIndex_val i, ?_⟩
    simp only [Io.reserve, Io.setEntry, update_self]
  refine ⟨fun h => (h.handles i.val).symm.trans hi,
    fun hv => ⟨fun h => ?_, rfl, rfl, rfl, rfl, rfl⟩⟩
  by_cases hh : h = (i.val : Int)
  · rw [hh, hi, hv]
  · simp only [ioHandleIsValid]
    cases hx : tableIndex h with
    | error f => rfl
    | ok j =>
        have hj : j ≠ i := by
          rintro rfl
          exact hh (tableIndex_eq.mp hx)
        simp only [Io.reserve, Io.setEntry, update_of_ne hj]

theorem atomic_iff : PrototypeAtomic io type ↔ AtomicWhen io type := by
  rcases ioPrototype_outcomes io type with ⟨hall, hp⟩ | ⟨p, hp, ⟨hlast, he⟩ | ⟨i, hi, he⟩⟩
  · refine iff_of_true ⟨_, _, _, hp, fun _ => ⟨fun _ => rfl, rfl, rfl, rfl, rfl, rfl⟩⟩ ?_
    intro p hfree
    have := hfree.1
    rw [hall p] at this
    cases this
  · refine iff_of_false ?_ fun h => ?_
    · rintro ⟨st, h, io', hc, -⟩
      rw [he] at hc
      cases hc
    · have := (h p hp).1
      omega
  · have hhandle : (p.val : Int) + 1 = (i.val : Int) := by omega
    have hwhen : AtomicWhen io type ↔ io.HasObject type ∨ ioHandleIsValid io i.val = true := by
      rw [← hhandle]
      refine ⟨fun h => (h p hp).2, fun h p' hp' => ?_⟩
      obtain rfl := hp.unique hp'
      exact ⟨by omega, h⟩
    rw [hwhen, PrototypeAtomic, he]
    by_cases hobj : io.HasObject type
    · obtain ⟨io', hc⟩ := constructAs_success (i := i) (hasObject_reserve.mpr hobj)
      exact iff_of_true ⟨_, _, io', hc, fun hst => absurd rfl hst⟩ (.inl hobj)
    · obtain ⟨st, hst, hc⟩ := constructAs_fails (i := i) (mt hasObject_reserve.mp hobj)
      rw [or_iff_right hobj, ← untouched_reserve p type, hc]
      constructor
      · rintro ⟨_, _, _, hok, hunt⟩
        cases hok
        exact hunt hst
      · intro hunt
        exact ⟨_, _, _, rfl, fun _ => hunt⟩

/-! ## Failing again and again -/

/-- The state after a call, whatever it returns. -/
def prototypeStep (io : Io) (type : IoObjType) : Except IoFault Io := do
  let (_, _, io) ← ioPrototype io type
  .ok io

/-- `IO_PROTOTYPE` returns an error. -/
def PrototypeFails (io : Io) (type : IoObjType) : Prop :=
  ∃ st h io', ioPrototype io type = .ok (st, h, io') ∧ st ≠ .success

/-- There is a handle left. -/
def Io.HasHandle (io : Io) : Prop := ∃ i, io.taken i = false

/-- The free entry that the search has found is still free. -/
theorem prototypeStep_hasHandle (h : io.HasHandle) (hf : PrototypeFails io type)
    (hst : prototypeStep io type = .ok io') : io'.HasHandle := by
  obtain ⟨st, hd, io₁, hok, hne⟩ := hf
  simp only [prototypeStep, hok, ok_bind, Except.ok.injEq] at hst
  subst hst
  rcases ioPrototype_outcomes io type with ⟨-, hp⟩ | ⟨p, hp, ⟨-, he⟩ | ⟨i, hi, he⟩⟩
  · rw [hp] at hok
    cases hok
    exact h
  · rw [he] at hok
    cases hok
  · rw [he] at hok
    obtain rfl := constructAs_failed hok hne
    refine ⟨p, ?_⟩
    have hpi : p ≠ i := by
      rintro rfl
      omega
    have hsame : (io.reserve p i type).table p = io.table p := update_of_ne hpi ..
    rw [← hp.1, Io.taken, Io.taken, hsame]

/-- A call that fails leaves the handles and the pools as they are exactly
if it does not take the handle behind the last entry, and the handle it
takes was in use before or there was an object for it. Calls that fail, as
many as there may be, leave a handle. -/
theorem prototype_atomic_iff (io : Io) (type : IoObjType) :
    (PrototypeAtomic io type ↔ AtomicWhen io type)
    ∧ ∀ tr io', Steps prototypeStep io tr io' → (∀ x ∈ tr, PrototypeFails x.1 x.2) →
        io.HasHandle → io'.HasHandle :=
  ⟨atomic_iff, fun _ _ hrun hfail h =>
    hrun.inv_of (fun _ _ _ ht hf hst => prototypeStep_hasHandle ht hf hst) h hfail⟩

/-- After `IO_INIT` an unknown type is refused, and handle 1 is in use. -/
theorem prototype_leaks :
    ¬PrototypeAtomic (ioInit (Io.zero lowPageUsed)) .unknown
    ∧ ∃ h io', ioPrototype (ioInit (Io.zero lowPageUsed)) .unknown = .ok (.badType, h, io')
      ∧ ioHandleIsValid (ioInit (Io.zero lowPageUsed)) 1 = false
      ∧ ioHandleIsValid io' 1 = true := by
  have hp : ioPrototype (ioInit (Io.zero lowPageUsed)) .unknown
      = .ok (.badType, ioHandleNull,
          (ioInit (Io.zero lowPageUsed)).setEntry 1 ⟨1, .unknown, 0, none, 0⟩) :=
    ioPrototype_first rfl rfl .unknown
  refine ⟨?_, _, _, hp, rfl, rfl⟩
  rintro ⟨st, h, io', hok, hunt⟩
  rw [hp] at hok
  cases hok
  have := (hunt (by decide)).handles 1
  cases this

end SpKernel
