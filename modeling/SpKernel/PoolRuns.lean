import SpKernel.IoObjects
import SpKernel.Lib.Trace

/-!
# The pools of the I/O layer over time

A pool from its initialisation on, through any calls of `_io_grab_next_*`
and any slots reset by `_io_*_init_null`. The search goes once around the
table, from wherever the cursor is, so it meets a slot that is free if
there is one (`Pool.grabNext_right`), by the library on cyclic search. A
slot that has been grabbed stays in use until it is reset, and is not
found again before that (`grabs_reset_between`).

`PoolSound` is the statement for one of the five functions. They are one
definition over a class of objects, and `LawfulIoObject` has what the
proofs need of a kind: that setting its handle and initialising it leave
the handle that was given. `pool_sound` is proved over the class and
`object_pools_sound` takes its five instances.
-/

namespace SpKernel

open Function (update_self update_of_ne)
open Lib

/-! ## The five functions -/

def ioGrabNextFilesystem (P : Pool 5 IoFilesystem) := P.grabNext

def ioGrabNextDevice (P : Pool 5 IoDevice) := P.grabNext

def ioGrabNextMiddleware (P : Pool 5 IoMiddleware) := P.grabNext

def ioGrabNextMessage (P : Pool 50 IoMessage) := P.grabNext

def ioGrabNextMount (P : Pool 5 IoMount) := P.grabNext

/-- The handle is a field of its own. -/
class LawfulIoObject (α : Type) [IoObject α] : Prop where
  handle_setHandle : ∀ (x : α) (h : IoHandle), IoObject.handle (IoObject.setHandle x h) = h
  handle_initHandle : ∀ h : IoHandle, IoObject.handle (IoObject.initHandle h : α) = h

instance : LawfulIoObject IoFilesystem := ⟨fun _ _ => rfl, fun _ => rfl⟩

instance : LawfulIoObject IoDevice := ⟨fun _ _ => rfl, fun _ => rfl⟩

instance : LawfulIoObject IoMiddleware := ⟨fun _ _ => rfl, fun _ => rfl⟩

instance : LawfulIoObject IoMessage := ⟨fun _ _ => rfl, fun _ => rfl⟩

instance : LawfulIoObject IoMount := ⟨fun _ _ => rfl, fun _ => rfl⟩

section Pool

variable {n : Nat} [NeZero n] {α : Type} [IoObject α]

/-- What `_io_grab_next_*` does to a pool. -/
abbrev Grab (n : Nat) (α : Type) := Pool n α → Except Fault (Status × Option (Fin n) × Pool n α)

/-- What happens to a pool. -/
inductive PoolCall (n : Nat) where
  | grab
  | reset (i : Fin n)

/-- The slot becomes what `_io_*_init_null` returns. -/
def Pool.reset (P : Pool n α) (i : Fin n) : Pool n α := P.set i (IoObject.initHandle ioHandleNull)

def poolStep (grab : Grab n α) (P : Pool n α) : PoolCall n → Except Fault (Pool n α)
  | .grab => do
      let (_, _, P) ← grab P
      .ok P
  | .reset i => .ok (P.reset i)

/-- The call returns the slot. -/
def Grabs (grab : Grab n α) (P : Pool n α) (i : Fin n) : Prop :=
  ∃ P', grab P = .ok (.success, some i, P')

/-- A slot that was free is in use now, and no other has changed. -/
structure SlotTaken (P : Pool n α) (i : Fin n) (P' : Pool n α) : Prop where
  wasFree : P.inUse i = false
  inUse : P'.inUse i = true
  others : ∀ j ≠ i, P'.slots j = P.slots j

/-- The call ends, and takes a slot or leaves the pool and its cursor alone; it
fails if all slots are in use, and only then. -/
def GrabRight (grab : Grab n α) (P : Pool n α) : Prop :=
  ∃ st slot P', grab P = .ok (st, slot, P')
    ∧ (st = .success ∧ (∃ i, slot = some i ∧ SlotTaken P i P')
      ∨ st = .outOfObjects ∧ slot = none ∧ P' = P)
    ∧ (st = .outOfObjects ↔ ∀ i, P.inUse i = true)

/-- Along any calls, from an initialised pool on, every grab does what it is to do,
and of two that return the same slot the slot has been reset in between. -/
def PoolSound (grab : Grab n α) : Prop :=
  ∀ (P : Pool n α) (calls : List (PoolCall n)), ∃ tr P',
    Steps (poolStep grab) P.init tr P' ∧ tr.map Prod.snd = calls
    ∧ (∀ x ∈ tr, x.2 = .grab → GrabRight grab x.1)
    ∧ ∀ tr₁ P₁ tr₂ P₂ tr₃, tr = tr₁ ++ (P₁, .grab) :: (tr₂ ++ (P₂, .grab) :: tr₃) →
      ∀ i, Grabs grab P₁ i → Grabs grab P₂ i → ∃ x ∈ tr₂, x.2 = .reset i

variable {P P' : Pool n α} {i : Fin n}

omit [NeZero n] in
theorem Pool.inUse_iff : P.inUse i = true ↔ IoObject.handle (P.slots i) ≠ ioHandleNull :=
  decide_eq_true_iff

omit [NeZero n] in
theorem Pool.inUse_congr (h : P'.slots i = P.slots i) : P'.inUse i = P.inUse i := by
  rw [Pool.inUse, Pool.inUse, h]

variable [LawfulIoObject α]

/-- The search of `_io_grab_next_*`, from any cursor and for any slots in use. -/
theorem Pool.grabNext_cases (P : Pool n α) :
    (∃ i P', P.grabNext = .ok (.success, some i, P') ∧ SlotTaken P i P')
    ∨ P.grabNext = .ok (.outOfObjects, none, P) ∧ ∀ i, P.inUse i = true := by
  rw [Pool.grabNext]
  rcases cyclicSearch_ends P.inUse P.next with ⟨i, hs, hi⟩ | ⟨hs, hall⟩
  · rw [hs]
    refine .inl ⟨i, _, rfl, hi, Pool.inUse_iff.mpr ?_, fun j hj => update_of_ne hj ..⟩
    rw [Pool.set_self, LawfulIoObject.handle_setHandle]
    decide
  · rw [hs]
    exact .inr ⟨rfl, hall⟩

theorem Pool.grabNext_right (P : Pool n α) : GrabRight Pool.grabNext P := by
  rcases P.grabNext_cases with ⟨i, P', hg, htaken⟩ | ⟨hg, hall⟩
  · refine ⟨_, _, _, hg, .inl ⟨rfl, i, rfl, htaken⟩, iff_of_false (by simp) fun hall => ?_⟩
    exact absurd ((hall i).symm.trans htaken.wasFree) (by simp)
  · exact ⟨_, _, _, hg, .inr ⟨rfl, rfl, rfl⟩, iff_of_true rfl hall⟩

/-- What is grabbed was free, and is in use afterwards. -/
theorem Grabs.taken (h : Grabs Pool.grabNext P i) :
    ∃ P', poolStep Pool.grabNext P .grab = .ok P' ∧ SlotTaken P i P' := by
  obtain ⟨P', hg⟩ := h
  rcases P.grabNext_cases with ⟨j, Q, hg', htaken⟩ | ⟨hg', -⟩
  · obtain ⟨-, hsame⟩ := Prod.mk.inj (Except.ok.inj (hg.symm.trans hg'))
    obtain ⟨hslot, rfl⟩ := Prod.mk.inj hsame
    obtain rfl := Option.some.inj hslot
    exact ⟨P', by rw [poolStep, hg, ok_bind], htaken⟩
  · cases hg.symm.trans hg'

theorem poolStep_total (P : Pool n α) (call : PoolCall n) :
    ∃ P', poolStep Pool.grabNext P call = .ok P' := by
  cases call with
  | grab =>
      obtain ⟨st, slot, P', hg, -⟩ := P.grabNext_right
      exact ⟨P', by rw [poolStep, hg, ok_bind]⟩
  | reset i => exact ⟨P.reset i, rfl⟩

theorem poolStep_inUse {call : PoolCall n} (hi : P.inUse i = true) (hne : call ≠ .reset i)
    (h : poolStep Pool.grabNext P call = .ok P') : P'.inUse i = true := by
  cases call with
  | grab =>
      rcases P.grabNext_cases with ⟨j, Q, hg, htaken⟩ | ⟨hg, -⟩
      · rw [poolStep, hg, ok_bind] at h
        obtain rfl := Except.ok.inj h
        have hij : i ≠ j := by
          rintro rfl
          exact absurd (hi.symm.trans htaken.wasFree) (by simp)
        rw [Pool.inUse_congr (htaken.others i hij), hi]
      · rw [poolStep, hg, ok_bind] at h
        obtain rfl := Except.ok.inj h
        exact hi
  | reset j =>
      have hij : i ≠ j := fun he => hne (he ▸ rfl)
      obtain rfl := Except.ok.inj h
      rw [Pool.reset, Pool.inUse_congr (Pool.set_other P _ hij), hi]

theorem grabs_reset_between {tr₁ tr₂ tr₃ : List (Pool n α × PoolCall n)} {P₁ P₂ : Pool n α}
    (h : Steps (poolStep Pool.grabNext) P (tr₁ ++ (P₁, .grab) :: (tr₂ ++ (P₂, .grab) :: tr₃)) P')
    (h₁ : Grabs Pool.grabNext P₁ i) (h₂ : Grabs Pool.grabNext P₂ i) :
    ∃ x ∈ tr₂, x.2 = .reset i := by
  obtain ⟨-, Q, hQ, hrest⟩ := h.split
  obtain ⟨hbetween, -⟩ := hrest.split
  obtain ⟨Q', hQ', htaken⟩ := h₁.taken
  obtain rfl := Except.ok.inj (hQ.symm.trans hQ')
  obtain ⟨_, -, hagain⟩ := h₂.taken
  by_contra hnone
  have hnever : ∀ x ∈ tr₂, x.2 ≠ .reset i := fun x hx he => hnone ⟨x, hx, he⟩
  have hused : P₂.inUse i = true :=
    hbetween.inv_of (C := fun _ call => call ≠ .reset i)
      (fun _ _ _ hi hne hst => poolStep_inUse hi hne hst) htaken.inUse hnever
  exact absurd (hused.symm.trans hagain.wasFree) (by simp)

theorem pool_sound : PoolSound (α := α) (n := n) Pool.grabNext := by
  intro P calls
  obtain ⟨tr, P', hsteps, hcalls⟩ := steps_of_total poolStep_total P.init calls
  refine ⟨tr, P', hsteps, hcalls, fun x _ _ => x.1.grabNext_right, ?_⟩
  rintro tr₁ P₁ tr₂ P₂ tr₃ rfl i h₁ h₂
  exact grabs_reset_between hsteps h₁ h₂

end Pool

/-- In each of the five pools no object is given out twice. -/
theorem object_pools_sound : PoolSound ioGrabNextFilesystem ∧ PoolSound ioGrabNextDevice
    ∧ PoolSound ioGrabNextMiddleware ∧ PoolSound ioGrabNextMessage
    ∧ PoolSound ioGrabNextMount :=
  ⟨pool_sound, pool_sound, pool_sound, pool_sound, pool_sound⟩

end SpKernel
