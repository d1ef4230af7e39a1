import SpKernel.Router

/-!
# Handles and the objects they stand for

`LiveObject` is what the caller of `IO_PROTOTYPE` gets: a handle, the
type asked for and the object. A session of calls keeps the list of those
that have not been deleted, and `HandlesSound` says that each is found
under its handle.

`grab_handle` looks for a free entry and then uses the one behind it. The
first entry is never used, so it is found free every time
(`grabHandle_first`), and every object gets the handle 1.
`handles_sound_iff` says that all is well as long as there is only one
object at a time.

The router does the same for five kinds of objects. `IoSlot` is a slot of
any of the pools, and a `PoolView` says for one pool how it is a part of
the state and what its slots hold; what is proved of a view is proved of
all five (`filesystemView` and the others). On this rest the
specifications of the two calls, `ioPrototype_spec` and `ioDelete_spec`:
what has happened, or that the call was refused and nothing has.

`AtMostOne` is the invariant of the sessions with one object at a time.
It is kept by a deletion and by a creation when there is none
(`AtMostOne.step`); a second object takes the handle of the first, or its
entry (`AtMostOne.overwritten`), which is the other direction.
-/

namespace SpKernel

open Function (update update_self update_of_ne)
open Lib

/-! ## Slots -/

/-- The contents of a slot of any pool. -/
inductive IoSlot where
  | filesystem (x : IoFilesystem)
  | device (x : IoDevice)
  | middleware (x : IoMiddleware)
  | message (x : IoMessage)
  | mount (x : IoMount)
deriving DecidableEq

def IoSlot.handle : IoSlot → IoHandle
  | .filesystem x => x.handle
  | .device x => x.handle
  | .middleware x => x.handle
  | .message x => x.handle
  | .mount x => x.handle

/-- The type of the objects of a pool. -/
def IoRef.type : IoRef → IoObjType
  | .filesystem _ => .filesystem
  | .device _ => .device
  | .middleware _ => .middleware
  | .message _ => .message
  | .mount _ => .mount

def Io.slot (io : Io) : IoRef → IoSlot
  | .filesystem i => .filesystem (io.filesystems.slots i)
  | .device i => .device (io.devices.slots i)
  | .middleware i => .middleware (io.middlewares.slots i)
  | .message i => .message (io.messages.slots i)
  | .mount i => .mount (io.mounts.slots i)

section Pool

variable {n : Nat} [NeZero n] {α : Type} [IoObject α]

/-- A slot that is not in use is taken, if there is one. -/
theorem grabNext_spec (P : Pool n α) :
    (∃ i P', P.grabNext = .ok (.success, some i, P')
      ∧ IoObject.handle (P.slots i) = ioHandleNull ∧ ∀ j ≠ i, P'.slots j = P.slots j)
    ∨ P.grabNext = .ok (.outOfObjects, none, P)
      ∧ ∀ i, IoObject.handle (P.slots i) ≠ ioHandleNull := by
  rw [Pool.grabNext]
  rcases cyclicSearch_ends P.inUse P.next with ⟨i, hs, hi⟩ | ⟨hs, hall⟩
  · rw [hs]
    refine .inl ⟨i, _, rfl, ?_, fun j hj => update_of_ne hj ..⟩
    simpa [Pool.inUse] using hi
  · rw [hs]
    exact .inr ⟨rfl, fun i => by simpa [Pool.inUse] using hall i⟩

/-- How a pool is seen in the whole state. -/
structure PoolView (get : Io → Pool n α) (put : Io → Pool n α → Io) (ref : Fin n → IoRef)
    (type : IoObjType) (mk : α → IoSlot) : Prop where
  slot : ∀ io i, io.slot (ref i) = mk ((get io).slots i)
  putSlot : ∀ io P i, (put io P).slot (ref i) = mk (P.slots i)
  putOther : ∀ io P r, (∀ i, r ≠ ref i) → (put io P).slot r = io.slot r
  putTable : ∀ io P, (put io P).table = io.table
  putNext : ∀ io P, (put io P).next = io.next
  handle : ∀ x, (mk x).handle = IoObject.handle x
  init : ∀ h, IoObject.handle (IoObject.initHandle h : α) = h
  refType : ∀ r, r.type = type ↔ ∃ i, r = ref i

variable {get : Io → Pool n α} {put : Io → Pool n α → Io} {ref : Fin n → IoRef}
  {type : IoObjType} {mk : α → IoSlot}

omit [NeZero n] in
/-- A slot that is as before in the pool is as before in the state. -/
theorem PoolView.put_same (v : PoolView get put ref type mk) {io : Io} {P : Pool n α} {r : IoRef}
    (h : ∀ i, r = ref i → P.slots i = (get io).slots i) : (put io P).slot r = io.slot r := by
  by_cases hin : ∃ i, r = ref i
  · obtain ⟨i, rfl⟩ := hin
    rw [v.putSlot, v.slot, h i rfl]
  · exact v.putOther _ _ _ fun i he => hin ⟨i, he⟩

/-- The object at `r` is now the one of entry `j`. -/
structure Created (io : Io) (j : Fin 100) (type : IoObjType) (handle : IoHandle) (r : IoRef)
    (io' : Io) : Prop where
  type : r.type = type
  wasFree : (io.slot r).handle = ioHandleNull
  handle : (io'.slot r).handle = handle
  others : ∀ r' ≠ r, io'.slot r' = io.slot r'
  table : io'.table = update io.table j { io.table j with object := some r }
  next : io'.next = io.next

/-- There is no object of this type, or none is left. -/
def Io.Exhausted (io : Io) (type : IoObjType) : Prop :=
  ∀ r : IoRef, r.type = type → (io.slot r).handle ≠ ioHandleNull

/-- There is no object for the call. -/
structure Refused (io : Io) (type : IoObjType) (st : Status) (io' : Io) : Prop where
  status : st = .outOfObjects ∨ st = .badType
  slot : io'.slot = io.slot
  table : io'.table = io.table
  next : io'.next = io.next
  exhausted : io.Exhausted type

theorem Refused.ne_success {io io' : Io} {type : IoObjType} {st : Status}
    (h : Refused io type st io') : st ≠ .success := by
  rintro rfl
  rcases h.status with hs | hs
  · cases hs
  · cases hs

theorem construct_spec (v : PoolView get put ref type mk) {io : Io} {handle : IoHandle}
    {j : Fin 100} (hj : tableIndex handle = .ok j) :
    (∃ r io', construct (get io) ref put io handle = .ok (.success, handle, io')
      ∧ Created io j type handle r io')
    ∨ ∃ st io', construct (get io) ref put io handle = .ok (st, ioHandleNull, io')
      ∧ Refused io type st io' := by
  rw [construct]
  rcases grabNext_spec (get io) with ⟨i, P', hg, hfree, hkeep⟩ | ⟨hg, hall⟩
  · refine .inl ⟨ref i, (put io (P'.set i (IoObject.initHandle handle))).setEntry j
      { (put io (P'.set i (IoObject.initHandle handle))).table j with object := some (ref i) },
      by simp only [hg, liftFault, Except.mapError, ok_bind, hj], ?_⟩
    refine ⟨(v.refType _).mpr ⟨i, rfl⟩, ?_, ?_, fun r' hr => ?_, ?_, v.putNext ..⟩
    · rw [v.slot, v.handle, hfree]
    · change ((put io _).slot (ref i)).handle = handle
      rw [v.putSlot, v.handle, Pool.set_self, v.init]
    · change (put io _).slot r' = io.slot r'
      refine v.put_same fun i' hi' => ?_
      have hne : i' ≠ i := fun he => hr (hi'.trans (he ▸ rfl))
      rw [Pool.set_other _ _ hne, hkeep i' hne]
    · change update (put io _).table j _ = _
      rw [v.putTable]
  · refine .inr ⟨_, put io (get io), by simp only [hg, liftFault, Except.mapError, ok_bind],
      .inl rfl, ?_, v.putTable .., v.putNext .., fun r hr => ?_⟩
    · funext r
      exact v.put_same fun _ _ => rfl
    · obtain ⟨i, rfl⟩ := (v.refType r).mp hr
      rw [v.slot, v.handle]
      exact hall i

omit [NeZero n] in
theorem reset_slot (v : PoolView get put ref type mk) (io : Io) (i : Fin n) :
    ((put io ((get io).set i (IoObject.initHandle ioHandleNull))).slot (ref i)).handle
      = ioHandleNull
    ∧ ∀ r ≠ ref i, (put io ((get io).set i (IoObject.initHandle ioHandleNull))).slot r
      = io.slot r := by
  refine ⟨by rw [v.putSlot, v.handle, Pool.set_self, v.init], fun r hr => ?_⟩
  refine v.put_same fun i' hi' => ?_
  have hne : i' ≠ i := fun he => hr (hi'.trans (he ▸ rfl))
  rw [Pool.set_other _ _ hne]

end Pool

theorem filesystemView : PoolView Io.filesystems ({ · with filesystems := · }) .filesystem
    .filesystem .filesystem where
  slot _ _ := rfl
  putSlot _ _ _ := rfl
  putOther _ _ r h := by cases r <;> first | rfl | exact absurd rfl (h _)
  putTable _ _ := rfl
  putNext _ _ := rfl
  handle _ := rfl
  init _ := rfl
  refType r := by cases r <;> simp [IoRef.type]

theorem deviceView : PoolView Io.devices ({ · with devices := · }) .device .device .device where
  slot _ _ := rfl
  putSlot _ _ _ := rfl
  putOther _ _ r h := by cases r <;> first | rfl | exact absurd rfl (h _)
  putTable _ _ := rfl
  putNext _ _ := rfl
  handle _ := rfl
  init _ := rfl
  refType r := by cases r <;> simp [IoRef.type]

theorem middlewareView : PoolView Io.middlewares ({ · with middlewares := · }) .middleware
    .middleware .middleware where
  slot _ _ := rfl
  putSlot _ _ _ := rfl
  putOther _ _ r h := by cases r <;> first | rfl | exact absurd rfl (h _)
  putTable _ _ := rfl
  putNext _ _ := rfl
  handle _ := rfl
  init _ := rfl
  refType r := by cases r <;> simp [IoRef.type]

theorem messageView : PoolView Io.messages ({ · with messages := · }) .message .message
    .message where
  slot _ _ := rfl
  putSlot _ _ _ := rfl
  putOther _ _ r h := by cases r <;> first | rfl | exact absurd rfl (h _)
  putTable _ _ := rfl
  putNext _ _ := rfl
  handle _ := rfl
  init _ := rfl
  refType r := by cases r <;> simp [IoRef.type]

theorem mountView : PoolView Io.mounts ({ · with mounts := · }) .mount .mount .mount where
  slot _ _ := rfl
  putSlot _ _ _ := rfl
  putOther _ _ r h := by cases r <;> first | rfl | exact absurd rfl (h _)
  putTable _ _ := rfl
  putNext _ _ := rfl
  handle _ := rfl
  init _ := rfl
  refType r := by cases r <;> simp [IoRef.type]

/-! ## What the calls do -/

variable {io io' : Io} {type : IoObjType}

theorem constructAs_spec {handle : IoHandle} {j : Fin 100} (hj : tableIndex handle = .ok j)
    (io : Io) (type : IoObjType) :
    (∃ r io', constructAs io type handle = .ok (.success, handle, io')
      ∧ Created io j type handle r io')
    ∨ ∃ st io', constructAs io type handle = .ok (st, ioHandleNull, io')
      ∧ Refused io type st io' := by
  cases type with
  | filesystem => exact construct_spec filesystemView hj
  | device => exact construct_spec deviceView hj
  | middleware => exact construct_spec middlewareView hj
  | message => exact construct_spec messageView hj
  | mount => exact construct_spec mountView hj
  | filter => exact .inr ⟨_, io, rfl, .inr rfl, rfl, rfl, rfl, fun r hr => by cases r <;> cases hr⟩
  | file => exact .inr ⟨_, io, rfl, .inr rfl, rfl, rfl, rfl, fun r hr => by cases r <;> cases hr⟩
  | unknown =>
      exact .inr ⟨_, io, rfl, .inr rfl, rfl, rfl, rfl, fun r hr => by cases r <;> cases hr⟩

/-- As long as the first entry is free every object gets the second. -/
theorem grabHandle_first (hn : io.next = 0) (h0 : (io.table 0).handle = ioHandleNull) :
    grabHandle io = .ok (.success, 1, io.setEntry 1 ⟨1, .unknown, 0, none, 0⟩) := by
  have hs : cyclicSearch io.taken io.next 100 io.next = some (some 0) := by
    rw [hn]
    exact cyclicSearch_first (by simp [Io.taken, h0])
  have hio : { io with next := 0 } = io := by
    rw [← hn]
  simp only [grabHandle, hs, hio]
  rfl

theorem ioPrototype_first (hn : io.next = 0) (h0 : (io.table 0).handle = ioHandleNull)
    (type : IoObjType) :
    ioPrototype io type = constructAs (io.setEntry 1 ⟨1, type, 0, none, 0⟩) type 1 := by
  have hset : (io.setEntry 1 ⟨1, .unknown, 0, none, 0⟩).setEntry 1
      { (io.setEntry 1 ⟨1, .unknown, 0, none, 0⟩).table 1 with type := type }
      = io.setEntry 1 ⟨1, type, 0, none, 0⟩ := by
    simp only [Io.setEntry, update_self, Function.update_idem]
  rw [ioPrototype, grabHandle_first hn h0, ← hset]
  rfl

theorem ioPrototype_spec (hn : io.next = 0) (h0 : (io.table 0).handle = ioHandleNull)
    (type : IoObjType) :
    (∃ r io', ioPrototype io type = .ok (.success, 1, io')
      ∧ Created (io.setEntry 1 ⟨1, type, 0, none, 0⟩) 1 type 1 r io')
    ∨ ∃ st io', ioPrototype io type = .ok (st, ioHandleNull, io')
      ∧ Refused (io.setEntry 1 ⟨1, type, 0, none, 0⟩) type st io' := by
  rw [ioPrototype_first hn h0]
  exact constructAs_spec rfl _ type

/-- The object at `r`, which entry `i` points to, is gone. -/
structure Deleted (io : Io) (i : Fin 100) (r : IoRef) (io' : Io) : Prop where
  entry : (io.table i).object = some r
  type : (io.table i).type = r.type
  handle : (io'.slot r).handle = ioHandleNull
  others : ∀ r' ≠ r, io'.slot r' = io.slot r'
  table : io'.table = update io.table i { io.table i with handle := ioHandleNull, locked := 0 }
  next : io'.next = io.next

theorem tableIndex_eq {h : Int} {i : Fin 100} : tableIndex h = .ok i ↔ h = (i.val : Int) := by
  rw [tableIndex]
  split
  · rename_i hb
    rw [Except.ok.injEq, Fin.ext_iff]
    change h.toNat = i.val ↔ _
    omega
  · rename_i hb
    have := i.isLt
    simp only [reduceCtorEq, false_iff]
    omega

@[simp] theorem tableIndex_val (i : Fin 100) : tableIndex i.val = .ok i := tableIndex_eq.mpr rfl

theorem ioHandleIsValid_eq {h : IoHandle} : ioHandleIsValid io h = true
    ↔ ∃ i : Fin 100, tableIndex h = .ok i ∧ (io.table i).handle = h := by
  rw [ioHandleIsValid]
  cases ht : tableIndex h with
  | error f => simp
  | ok i => simp

/-! `IO_PROTOTYPE`, by the free entry that is found -/

theorem ioPrototype_found {free j : Fin 100}
    (hs : cyclicSearch io.taken io.next 100 io.next = some (some free))
    (hj : j.val = free.val + 1) :
    ioPrototype io type = constructAs
      ({ io with next := free }.setEntry j ⟨j.val, type, 0, none, 0⟩) type j.val := by
  have hcast : ((free.val : Int) + 1) = (j.val : Int) := by omega
  have hset : ({ io with next := free }.setEntry j ⟨j.val, .unknown, 0, none, 0⟩).setEntry j
      { ({ io with next := free }.setEntry j ⟨j.val, .unknown, 0, none, 0⟩).table j with
        type := type } = { io with next := free }.setEntry j ⟨j.val, type, 0, none, 0⟩ := by
    simp only [Io.setEntry, update_self, Function.update_idem]
  rw [← hset]
  simp only [ioPrototype, grabHandle, hs, hcast, tableIndex_val, ok_bind]
  rfl

theorem ioPrototype_full (hs : cyclicSearch io.taken io.next 100 io.next = some none) :
    ioPrototype io type = .ok (.noMoreHandles, ioHandleNull, io) := by
  simp only [ioPrototype, grabHandle, hs, ok_bind]
  rfl

theorem ioPrototype_last {free : Fin 100}
    (hs : cyclicSearch io.taken io.next 100 io.next = some (some free)) (hj : free.val = 99) :
    ioPrototype io type = .error (.bounds 100) := by
  simp only [ioPrototype, grabHandle, hs, hj]
  rfl

theorem deleteObject_spec {e : IoEntry} (h : deleteObject io e = .ok (some io')) :
    ∃ r : IoRef, e.object = some r ∧ e.type = r.type ∧ (io'.slot r).handle = ioHandleNull
      ∧ (∀ r' ≠ r, io'.slot r' = io.slot r') ∧ io'.table = io.table ∧ io'.next = io.next := by
  rw [deleteObject] at h
  split at h
  · rename_i i ht ho
    cases h
    obtain ⟨h1, h2⟩ := reset_slot messageView io i
    exact ⟨_, ho, ht, h1, h2, rfl, rfl⟩
  · rename_i i ht ho
    cases h
    obtain ⟨h1, h2⟩ := reset_slot filesystemView io i
    exact ⟨_, ho, ht, h1, h2, rfl, rfl⟩
  · rename_i i ht ho
    cases h
    obtain ⟨h1, h2⟩ := reset_slot deviceView io i
    exact ⟨_, ho, ht, h1, h2, rfl, rfl⟩
  · rename_i i ht ho
    cases h
    obtain ⟨h1, h2⟩ := reset_slot mountView io i
    exact ⟨_, ho, ht, h1, h2, rfl, rfl⟩
  · rename_i i ht ho
    cases h
    obtain ⟨h1, h2⟩ := reset_slot middlewareView io i
    exact ⟨_, ho, ht, h1, h2, rfl, rfl⟩
  all_goals cases h

/-- `IO_DELETE` deletes an object or changes nothing. -/
theorem ioDelete_spec {h : IoHandle} {st : Status} (hd : ioDelete io h = .ok (st, io')) :
    (st = .notImplemented ∧ ∃ i r, tableIndex h = .ok i ∧ (io.table i).handle = h
      ∧ Deleted io i r io')
    ∨ st ≠ .notImplemented ∧ io' = io := by
  rw [ioDelete] at hd
  split at hd
  · rename_i hv
    obtain ⟨i, hi, hh⟩ := ioHandleIsValid_eq.mp hv
    rw [hi, ok_bind] at hd
    obtain ⟨x, hx, hd⟩ := bind_eq_ok.mp hd
    cases x with
    | none =>
        cases hd
        exact .inr ⟨by simp, rfl⟩
    | some io₁ =>
        cases hd
        obtain ⟨r, ho, ht, hr, hothers, htab, hnext⟩ := deleteObject_spec hx
        refine .inl ⟨rfl, i, r, hi, hh, ho, ht, hr, hothers, ?_, hnext⟩
        change update io₁.table i _ = _
        rw [htab]
  · cases hd
    exact .inr ⟨by simp, rfl⟩

/-! ## Sessions -/

/-- An object that has been prototyped: its handle, the type that was
asked for, and the slot it is in. -/
structure LiveObject where
  handle : IoHandle
  type : IoObjType
  object : IoRef
deriving DecidableEq

/-- The state of the I/O layer, and the objects that have not been
deleted. -/
structure IoSession where
  io : Io
  live : List LiveObject

inductive IoCall where
  | prototype (type : IoObjType)
  | delete (handle : IoHandle)

/-- The object an entry points to. -/
def Io.objectOf (io : Io) (handle : IoHandle) : Option IoRef :=
  match tableIndex handle with
  | .ok i => (io.table i).object
  | .error _ => none

/-- One call. -/
def ioStep (s : IoSession) : IoCall → Except IoFault IoSession
  | .prototype type => do
      let (st, handle, io) ← ioPrototype s.io type
      if st = .success then
        .ok ⟨io, s.live ++ ((io.objectOf handle).toList.map fun r => ⟨handle, type, r⟩)⟩
      else .ok ⟨io, s.live⟩
  | .delete handle => do
      let (st, io) ← ioDelete s.io handle
      if st = .notImplemented then
        .ok ⟨io, s.live.filter fun o => decide (some o.object ≠ s.io.objectOf handle)⟩
      else .ok ⟨io, s.live⟩

/-- The object is found under its handle. -/
def BoundTo (io : Io) (o : LiveObject) : Prop :=
  ∃ i : Fin 100, o.handle = (i.val : Int) ∧ (io.table i).handle = o.handle
    ∧ (io.table i).type = o.type ∧ (io.table i).object = some o.object
    ∧ (io.slot o.object).handle = o.handle

/-- Every live object has a handle of its own and is found under it. -/
structure HandlesSound (s : IoSession) : Prop where
  distinct : (s.live.map LiveObject.handle).Nodup
  bound : ∀ o ∈ s.live, BoundTo s.io o

/-- The call leaves the other live objects alone, and it finds no handle
only when there is none. -/
structure CallSound (s : IoSession) (c : IoCall) : Prop where
  others : ∀ s', ioStep s c = .ok s' → ∀ o ∈ s.live, o ∈ s'.live →
    (∀ i : Fin 100, o.handle = (i.val : Int) → s'.io.table i = s.io.table i)
      ∧ s'.io.slot o.object = s.io.slot o.object
  full : ∀ type h io', c = .prototype type →
    ioPrototype s.io type = .ok (.noMoreHandles, h, io') →
    ∀ i : Fin 100, ∃ o ∈ s.live, o.handle = (i.val : Int)

variable {s s' : IoSession} {c : IoCall}

/-- What `IO_PROTOTYPE` makes of a session in which the first entry is
free. -/
theorem ioStep_prototype {type : IoObjType} (hn : s.io.next = 0)
    (h0 : (s.io.table 0).handle = ioHandleNull) (hst : ioStep s (.prototype type) = .ok s') :
    (∃ r, Created (s.io.setEntry 1 ⟨1, type, 0, none, 0⟩) 1 type 1 r s'.io
      ∧ s'.live = s.live ++ [⟨1, type, r⟩])
    ∨ ∃ st, Refused (s.io.setEntry 1 ⟨1, type, 0, none, 0⟩) type st s'.io ∧ s'.live = s.live := by
  obtain ⟨⟨st, handle, io⟩, hp, hst⟩ := bind_eq_ok.mp hst
  rcases ioPrototype_spec hn h0 type with ⟨r, io₁, he, hc⟩ | ⟨st₁, io₁, he, hc⟩
  · rw [he] at hp
    cases hp
    simp only [↓reduceIte] at hst
    obtain rfl := Except.ok.inj hst
    have hobj : io.objectOf 1 = some r := by
      change (io.table 1).object = some r
      rw [hc.table, update_self]
    exact .inl ⟨r, hc, by rw [hobj]; rfl⟩
  · rw [he] at hp
    cases hp
    simp only [if_neg hc.ne_success] at hst
    obtain rfl := Except.ok.inj hst
    exact .inr ⟨st, hc, rfl⟩

/-- The object of a valid handle is gone, or nothing has happened. -/
theorem ioStep_delete {handle : IoHandle} (hst : ioStep s (.delete handle) = .ok s') :
    (∃ i r, tableIndex handle = .ok i ∧ (s.io.table i).handle = handle ∧ Deleted s.io i r s'.io
      ∧ s'.live = s.live.filter fun o => decide (o.object ≠ r))
    ∨ s' = s := by
  obtain ⟨⟨st, io⟩, hd, hst⟩ := bind_eq_ok.mp hst
  rcases ioDelete_spec hd with ⟨rfl, i, r, hi, hh, del⟩ | ⟨hne, rfl⟩
  · simp only [↓reduceIte] at hst
    have hobj : s.io.objectOf handle = some r := by
      simp only [Io.objectOf, hi, del.entry]
    obtain rfl := Except.ok.inj hst
    refine .inl ⟨i, r, hi, hh, del, ?_⟩
    simp only [hobj, ne_eq, Option.some.injEq]
  · simp only [if_neg hne] at hst
    exact .inr (Except.ok.inj hst).symm

/-- The states with at most one object: it has the second entry, and all
other slots are free. -/
structure AtMostOne (s : IoSession) : Prop where
  next : s.io.next = 0
  first : (s.io.table 0).handle = ioHandleNull
  unused : ∀ i : Fin 100, i ≠ 1 → (s.io.table i).handle ≠ (i.val : Int)
  live : (s.live = [] ∧ (∀ r, (s.io.slot r).handle = ioHandleNull)
      ∧ ((s.io.table 1).handle = 1 → (s.io.table 1).object = none))
    ∨ ∃ r : IoRef, s.live = [⟨1, r.type, r⟩] ∧ s.io.table 1 = ⟨1, r.type, 0, some r, 0⟩
      ∧ (s.io.slot r).handle = 1 ∧ ∀ r' ≠ r, (s.io.slot r').handle = ioHandleNull

theorem AtMostOne.sound (h : AtMostOne s) : HandlesSound s := by
  rcases h.live with ⟨hl, -, -⟩ | ⟨r, hl, ht, hr, -⟩
  · exact ⟨by simp [hl], by simp [hl]⟩
  · refine ⟨by simp [hl], fun o ho => ?_⟩
    rw [hl, List.mem_singleton] at ho
    rw [ho]
    exact ⟨1, rfl, by rw [ht], by rw [ht], by rw [ht], hr⟩

theorem AtMostOne.valid (h : AtMostOne s) {i : Fin 100} {handle : IoHandle}
    (hi : tableIndex handle = .ok i) (hh : (s.io.table i).handle = handle) : i = 1 := by
  by_contra hne
  exact h.unused i hne (hh.trans (tableIndex_eq.mp hi))

theorem AtMostOne.delete {handle : IoHandle} (h : AtMostOne s)
    (hst : ioStep s (.delete handle) = .ok s') : AtMostOne s' := by
  rcases ioStep_delete hst with ⟨i, r, hi, hh, del, hlive⟩ | rfl
  · obtain rfl := h.valid hi hh
    have hone : s'.io.table 1 = { s.io.table 1 with handle := ioHandleNull, locked := 0 } := by
      rw [del.table, update_self]
    have hother : ∀ j : Fin 100, j ≠ 1 → s'.io.table j = s.io.table j := fun j hj => by
      rw [del.table, update_of_ne hj]
    have hhandle : handle = 1 := tableIndex_eq.mp hi
    refine ⟨del.next.trans h.next, ?_, fun j hj => ?_, .inl ?_⟩
    · rw [hother 0 (by decide)]
      exact h.first
    · rw [hother j hj]
      exact h.unused j hj
    · rcases h.live with ⟨-, -, hnone⟩ | ⟨r', hl, ht, -, hfree⟩
      · have := hnone (hh.trans hhandle)
        rw [del.entry] at this
        cases this
      · have hr : r' = r := by
          have := del.entry
          rw [ht] at this
          exact Option.some.inj this
        subst hr
        refine ⟨?_, fun x => ?_, fun hc => ?_⟩
        · simp [hlive, hl]
        · by_cases hx : x = r'
          · rw [hx]
            exact del.handle
          · rw [del.others x hx]
            exact hfree x hx
        · rw [hone] at hc
          cases hc
  · exact h

theorem AtMostOne.prototype {type : IoObjType} (h : AtMostOne s) (hlive : s.live = [])
    (hst : ioStep s (.prototype type) = .ok s') : AtMostOne s' := by
  have hfree : ∀ r, (s.io.slot r).handle = ioHandleNull := by
    rcases h.live with ⟨-, hfree, -⟩ | ⟨r, hl, -⟩
    · exact hfree
    · rw [hlive] at hl
      cases hl
  rcases ioStep_prototype h.next h.first hst with ⟨r, hc, hl⟩ | ⟨st, hc, hl⟩
  · have htab : s'.io.table = update s.io.table 1 ⟨1, type, 0, some r, 0⟩ := by
      rw [hc.table]
      simp only [Io.setEntry, update_self, Function.update_idem]
    refine ⟨hc.next.trans h.next, ?_, fun j hj => ?_, .inr ⟨r, ?_, ?_, hc.handle, fun x hx => ?_⟩⟩
    · rw [htab, update_of_ne (by decide)]
      exact h.first
    · rw [htab, update_of_ne hj]
      exact h.unused j hj
    · rw [hl, hlive, hc.type]
      rfl
    · rw [htab, update_self, hc.type]
    · rw [hc.others x hx]
      exact hfree x
  · have htab : s'.io.table = update s.io.table 1 ⟨1, type, 0, none, 0⟩ := hc.table
    refine ⟨hc.next.trans h.next, ?_, fun j hj => ?_,
      .inl ⟨hl.trans hlive, fun x => ?_, fun _ => ?_⟩⟩
    · rw [htab, update_of_ne (by decide)]
      exact h.first
    · rw [htab, update_of_ne hj]
      exact h.unused j hj
    · rw [hc.slot]
      exact hfree x
    · rw [htab, update_self]

/-- A second object takes the handle of the first, or its entry. -/
theorem AtMostOne.overwritten {type : IoObjType} (h : AtMostOne s) (hlive : s.live ≠ [])
    (hst : ioStep s (.prototype type) = .ok s') : ¬HandlesSound s' := by
  intro hs
  rcases h.live with ⟨hl, -⟩ | ⟨r, hl, -⟩
  · exact hlive hl
  · rcases ioStep_prototype h.next h.first hst with ⟨r', -, hl'⟩ | ⟨st, hc, hl'⟩
    · have := hs.distinct
      rw [hl', hl] at this
      simp at this
    · obtain ⟨i, hi, -, -, hobj, -⟩ := hs.bound ⟨1, r.type, r⟩ (by rw [hl', hl]; simp)
      have hone : i = 1 := by
        apply Fin.ext
        have : (1 : Int) = (i.val : Int) := hi
        change i.val = 1
        omega
      rw [hone, hc.table] at hobj
      simp [Io.setEntry] at hobj

theorem AtMostOne.step (h : AtMostOne s) (hc : ∀ type, c = .prototype type → s.live = [])
    (hst : ioStep s c = .ok s') : AtMostOne s' := by
  cases c with
  | prototype type => exact h.prototype (hc type rfl) hst
  | delete handle => exact h.delete hst

theorem AtMostOne.callSound (h : AtMostOne s) (hc : ∀ type, c = .prototype type → s.live = []) :
    CallSound s c := by
  constructor
  · intro s' hst o ho ho'
    cases c with
    | prototype type =>
        rw [hc type rfl] at ho
        cases ho
    | delete handle =>
        rcases ioStep_delete hst with ⟨i, r, hi, hh, del, hlive⟩ | rfl
        · -- the only object is the one that is deleted
          obtain rfl := h.valid hi hh
          rcases h.live with ⟨hl, -⟩ | ⟨r', hl, ht, -⟩
          · rw [hl] at ho
            cases ho
          · have hr : r' = r := by
              have := del.entry
              rw [ht] at this
              exact Option.some.inj this
            rw [hl, List.mem_singleton] at ho
            rw [hlive, List.mem_filter, ho, hr] at ho'
            simp at ho'
        · exact ⟨fun _ _ => rfl, rfl⟩
  · intro type handle io' _ hp
    rcases ioPrototype_spec h.next h.first type with ⟨r, io₁, he, -⟩ | ⟨st₁, io₁, he, href⟩
    · rw [he] at hp
      cases hp
    · rw [he] at hp
      cases hp
      rcases href.status with hs | hs
      · cases hs
      · cases hs

theorem ioInit_atMostOne (mm : MemMgr) : AtMostOne ⟨ioInit (Io.zero mm), []⟩ := by
  refine ⟨rfl, rfl, fun i hi hc => ?_, .inl ⟨rfl, fun r => ?_, fun hc => ?_⟩⟩
  · change (if i.val < 99 then freeEntry else _).handle = (i.val : Int) at hc
    split at hc
    · have : (-1 : Int) = (i.val : Int) := hc
      omega
    · have : (0 : Int) = (i.val : Int) := hc
      omega
  · cases r <;> rfl
  · cases hc

/-- After `IO_INIT`, every live object has a handle of its own and keeps
it, in every state of a session, exactly if `IO_PROTOTYPE` is only called
when no object is live. -/
theorem handles_sound_iff {mm : MemMgr} {tr : List (IoSession × IoCall)}
    (hrun : Steps ioStep ⟨ioInit (Io.zero mm), []⟩ tr s) :
    ((∀ x ∈ tr, HandlesSound x.1 ∧ CallSound x.1 x.2) ∧ HandlesSound s)
      ↔ ∀ x ∈ tr, ∀ type, x.2 = .prototype type → x.1.live = [] := by
  suffices h : ((∀ x ∈ tr, ∀ type, x.2 = .prototype type → x.1.live = []) →
        (∀ x ∈ tr, HandlesSound x.1 ∧ CallSound x.1 x.2) ∧ AtMostOne s)
      ∧ ((∀ x ∈ tr, HandlesSound x.1) → HandlesSound s →
        ∀ x ∈ tr, ∀ type, x.2 = .prototype type → x.1.live = []) by
    exact ⟨fun hs => h.2 (fun x hx => (hs.1 x hx).1) hs.2,
      fun hc => ⟨(h.1 hc).1, (h.1 hc).2.sound⟩⟩
  induction hrun with
  | refl => exact ⟨fun _ => ⟨by simp, ioInit_atMostOne mm⟩, fun _ _ => by simp⟩
  | @tail tr t t' e _ hst ih =>
      simp only [List.forall_mem_append, List.forall_mem_singleton]
      constructor
      · rintro ⟨hpre, hlast⟩
        obtain ⟨hall, hone⟩ := ih.1 hpre
        exact ⟨⟨hall, hone.sound, hone.callSound hlast⟩, hone.step hlast hst⟩
      · rintro ⟨hall, ht⟩ ht'
        have hpre := ih.2 hall ht
        refine ⟨hpre, fun type he => ?_⟩
        by_contra hne
        rw [he] at hst
        exact (ih.1 hpre).2.overwritten hne hst ht'

/-- A mount is made and deleted, and then another. -/
theorem handles_sound_again : ∃ tr s, Steps ioStep ⟨ioInit (Io.zero lowPageUsed), []⟩ tr s
    ∧ tr.map Prod.snd = [.prototype .mount, .delete 1, .prototype .mount]
    ∧ s.live.length = 1 ∧ HandlesSound s := by
  have ht : okAnd (ioStep ⟨ioInit (Io.zero lowPageUsed), []⟩ (.prototype .mount)) (fun s₁ =>
      okAnd (ioStep s₁ (.delete 1)) fun s₂ => decide (s₂.live = [])
        && okAnd (ioStep s₂ (.prototype .mount)) fun s₃ => decide (s₃.live.length = 1)) = true := by
    decide +kernel
  obtain ⟨s₁, h₁, ht⟩ := of_okAnd ht
  obtain ⟨s₂, h₂, ht⟩ := of_okAnd ht
  rw [Bool.and_eq_true] at ht
  obtain ⟨s₃, h₃, hlen⟩ := of_okAnd ht.2
  have hrun := ((Steps.refl.tail h₁).tail h₂).tail h₃
  refine ⟨_, s₃, hrun, rfl, of_decide_eq_true hlen, ((handles_sound_iff hrun).mpr ?_).2⟩
  intro x hx type he
  simp only [List.nil_append, List.mem_append, List.mem_singleton] at hx
  rcases hx with (rfl | rfl) | rfl
  · rfl
  · cases he
  · exact of_decide_eq_true ht.1

/-- Two devices get the same handle. -/
theorem handles_shared : ∃ tr s, Steps ioStep ⟨ioInit (Io.zero lowPageUsed), []⟩ tr s
    ∧ tr.map Prod.snd = [.prototype .device, .prototype .device]
    ∧ s.live = [⟨1, .device, .device 0⟩, ⟨1, .device, .device 1⟩] ∧ ¬HandlesSound s := by
  have ht : okAnd (run ioStep ⟨ioInit (Io.zero lowPageUsed), []⟩
      [.prototype .device, .prototype .device]) (fun s =>
        decide (s.live = [⟨1, .device, .device 0⟩, ⟨1, .device, .device 1⟩])) = true := by
    decide +kernel
  obtain ⟨s, hs, ht⟩ := of_okAnd ht
  obtain ⟨tr, hrun, hes⟩ := steps_of_run hs
  have hlive := of_decide_eq_true ht
  refine ⟨tr, s, hrun, hes, hlive, fun hsound => ?_⟩
  have := hsound.distinct
  rw [hlive] at this
  simp at this

end SpKernel
