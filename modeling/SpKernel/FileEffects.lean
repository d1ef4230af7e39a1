import SpKernel.IoFile

/-!
# What the calls of the I/O layer change

One lemma for each call the file functions are made of. `IO_UPDATE`
changes one object and never a handle (`ioUpdate_inv`, `ioUpdate_same`),
`IO_EXECUTE` changes nothing: it asks for the filesystem through a `NULL`
pointer, so it refuses the message or fails (`ioExecute_quiet`).

`SameTables` says that two states have the same objects behind the same
handles, with other properties perhaps, and `Unmoved` the same of a state
with files. Both are kept through any sequence of the calls, so that the
functions on files, which look for the object of a handle again and
again, find the same one each time (`SameTables.denotes`). `SameStrings`
says that the pages of the strings are the same as well, which is all
that an update of a number or a buffer leaves to say.

The lemmas on sequencing turn a call in the style of the source, with its
early returns, into cases (`handled_ok`, `ignored_ok`).
-/

namespace SpKernel

open Function (update update_self update_of_ne)
open Lib

variable {io io' : Io} {handle : IoHandle} {which : IoProp} {value : Word} {length : Int}
  {st : Status} {ext : Extern} {mm mm' : MemMgr} {o o' : IoAny}

/-! ## Sequencing -/

theorem liftIo_ok {α : Type} {r : Except IoFault α} {a : α} : liftIo r = .ok a ↔ r = .ok a := by
  cases r with
  | error f => simp [liftIo, Except.mapError]
  | ok b => simp [liftIo, Except.mapError]

theorem liftFault_ok {α : Type} {r : Except Fault α} {a : α} :
    liftFault r = .ok a ↔ r = .ok a := by
  cases r with
  | error f => simp [liftFault, Except.mapError]
  | ok b => simp [liftFault, Except.mapError]

theorem handled_ok {r : FileResult} {k : FileSys → FileResult} {fs' : FileSys}
    (h : handled r k = .ok (st, fs')) :
    r = .ok (st, fs') ∧ st ≠ .success ∨ ∃ fs, r = .ok (.success, fs) ∧ k fs = .ok (st, fs') := by
  obtain ⟨⟨st₁, fs₁⟩, hr, h⟩ := bind_eq_ok.mp h
  by_cases hs : st₁ = .success
  · subst hs
    exact .inr ⟨fs₁, hr, h⟩
  · simp only [ne_eq, hs, not_false_eq_true, ↓reduceIte] at h
    cases h
    exact .inl ⟨hr, hs⟩

theorem ignored_ok {r : FileResult} {k : FileSys → FileResult} {fs' : FileSys}
    (h : ignored r k = .ok (st, fs')) :
    ∃ st₁ fs, r = .ok (st₁, fs) ∧ k fs = .ok (st, fs') := by
  obtain ⟨⟨st₁, fs₁⟩, hr, h⟩ := bind_eq_ok.mp h
  exact ⟨st₁, fs₁, hr, h⟩

/-! ## `IO_EXECUTE` -/

/-- The loop over the mounts with nowhere to store the handles. -/
theorem matchLoop_null {msg : Fin 50} {path index device : Word} : ∀ (fuel : Nat) (iter : Int),
    matchLoop io msg path index 0 device fuel iter = .ok (st, io') → st = .noMatch ∧ io' = io
  | 0, _, h => by cases h
  | fuel + 1, iter, h => by
      rw [matchLoop] at h
      split at h
      · obtain ⟨r, -, h⟩ := bind_eq_ok.mp h
        obtain ⟨m, -, h⟩ := bind_eq_ok.mp h
        obtain ⟨n, -, h⟩ := bind_eq_ok.mp h
        split at h
        · split at h
          · cases h
          · exact matchLoop_null fuel (iter + 1) h
        · exact matchLoop_null fuel (iter + 1) h
      · cases h
        exact ⟨rfl, rfl⟩

theorem matchPath_null {device : Word} (h : matchPath io handle 0 device = .ok (st, io')) :
    st = .noMatch ∧ io' = io := by
  obtain ⟨r, -, h⟩ := bind_eq_ok.mp h
  obtain ⟨msg, -, h⟩ := bind_eq_ok.mp h
  obtain ⟨index, -, h⟩ := bind_eq_ok.mp h
  exact matchLoop_null _ _ h

/-- `IO_EXECUTE` never succeeds, and it changes nothing when it returns. -/
theorem ioExecute_quiet {called : List Word} (h : ioExecute ext io handle = .ok (st, called, io')) :
    st ≠ .success ∧ called = [] ∧ io' = io := by
  rw [ioExecute] at h
  split at h
  · obtain ⟨i, -, h⟩ := bind_eq_ok.mp h
    by_cases ht : (io.table i).type ≠ .message
    · rw [if_pos ht] at h
      cases h
      exact ⟨by simp, rfl, rfl⟩
    · rw [if_neg ht] at h
      obtain ⟨⟨st₁, io₁⟩, hm, hret⟩ := bind_eq_ok.mp h
      obtain ⟨hst, hio⟩ := matchPath_null hm
      simp only [hst, hio, ne_eq, reduceCtorEq, not_false_eq_true, ↓reduceIte] at hret
      cases hret
      exact ⟨by simp, rfl, rfl⟩
  · cases h
    exact ⟨by simp, rfl, rfl⟩

theorem execute_quiet {fs fs' : FileSys} (h : fs.execute ext handle = .ok (st, fs')) :
    st ≠ .success ∧ fs' = fs := by
  obtain ⟨⟨st₁, called, io₁⟩, hx, h⟩ := bind_eq_ok.mp h
  obtain ⟨hne, rfl, rfl⟩ := ioExecute_quiet (liftIo_ok.mp hx)
  cases h
  exact ⟨hne, by simp⟩

theorem bind_execute {fs : FileSys} {k : Status × FileSys → FileResult} {r : Status × FileSys}
    (h : (fs.execute ext handle >>= k) = .ok r) : ∃ st, st ≠ .success ∧ k (st, fs) = .ok r := by
  obtain ⟨⟨st₁, fs₁⟩, hx, hk⟩ := bind_eq_ok.mp h
  obtain ⟨hne, hfs⟩ := execute_quiet hx
  rw [hfs] at hk
  exact ⟨st₁, hne, hk⟩

/-! ## Objects and slots -/

def IoSlot.any : IoSlot → IoAny
  | .filesystem x => .filesystem x
  | .device x => .device x
  | .middleware x => .middleware x
  | .message x => .message x
  | .mount x => .mount x

theorem object_eq_slot (io : Io) (r : IoRef) : io.object r = (io.slot r).any := by
  cases r
  all_goals rfl

theorem object_mm (io : Io) (mm : MemMgr) (r : IoRef) :
    ({ io with mm := mm } : Io).object r = io.object r := by
  cases r
  all_goals rfl

theorem slot_handle (io : Io) (r : IoRef) : (io.slot r).handle = (io.object r).handle := by
  cases r
  all_goals rfl

/-- The type of an object. -/
def IoAny.type : IoAny → IoObjType
  | .filesystem _ => .filesystem
  | .device _ => .device
  | .middleware _ => .middleware
  | .message _ => .message
  | .mount _ => .mount

theorem object_type (io : Io) (r : IoRef) : (io.object r).type = r.type := by
  cases r
  all_goals rfl

theorem putObject_self {r : IoRef} (h : o.type = r.type) : (io.putObject r o).object r = o := by
  cases r
  all_goals
    cases o
    all_goals cases h
    simp only [Io.putObject, Io.object, Pool.set_self]

theorem putObject_other {r r' : IoRef} (h : r' ≠ r) :
    (io.putObject r o).object r' = io.object r' := by
  cases r
  all_goals
    cases o
    all_goals
      cases r'
      all_goals
        first
          | rfl
          | exact congrArg _ (Pool.set_other _ _ fun he => h (congrArg _ he))

theorem putObject_table {r : IoRef} : (io.putObject r o).table = io.table := by
  cases r
  all_goals
    cases o
    all_goals rfl

theorem putObject_next {r : IoRef} : (io.putObject r o).next = io.next := by
  cases r
  all_goals
    cases o
    all_goals rfl

/-! ## Properties -/

/-- A string property is set: the object has the string at `p`. -/
structure SetString (mm : MemMgr) (o : IoAny) (which : IoProp) (value : Word) (length : Int)
    (old p : Word) (room : Nat) (mm' : MemMgr) : Prop where
  string : o.string which = some old
  set : setString mm old value room = .ok (p, mm')
  roomFor : o.roomFor mm value length = .ok room
  nonneg : 0 ≤ length
  handle : 0 ≤ o.handle

/-- The object has the same handle and the same strings. -/
structure SameStrings (o o' : IoAny) : Prop where
  type : o'.type = o.type
  handle : o'.handle = o.handle
  strings : o'.strings = o.strings

theorem SameStrings.rfl : SameStrings o o := ⟨Eq.refl _, Eq.refl _, Eq.refl _⟩

theorem setprop_closed (h : o.setprop mm which value length = .ok (st, o', mm'))
    (hl : ¬length < 0) (hh : o.handle < 0) : st ≠ .success ∧ mm' = mm ∧ o' = o := by
  cases o
  all_goals
    simp only [IoAny.handle] at hh
    simp only [IoAny.setprop, ioFsSetprop, ioDvSetprop, ioMdSetprop, ioMsgSetprop, ioMpSetprop,
      checked, hl, hh, ↓reduceIte] at h
    cases h
    exact ⟨by simp, rfl, rfl⟩

theorem setprop_other (h : o.setprop mm which value length = .ok (st, o', mm'))
    (hs : o.string which = none) : mm' = mm ∧ SameStrings o o' := by
  by_cases hl : length < 0
  · rw [IoAny.setprop_negative hl] at h
    cases h
    exact ⟨rfl, .rfl⟩
  by_cases hh : o.handle < 0
  · obtain ⟨-, rfl, rfl⟩ := setprop_closed h hl hh
    exact ⟨rfl, .rfl⟩
  cases o
  all_goals
    simp only [IoAny.handle] at hh
    simp only [IoAny.setprop, ioFsSetprop, ioDvSetprop, ioMdSetprop, ioMsgSetprop, ioMpSetprop,
      checked, hl, hh, ↓reduceIte] at h
    cases which
    all_goals
      first
        | cases h
          exact ⟨rfl, ⟨rfl, rfl, rfl⟩⟩
        | cases hs

theorem setprop_str {old : Word} (h : o.setprop mm which value length = .ok (st, o', mm'))
    (hs : o.string which = some old) :
    (∃ p room, SetString mm o which value length old p room mm' ∧ st = .success
      ∧ o' = o.withString which p)
    ∨ st ≠ .success ∧ mm' = mm ∧ o' = o ∧ (length < 0 ∨ o.handle < 0) := by
  by_cases hl : length < 0
  · rw [IoAny.setprop_negative hl] at h
    cases h
    exact .inr ⟨by simp, rfl, rfl, .inl hl⟩
  by_cases hh : o.handle < 0
  · obtain ⟨hst, hmm, ho⟩ := setprop_closed h hl hh
    exact .inr ⟨hst, hmm, ho, .inr hh⟩
  refine .inl ?_
  have hl' := not_lt.mp hl
  have hh' := not_lt.mp hh
  unfold IoAny.string at hs
  split at hs
  all_goals cases hs
  all_goals
    simp only [IoAny.handle] at hh
    simp only [IoAny.setprop, ioFsSetprop, ioDvSetprop, ioMdSetprop, ioMsgSetprop, ioMpSetprop,
      checked, hl, hh, ↓reduceIte] at h
    obtain ⟨⟨st₁, x, mm₁⟩, hx, h⟩ := bind_eq_ok.mp h
    cases h
    first
      | obtain ⟨n, hn, hx⟩ := bind_eq_ok.mp hx
        obtain ⟨⟨p, mm₂⟩, hset, hx⟩ := bind_eq_ok.mp hx
        cases hx
        exact ⟨p, n, ⟨rfl, hset, hn, hl', hh'⟩, rfl, rfl⟩
      | obtain ⟨⟨p, mm₂⟩, hset, hx⟩ := bind_eq_ok.mp hx
        cases hx
        exact ⟨p, _, ⟨rfl, hset, rfl, hl', hh'⟩, rfl, rfl⟩

theorem setprop_same (h : o.setprop mm which value length = .ok (st, o', mm')) :
    o'.type = o.type ∧ o'.handle = o.handle := by
  cases hs : o.string which with
  | none =>
      obtain ⟨-, hsame⟩ := setprop_other h hs
      exact ⟨hsame.type, hsame.handle⟩
  | some old =>
      rcases setprop_str h hs with ⟨p, room, -, -, rfl⟩ | ⟨-, -, rfl, -⟩
      · refine ⟨?_, IoAny.withString_handle⟩
        unfold IoAny.withString
        split
        all_goals rfl
      · exact ⟨rfl, rfl⟩

/-! ## `IO_UPDATE` -/

/-- The handle is that of entry `i`, which is not locked and has the object
in slot `r`. -/
structure Denotes (io : Io) (handle : IoHandle) (i : Fin 100) (r : IoRef) : Prop where
  index : tableIndex handle = .ok i
  valid : (io.table i).handle = handle
  unlocked : (io.table i).locked = 0
  type : (io.table i).type = r.type
  object : (io.table i).object = some r

/-- The handle is that of a message that can be updated. -/
def Usable (io : Io) (handle : IoHandle) : Prop :=
  ∃ i msg, Denotes io handle i (.message msg) ∧ 0 ≤ (io.messages.slots msg).handle

theorem Denotes.unique {i j : Fin 100} {r r' : IoRef} (h : Denotes io handle i r)
    (h' : Denotes io handle j r') : r = r' := by
  obtain rfl := Except.ok.inj (h.index.symm.trans h'.index)
  exact Option.some.inj (h.object.symm.trans h'.object)

theorem entryObject_some {e : IoEntry} {r : IoRef} :
    entryObject e = .ok (some r) ↔ e.type = r.type ∧ e.object = some r := by
  rw [entryObject]
  cases e.type
  all_goals
    cases e.object with
    | none =>
        cases r
        all_goals simp [IoRef.type]
    | some r' =>
        cases r
        all_goals
          cases r'
          all_goals simp [IoRef.type]

theorem ioUpdate_denotes {i : Fin 100} {r : IoRef} (h : Denotes io handle i r) :
    ioUpdate io handle which value length = (do
      let (st, o, mm) ← liftFault ((io.object r).setprop io.mm which value length)
      .ok (st, (io.object r).pageCalls io.mm which value length o,
        { io.putObject r o with mm := mm })) := by
  have hvalid : ioHandleIsValid io handle = true := ioHandleIsValid_eq.mpr ⟨i, h.index, h.valid⟩
  rw [ioUpdate, if_pos hvalid, h.index, ok_bind, if_neg (not_not.mpr h.unlocked),
    entryObject_some.mpr ⟨h.type, h.object⟩]
  rfl

/-- An update is made to the object of the handle, or it is refused. -/
theorem ioUpdate_inv {calls : List PageCall}
    (h : ioUpdate io handle which value length = .ok (st, calls, io')) :
    (calls = [] ∧ io' = io ∧ st ≠ .success ∧ ∀ i r, ¬Denotes io handle i r)
    ∨ ∃ i r o mm', Denotes io handle i r
      ∧ (io.object r).setprop io.mm which value length = .ok (st, o, mm')
      ∧ calls = (io.object r).pageCalls io.mm which value length o
      ∧ io' = { io.putObject r o with mm := mm' } := by
  by_cases hr : ∃ i r, Denotes io handle i r
  · obtain ⟨i, r, hr⟩ := hr
    rw [ioUpdate_denotes hr] at h
    obtain ⟨⟨st₁, o, mm₁⟩, hset, h⟩ := bind_eq_ok.mp h
    cases h
    exact .inr ⟨i, r, o, mm₁, hr, liftFault_ok.mp hset, rfl, rfl⟩
  · push Not at hr
    rw [ioUpdate] at h
    by_cases hv : ioHandleIsValid io handle = true
    · obtain ⟨i, hi, hh⟩ := ioHandleIsValid_eq.mp hv
      rw [if_pos hv, hi, ok_bind] at h
      by_cases hl : (io.table i).locked ≠ 0
      · rw [if_pos hl] at h
        cases h
        exact .inl ⟨rfl, rfl, by simp, hr⟩
      · rw [if_neg hl] at h
        obtain ⟨x, hx, h⟩ := bind_eq_ok.mp h
        cases x with
        | none =>
            cases h
            exact .inl ⟨rfl, rfl, by simp, hr⟩
        | some r =>
            obtain ⟨ht, ho⟩ := entryObject_some.mp hx
            exact absurd ⟨hi, hh, not_not.mp hl, ht, ho⟩ (hr i r)
    · rw [if_neg hv] at h
      cases h
      exact .inl ⟨rfl, rfl, by simp, hr⟩

/-- The same entries, and the same handles in the slots. -/
structure SameTables (io io' : Io) : Prop where
  table : io'.table = io.table
  next : io'.next = io.next
  handles : ∀ r, (io'.slot r).handle = (io.slot r).handle

theorem SameTables.refl (io : Io) : SameTables io io := ⟨rfl, rfl, fun _ => rfl⟩

theorem SameTables.trans {io'' : Io} (h : SameTables io io') (h' : SameTables io' io'') :
    SameTables io io'' :=
  ⟨h'.table.trans h.table, h'.next.trans h.next, fun r => (h'.handles r).trans (h.handles r)⟩

theorem SameTables.symm (h : SameTables io io') : SameTables io' io :=
  ⟨h.table.symm, h.next.symm, fun r => (h.handles r).symm⟩

theorem SameTables.mem {mm : MemMgr} : SameTables io { io with mm := mm } := by
  refine ⟨rfl, rfl, fun r => ?_⟩
  cases r
  all_goals rfl

theorem Denotes.congr {i : Fin 100} {r : IoRef} (ht : io'.table = io.table)
    (h : Denotes io handle i r) : Denotes io' handle i r := by
  refine ⟨h.index, ?_, ?_, ?_, ?_⟩
  all_goals rw [ht]
  · exact h.valid
  · exact h.unlocked
  · exact h.type
  · exact h.object

theorem Usable.congr (ht : io'.table = io.table)
    (hh : ∀ r, (io'.slot r).handle = (io.slot r).handle) (h : Usable io handle) :
    Usable io' handle := by
  obtain ⟨i, msg, hd, hle⟩ := h
  have hslot : (io'.messages.slots msg).handle = (io.messages.slots msg).handle :=
    hh (.message msg)
  exact ⟨i, msg, hd.congr ht, hslot ▸ hle⟩

theorem SameTables.denotes {i : Fin 100} {r : IoRef} (h : SameTables io io')
    (hr : Denotes io handle i r) : Denotes io' handle i r :=
  hr.congr h.table

theorem SameTables.usable (h : SameTables io io') (hu : Usable io handle) : Usable io' handle :=
  hu.congr h.table h.handles

theorem putObject_same {r : IoRef} (ht : o.type = r.type)
    (hh : o.handle = (io.object r).handle) : SameTables io (io.putObject r o) := by
  refine ⟨putObject_table, putObject_next, fun r' => ?_⟩
  rw [slot_handle, slot_handle]
  by_cases hr : r' = r
  · rw [hr, putObject_self ht, hh]
  · rw [putObject_other hr]

theorem ioUpdate_same {calls : List PageCall}
    (h : ioUpdate io handle which value length = .ok (st, calls, io')) : SameTables io io' := by
  rcases ioUpdate_inv h with ⟨-, rfl, -⟩ | ⟨i, r, o, mm', -, hset, -, rfl⟩
  · exact .refl io'
  · obtain ⟨ht, hh⟩ := setprop_same hset
    exact (putObject_same (ht.trans (object_type io r)) hh).trans .mem

/-! ## The calls with files -/

/-- The files, the entries and the handles in the slots are the same. -/
structure Unmoved (fs fs' : FileSys) : Prop where
  files : fs'.files = fs.files
  hasInit : fs'.hasInit = fs.hasInit
  tables : SameTables fs.io fs'.io

section Files

variable {fs fs' : FileSys} {loc : Locals}

theorem Unmoved.refl (fs : FileSys) : Unmoved fs fs := ⟨rfl, rfl, .refl _⟩

theorem Unmoved.trans {fs'' : FileSys} (h : Unmoved fs fs') (h' : Unmoved fs' fs'') :
    Unmoved fs fs'' :=
  ⟨h'.files.trans h.files, h'.hasInit.trans h.hasInit, h.tables.trans h'.tables⟩

theorem setMem_unmoved (fs : FileSys) (m : Mem) : Unmoved fs (fs.setMem m) := ⟨rfl, rfl, .mem⟩

theorem update_ok (h : fs.update handle which value length = .ok (st, fs')) :
    ∃ calls io', ioUpdate fs.io handle which value length = .ok (st, calls, io')
      ∧ fs' = { fs with io := io', pages := fs.pages ++ calls } := by
  obtain ⟨⟨st₁, calls, io₁⟩, hu, h⟩ := bind_eq_ok.mp h
  cases h
  exact ⟨calls, io₁, liftIo_ok.mp hu, rfl⟩

theorem update_unmoved (h : fs.update handle which value length = .ok (st, fs')) :
    Unmoved fs fs' := by
  obtain ⟨calls, io₁, hu, rfl⟩ := update_ok h
  exact ⟨rfl, rfl, ioUpdate_same hu⟩

theorem updateValint_unmoved (h : fs.updateValint loc handle which value = .ok (st, fs')) :
    Unmoved fs fs' :=
  (setMem_unmoved fs _).trans (update_unmoved h)

theorem updateIoctl_unmoved {c : Ioctl} (h : fs.updateIoctl loc handle c = .ok (st, fs')) :
    Unmoved fs fs' :=
  (setMem_unmoved fs _).trans (update_unmoved h)

theorem updateStr_ok (h : fs.updateStr handle which value = .ok (st, fs')) :
    ∃ n : Nat, fs.update handle which value n = .ok (st, fs') := by
  obtain ⟨n, -, h⟩ := bind_eq_ok.mp h
  exact ⟨n, h⟩

theorem updateStr_unmoved (h : fs.updateStr handle which value = .ok (st, fs')) :
    Unmoved fs fs' := by
  obtain ⟨n, h⟩ := updateStr_ok h
  exact update_unmoved h

end Files

/-- Addresses on the stack. -/
def someLocals : Locals := ⟨0x300000, 0x300010, 0x300020⟩

end SpKernel
