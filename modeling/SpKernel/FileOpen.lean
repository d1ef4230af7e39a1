import SpKernel.FileEffects

/-!
# Opening a file

`IoFileOpen` takes a file entry and a message before it knows whether
there is such a file, and it gives back the one or the other when there
is not, never both. `OpenAtomic` is what it should do. `IO_EXECUTE` never
succeeds, so no file is ever opened, and a call that returns has left
everything as it was only if it got no message in the first place
(`file_open_atomic_iff`).

What it gives back depends on where it stops, and there are many places.
`ioFileOpen_ok` has all exits, with what is in use at each:
`mountLoop_none`, `openCreate_ok` and `openRecursive_ok` are those of its
parts. `Spared` is the condition that is left, read off the tables: the
entry that is taken still has a message that is live, and no other can be
created.

A table that is full is a case of its own. The search for a free entry
then ends one behind the table, and the entry there is used
(`ioFileOpen_table`); `InTable` says of every step of the call that it is
about that entry, whatever is in memory there.
-/

namespace SpKernel

open Function (update update_self update_of_ne)
open Lib

/-! ## What opening is -/

/-- The entry of `FILETABLE` is in use. Before the first call none is. -/
def FileSys.FileInUse (fs : FileSys) (i : Fin 50) : Prop :=
  fs.hasInit = true ∧ (fs.files i).handle ≠ -1

/-- The same files, handles and messages are live. A live handle is one
with its type and its object, a live message one with its handle. -/
structure SameLive (fs fs' : FileSys) : Prop where
  files : ∀ i, fs'.FileInUse i ↔ fs.FileInUse i
  handles : ∀ j, fs.io.taken j = true ∨ fs'.io.taken j = true → fs'.io.table j = fs.io.table j
  messages : ∀ k, (fs'.io.messages.slots k).handle = (fs.io.messages.slots k).handle

/-- One more file is in use, `*out` is its index, and it has a live
message. -/
def Opened (fs : FileSys) (out : Word) (fs' : FileSys) : Prop :=
  ∃ i, ¬fs.FileInUse i ∧ fs'.FileInUse i ∧ (∀ j ≠ i, fs'.FileInUse j ↔ fs.FileInUse j)
    ∧ load32 fs'.mem out = BitVec.ofNat 32 i ∧ Usable fs'.io (fs'.files i).messageIn

/-- `IoFileOpen` opens a file or leaves everything as it was. -/
def OpenAtomic (fs : FileSys) (st : Status) (out : Word) (fs' : FileSys) : Prop :=
  if st = .success then Opened fs out fs' else SameLive fs fs'

/-- The entry `grab_handle` finds free. -/
def Io.foundFree (io : Io) : Option (Fin 100) :=
  (cyclicSearch io.taken io.next 100 io.next).join

/-- There is no message to be had and no handle is lost in asking for one:
all handles are taken, or all messages are, and the entry behind the free
one is as a failed `IO_PROTOTYPE` has left it before. -/
def CreatesNone (io : Io) : Prop :=
  match io.foundFree with
  | none => True
  | some free => (∀ k, (io.messages.slots k).handle ≠ ioHandleNull)
      ∧ ∃ j : Fin 100, j.val = free.val + 1 ∧ io.table j = ⟨j.val, .message, 0, none, 0⟩

/-- The free entry still has a message that is live, and no other is
created. -/
def Spared (fs : FileSys) (strat : IoCreatePolicy) : Prop :=
  strat ≠ .createRecursive ∧ CreatesNone fs.io
    ∧ ∃ i, fs.firstFree = some i ∧ Usable fs.io (fs.files i).messageIn

/-! ## Asking for a message -/

variable {io io' : Io} {type : IoObjType} {st : Status} {handle : IoHandle}

theorem foundFree_eq {x : Option (Fin 100)}
    (hs : cyclicSearch io.taken io.next 100 io.next = some x) : io.foundFree = x := by
  rw [Io.foundFree, hs, Option.join_some]

/-- A request for a message that changes nothing, one that creates a
message, and one that leaves an entry without an object. -/
theorem ioPrototype_cases (h : ioPrototype io .message = .ok (st, handle, io')) :
    (CreatesNone io ∧ st ≠ .success ∧ io'.table = io.table
      ∧ ∀ r, (io'.slot r).handle = (io.slot r).handle)
    ∨ (¬CreatesNone io ∧ st = .success ∧ ∃ k, (io.messages.slots k).handle = ioHandleNull
      ∧ (io'.messages.slots k).handle ≠ ioHandleNull)
    ∨ ¬CreatesNone io ∧ st ≠ .success ∧ ∃ j, io'.taken j = true ∧ io'.table j ≠ io.table j := by
  rcases cyclicSearch_ends io.taken io.next with ⟨free, hs, -⟩ | ⟨hs, -⟩
  · by_cases hlast : free.val = 99
    · rw [ioPrototype_last hs hlast] at h
      cases h
    have hlt := free.isLt
    obtain ⟨j, hj⟩ : ∃ j : Fin 100, j.val = free.val + 1 := ⟨⟨free.val + 1, by omega⟩, rfl⟩
    have hvalid : (j.val : Int) ≠ -1 := by omega
    have hnone : CreatesNone io ↔ (∀ k, (io.messages.slots k).handle ≠ ioHandleNull)
        ∧ io.table j = ⟨j.val, .message, 0, none, 0⟩ := by
      rw [CreatesNone, foundFree_eq hs]
      refine and_congr_right fun _ => ⟨?_, fun ht => ⟨j, hj, ht⟩⟩
      rintro ⟨j', hj', ht⟩
      rwa [Fin.ext (hj'.trans hj.symm)] at ht
    rw [ioPrototype_found hs hj] at h
    rcases constructAs_spec (tableIndex_val j)
        ({ io with next := free }.setEntry j ⟨j.val, .message, 0, none, 0⟩) .message with
      ⟨r, io₁, he, hc⟩ | ⟨st₁, io₁, he, hc⟩
    · rw [he] at h
      cases h
      obtain ⟨k, rfl⟩ := (messageView.refType r).mp hc.type
      have hfree : (io.messages.slots k).handle = ioHandleNull := hc.wasFree
      have hnew : (io'.messages.slots k).handle = (j.val : Int) := hc.handle
      refine .inr (.inl ⟨fun hn => (hnone.mp hn).1 k hfree, rfl, k, hfree, ?_⟩)
      rw [hnew]
      exact hvalid
    · rw [he] at h
      cases h
      have hst : st ≠ .success := hc.ne_success
      have hused : ∀ k, (io.messages.slots k).handle ≠ ioHandleNull := fun k =>
        hc.exhausted (.message k) rfl
      have htable : io'.table = update io.table j ⟨j.val, .message, 0, none, 0⟩ := hc.table
      by_cases ht : io.table j = ⟨j.val, .message, 0, none, 0⟩
      · refine .inl ⟨hnone.mpr ⟨hused, ht⟩, hst, ?_, fun r => ?_⟩
        · rw [htable, ← ht, Function.update_eq_self]
        · rw [hc.slot]
          cases r
          all_goals rfl
      · refine .inr (.inr ⟨fun hn => ht (hnone.mp hn).2, hst, j, ?_, ?_⟩)
        · rw [Io.taken, htable, update_self]
          exact decide_eq_true hvalid
        · rw [htable, update_self]
          exact fun he => ht he.symm
  · rw [ioPrototype_full hs] at h
    cases h
    refine .inl ⟨?_, by simp, rfl, fun _ => rfl⟩
    rw [CreatesNone, foundFree_eq hs]
    trivial

/-! ## The updates of the message -/

section Updates

variable {fs fs' : FileSys} {loc : Locals} {value path out : Word} {ext : Extern}

theorem setprop_ioctl {mm mm' : MemMgr} {o o' : IoAny}
    (h : o.setprop mm .ioctl value 4 = .ok (st, o', mm')) :
    st = .success ↔ ∃ msg, o = .message msg ∧ 0 ≤ msg.handle := by
  have h4 : ¬(4 : Int) < 0 := by decide
  cases o
  case message msg =>
    simp only [IoAny.setprop, ioMsgSetprop, checked, h4, ↓reduceIte] at h
    by_cases hh : msg.handle < 0
    · rw [if_pos hh] at h
      cases h
      simp [not_le.mpr hh]
    · rw [if_neg hh] at h
      cases h
      simp [not_lt.mp hh]
  all_goals
    simp only [IoAny.setprop, ioFsSetprop, ioDvSetprop, ioMdSetprop, ioMpSetprop, checked, h4,
      ↓reduceIte] at h
    split at h
    · cases h
      simp
    · cases h
      simp

theorem updateIoctl_iff {c : Ioctl} (h : fs.updateIoctl loc handle c = .ok (st, fs')) :
    st = .success ↔ Usable fs.io handle := by
  obtain ⟨calls, io₁, hu, -⟩ := update_ok h
  rcases ioUpdate_inv hu with ⟨-, -, hne, hno⟩ | ⟨i, r, o, mm', hd, hset, -, -⟩
  · refine iff_of_false hne ?_
    rintro ⟨i, msg, hd, -⟩
    exact hno i _ (SameTables.mem.denotes hd)
  · have hd' : Denotes fs.io handle i r := ⟨hd.index, hd.valid, hd.unlocked, hd.type, hd.object⟩
    rw [setprop_ioctl hset]
    constructor
    · rintro ⟨msg, ho, hh⟩
      cases r with
      | message k =>
          cases ho
          exact ⟨i, k, hd', hh⟩
      | _ => cases ho
    · rintro ⟨j, k, hdk, hh⟩
      obtain rfl := hd'.unique hdk
      exact ⟨_, rfl, hh⟩

theorem updateStr_usable (hu : Usable fs.io handle)
    (h : fs.updateStr handle .path value = .ok (st, fs')) : st = .success := by
  obtain ⟨n, h⟩ := updateStr_ok h
  obtain ⟨i, msg, hd, hh⟩ := hu
  obtain ⟨calls, io₁, hup, -⟩ := update_ok h
  rcases ioUpdate_inv hup with ⟨-, -, -, hno⟩ | ⟨j, r, o, mm', hd', hset, -, -⟩
  · exact absurd hd (hno i _)
  · obtain rfl := hd'.unique hd
    rcases setprop_str hset rfl with ⟨p, room, -, hst, -⟩ | ⟨-, -, -, hneg | hneg⟩
    · exact hst
    · omega
    · exact absurd hneg (not_lt.mpr hh)

theorem delete_files (h : fs.delete handle = .ok (st, fs')) :
    fs'.files = fs.files ∧ fs'.hasInit = fs.hasInit := by
  obtain ⟨⟨st₁, io₁⟩, -, h⟩ := bind_eq_ok.mp h
  cases h
  exact ⟨rfl, rfl⟩

theorem mountLoop_none (fuel : Nat) (hst : st ≠ .success) :
    mountLoop loc path (fuel + 1) st 0 fs = .ok (none, 0, fs) := by
  rw [mountLoop, if_neg hst]

theorem openCreate_ok {i : Fin 50} (hu : Usable fs.io handle)
    (h : openCreate ext loc fs i handle path out = .ok (st, fs')) :
    st = .noMatch ∧ ∃ fs₁, Unmoved fs fs₁ ∧ fs' = fs₁.release i := by
  obtain ⟨m, -, h⟩ := bind_eq_ok.mp h
  have hu' : Usable (fs.setMem m).io handle := SameTables.mem.usable hu
  rcases handled_ok h with ⟨hup, hne⟩ | ⟨fs₁, hup, h⟩
  · exact absurd (updateStr_usable hu' hup) hne
  · obtain ⟨stat, hne, hret⟩ := bind_execute h
    simp only [ne_eq, hne, not_false_eq_true, ↓reduceIte] at hret
    cases hret
    exact ⟨rfl, fs₁, (setMem_unmoved fs m).trans (updateStr_unmoved hup), rfl⟩

theorem openRecursive_ok {i : Fin 50} {stat : Status} (hne : stat ≠ .success)
    (h : openRecursive ext loc fs i handle stat path out = .ok (st, fs')) :
    st = .noMatch ∧ fs'.files = fs.files ∧ fs'.hasInit = fs.hasInit := by
  rw [openRecursive, mountLoop_none 6 hne, ok_bind] at h
  simp only [Int.lt_irrefl, ↓reduceIte] at h
  obtain ⟨st₁, fs₁, hd, h⟩ := ignored_ok h
  cases h
  exact ⟨rfl, delete_files hd⟩

end Updates

/-! ## All exits -/

variable {fs fs' : FileSys} {loc : Locals} {path out : Word} {ext : Extern}
  {strat : IoCreatePolicy}

/-- The state in which a message is asked for. -/
def FileSys.claimed (fs : FileSys) (i : Fin 50) : FileSys :=
  fs.setFile i { fs.files i with handle := i.val }

/-- A call that returns has kept the file entry, or it has given it back
after the message was refused. -/
theorem ioFileOpen_ok (h : ioFileOpen ext loc fs path strat out = .ok (st, fs')) :
    st ≠ .success ∧ ∃ i st₁ fs₁, fs.ready.firstFree = some i
      ∧ (fs.ready.claimed i).prototypeMessage i .input = .ok (st₁, fs₁)
      ∧ (¬(strat ≠ .createRecursive ∧ Usable fs₁.io (fs₁.files i).messageIn)
          ∧ fs'.files = fs₁.files ∧ fs'.hasInit = fs₁.hasInit
        ∨ strat ≠ .createRecursive ∧ Usable fs₁.io (fs₁.files i).messageIn
          ∧ ∃ fs₂, Unmoved fs₁ fs₂ ∧ fs' = fs₂.release i) := by
  rw [ioFileOpen] at h
  simp only at h
  cases hfree : fs.ready.firstFree with
  | none =>
      rw [hfree] at h
      cases h
  | some i =>
      rw [hfree] at h
      obtain ⟨st₁, fs₁, hp, h⟩ := ignored_ok h
      rcases handled_ok h with ⟨hup, hne⟩ | ⟨fs₂, hup, h⟩
      · have hun := updateStr_unmoved hup
        refine ⟨hne, i, st₁, fs₁, rfl, hp, .inl ⟨fun hu => ?_, hun.files, hun.hasInit⟩⟩
        exact hne (updateStr_usable hu.2 hup)
      have hun₂ := updateStr_unmoved hup
      rcases handled_ok h with ⟨hio, hne⟩ | ⟨fs₃, hio, h⟩
      · have hun := hun₂.trans (updateIoctl_unmoved hio)
        refine ⟨hne, i, st₁, fs₁, rfl, hp, .inl ⟨fun hu => ?_, hun.files, hun.hasInit⟩⟩
        exact hne ((updateIoctl_iff hio).mpr (hun₂.tables.usable hu.2))
      have hun₃ := hun₂.trans (updateIoctl_unmoved hio)
      obtain ⟨stat, hne, hret⟩ := bind_execute h
      simp only [hne, ↓reduceIte] at hret
      have hu : Usable fs₁.io (fs₁.files i).messageIn :=
        hun₂.tables.symm.usable ((updateIoctl_iff hio).mp rfl)
      cases strat with
      | create =>
          obtain ⟨rfl, fs₅, hun, hrel⟩ := openCreate_ok (hun₃.tables.usable hu) hret
          exact ⟨by simp, i, st₁, fs₁, rfl, hp, .inr ⟨by simp, hu, fs₅, hun₃.trans hun, hrel⟩⟩
      | createRecursive =>
          obtain ⟨rfl, hfiles, hinit⟩ := openRecursive_ok hne hret
          exact ⟨by simp, i, st₁, fs₁, rfl, hp, .inl ⟨by simp, hfiles.trans hun₃.files,
            hinit.trans hun₃.hasInit⟩⟩
      | fail =>
          cases hret
          exact ⟨by simp, i, st₁, fs₁, rfl, hp, .inr ⟨by simp, hu, fs₃, hun₃, rfl⟩⟩

theorem ready_hasInit (fs : FileSys) : fs.ready.hasInit = true := by
  rw [FileSys.ready]
  split
  · assumption
  · rfl

theorem ready_io (fs : FileSys) : fs.ready.io = fs.io := by
  rw [FileSys.ready]
  split
  · rfl
  · rfl

theorem ready_inUse (i : Fin 50) : fs.ready.FileInUse i ↔ fs.FileInUse i := by
  rw [FileSys.ready]
  split
  · exact Iff.rfl
  · rename_i hinit
    refine iff_of_false (fun h => h.2 rfl) fun h => hinit h.1

theorem firstFree_handle {i : Fin 50} (h : fs.firstFree = some i) :
    (fs.files i).handle = -1 := by
  simpa using List.find?_some h

theorem firstFree_none : fs.ready.firstFree = none ↔ ∀ i, fs.FileInUse i := by
  rw [FileSys.firstFree, List.find?_eq_none]
  constructor
  · intro h i
    refine (ready_inUse i).mp ⟨ready_hasInit fs, ?_⟩
    simpa using h i (List.mem_finRange i)
  · intro h i _
    simpa using ((ready_inUse i).mpr (h i)).2

theorem prototypeMessage_ok {i : Fin 50} {side : Side}
    (h : fs.prototypeMessage i side = .ok (st, fs')) :
    ∃ handle, ioPrototype fs.io .message = .ok (st, handle, fs'.io)
      ∧ fs'.hasInit = fs.hasInit ∧ (∀ j, (fs'.files j).handle = (fs.files j).handle)
      ∧ (st ≠ .success → fs'.files = fs.files) := by
  obtain ⟨⟨st₁, handle, fs₁⟩, hp, h⟩ := bind_eq_ok.mp h
  obtain ⟨⟨st₂, handle₂, io₂⟩, hio, hp⟩ := bind_eq_ok.mp hp
  cases hp
  by_cases hs : st₁ = .success
  · simp only [hs, ↓reduceIte] at h
    cases h
    refine ⟨handle, hs ▸ liftIo_ok.mp hio, rfl, fun j => ?_, fun hne => absurd rfl hne⟩
    by_cases hj : j = i
    · rw [hj]
      simp only [FileSys.setFile, update_self]
      cases side
      all_goals rfl
    · simp only [FileSys.setFile, update_of_ne hj]
  · simp only [hs, ↓reduceIte] at h
    cases h
    exact ⟨handle, liftIo_ok.mp hio, rfl, fun _ => rfl, fun _ => rfl⟩

/-- A call that returns is atomic exactly if it was spared the creation of
a message. -/
theorem openAtomic_iff (h : ioFileOpen ext loc fs path strat out = .ok (st, fs')) :
    OpenAtomic fs st out fs' ↔ Spared fs.ready strat := by
  obtain ⟨hst, i, st₁, fs₁, hfree, hp, hexit⟩ := ioFileOpen_ok h
  rw [OpenAtomic, if_neg hst]
  obtain ⟨handle, hproto, hinit, hhandle, hsame⟩ := prototypeMessage_ok hp
  have hio : (fs.ready.claimed i).io = fs.io := ready_io fs
  rw [hio] at hproto
  have hinit' : fs₁.hasInit = true := hinit.trans (ready_hasInit fs)
  have hclaimed : (fs₁.files i).handle = (i.val : Int) := by
    rw [hhandle i]
    simp only [FileSys.claimed, FileSys.setFile, update_self]
  have hwas : ¬fs.FileInUse i := fun hu =>
    ((ready_inUse i).mpr hu).2 (firstFree_handle hfree)
  have hmessage : st₁ ≠ .success → (fs₁.files i).messageIn = (fs.ready.files i).messageIn := by
    intro hne
    rw [hsame hne]
    simp only [FileSys.claimed, FileSys.setFile, update_self]
  have hspared : Spared fs.ready strat ↔ strat ≠ .createRecursive ∧ CreatesNone fs.io
      ∧ Usable fs.io (fs.ready.files i).messageIn := by
    rw [Spared, hfree, ready_io]
    simp only [Option.some.injEq, exists_eq_left']
  rw [hspared]
  rcases hexit with ⟨hnot, hfiles, hinit₁⟩ | ⟨hstrat, husable, fs₂, hun, rfl⟩
  · -- the file entry is lost
    refine iff_of_false (fun hl => hwas ((hl.files i).mp ⟨hinit₁.trans hinit', ?_⟩)) ?_
    · have hne : (i.val : Int) ≠ -1 := by omega
      rw [hfiles, hclaimed]
      exact hne
    · rintro ⟨hstrat, hnone, hu⟩
      rcases ioPrototype_cases hproto with ⟨-, hne, ht, hh⟩ | ⟨hno, -⟩ | ⟨hno, -⟩
      · refine hnot ⟨hstrat, ?_⟩
        rw [hmessage hne]
        exact hu.congr ht hh
      · exact hno hnone
      · exact hno hnone
  · -- the file entry is given back, the message is not
    have htable : (fs₂.release i).io.table = fs₁.io.table := hun.tables.table
    have hslots : ∀ k, ((fs₂.release i).io.messages.slots k).handle
        = (fs₁.io.messages.slots k).handle := fun k => hun.tables.handles (.message k)
    rcases ioPrototype_cases hproto with ⟨hnone, hne, ht, hh⟩ | ⟨hno, -, k, hk, hk'⟩ |
      ⟨hno, -, j, hj, hj'⟩
    · refine iff_of_true ⟨fun j => ?_, fun j _ => ?_, fun k => ?_⟩ ⟨hstrat, hnone, ?_⟩
      · have hinit₂ : (fs₂.release i).hasInit = true := hun.hasInit.trans hinit'
        refine Iff.trans ?_ (ready_inUse j)
        rw [FileSys.FileInUse, FileSys.FileInUse, hinit₂, ready_hasInit]
        by_cases hji : j = i
        · rw [hji, firstFree_handle hfree]
          simp only [FileSys.release, FileSys.setFile, update_self]
        · have hfile : ((fs₂.release i).files j).handle = (fs.ready.files j).handle := by
            simp only [FileSys.release, FileSys.setFile, update_of_ne hji, hun.files, hhandle,
              FileSys.claimed]
          rw [hfile]
      · rw [htable, ht]
      · rw [hslots]
        exact hh (.message k)
      · rw [← hmessage hne]
        exact husable.congr ht.symm fun r => (hh r).symm
    · refine iff_of_false (fun hl => hk' ?_) fun hsp => hno hsp.2.1
      rw [← hslots, hl.messages k, hk]
    · refine iff_of_false (fun hl => hj' ?_) fun hsp => hno hsp.2.1
      rw [← htable]
      refine hl.handles j (.inr ?_)
      rw [Io.taken, htable]
      exact hj

/-! ## The file table -/

/-- No entry outside `FILETABLE` is used. -/
def InTable {α : Type} (r : Except FileFault α) : Prop := ∀ n, r ≠ .error (.table n)

theorem inTable_ok {α : Type} (a : α) : InTable (.ok a) := by
  intro n hc
  cases hc

theorem inTable_lift {α : Type} (r : Except IoFault α) : InTable (liftIo r) := by
  intro n hc
  cases r
  all_goals cases hc

theorem InTable.bind {α β : Type} {r : Except FileFault α} {k : α → Except FileFault β}
    (hr : InTable r) (hk : ∀ a, InTable (k a)) : InTable (r >>= k) := by
  intro n hc
  cases r with
  | error f => exact hr n (by rw [Except.error.inj hc])
  | ok a => exact hk a n hc

theorem InTable.ite {α : Type} {c : Prop} [Decidable c] {x y : Except FileFault α}
    (hx : InTable x) (hy : InTable y) : InTable (if c then x else y) := by
  split
  · exact hx
  · exact hy

theorem InTable.handled {r : FileResult} {k : FileSys → FileResult} (hr : InTable r)
    (hk : ∀ fs, InTable (k fs)) : InTable (handled r k) :=
  hr.bind fun _ => .ite (inTable_ok _) (hk _)

theorem InTable.ignored {r : FileResult} {k : FileSys → FileResult} (hr : InTable r)
    (hk : ∀ fs, InTable (k fs)) : InTable (ignored r k) :=
  hr.bind fun _ => hk _

theorem inTable_update {which : IoProp} {value : Word} {length : Int} :
    InTable (fs.update handle which value length) :=
  (inTable_lift _).bind fun _ => inTable_ok _

theorem inTable_updateStr {which : IoProp} {value : Word} :
    InTable (fs.updateStr handle which value) :=
  (inTable_lift _).bind fun _ => inTable_update

theorem inTable_execute : InTable (fs.execute ext handle) :=
  (inTable_lift _).bind fun _ => inTable_ok _

theorem inTable_prototypeMessage {i : Fin 50} {side : Side} :
    InTable (fs.prototypeMessage i side) :=
  ((inTable_lift _).bind fun _ => inTable_ok _).bind fun _ => .ite (inTable_ok _) (inTable_ok _)

theorem inTable_mountLoop : ∀ (fuel : Nat) {st : Status} {index : Int} {fs : FileSys},
    InTable (mountLoop loc path fuel st index fs)
  | 0, _, _, _ => inTable_lift (.error (.kernel .diverge))
  | fuel + 1, st, index, fs => by
      rw [mountLoop]
      refine .ite ?_ (inTable_ok _)
      refine (inTable_lift _).bind fun _ => (inTable_lift _).bind fun _ => ?_
      refine .ite (inTable_ok _) ((inTable_lift _).bind fun _ => ?_)
      exact .ite (inTable_ok _) (inTable_mountLoop fuel)

theorem inTable_componentLoop {i : Fin 50} : ∀ (n : Nat) {k : Nat} {fs : FileSys},
    InTable (componentLoop ext loc i handle path out n k fs)
  | 0, _, _ => inTable_ok _
  | n + 1, k, fs => by
      rw [componentLoop]
      refine (inTable_lift _).bind fun _ => ?_
      refine inTable_updateStr.handled fun _ => inTable_update.handled fun _ => ?_
      exact inTable_execute.bind fun _ => .ite (inTable_ok _) (inTable_componentLoop n)

theorem inTable_openCreate {i : Fin 50} :
    InTable (openCreate ext loc fs i handle path out) := by
  refine (inTable_lift _).bind fun _ => inTable_updateStr.handled fun _ => ?_
  refine inTable_execute.bind fun _ => .ite (inTable_ok _) ?_
  refine inTable_updateStr.ignored fun _ => inTable_update.ignored fun _ => ?_
  exact inTable_execute.bind fun _ => .ite (inTable_ok _) (inTable_ok _)

theorem inTable_openRecursive {i : Fin 50} :
    InTable (openRecursive ext loc fs i handle st path out) := by
  refine (inTable_mountLoop 7).bind fun r => ?_
  obtain ⟨early, index, fs₁⟩ := r
  cases early with
  | some st => exact inTable_ok _
  | none =>
      refine .ite ((inTable_lift _).bind fun _ => inTable_componentLoop _) ?_
      exact InTable.ignored ((inTable_lift _).bind fun _ => inTable_ok _) fun _ => inTable_ok _

/-- The entry behind the table is used exactly if all entries are taken. -/
theorem ioFileOpen_table : (∃ n, ioFileOpen ext loc fs path strat out = .error (.table n))
    ↔ ∀ i, fs.FileInUse i := by
  rw [← firstFree_none, ioFileOpen]
  cases fs.ready.firstFree with
  | none => exact iff_of_true ⟨50, rfl⟩ rfl
  | some i =>
      refine iff_of_false (fun hc => ?_) (by simp)
      obtain ⟨n, hc⟩ := hc
      refine InTable.ignored inTable_prototypeMessage (fun fs₁ => ?_) n hc
      refine inTable_updateStr.handled fun _ => inTable_update.handled fun _ => ?_
      refine inTable_execute.bind fun _ => .ite (inTable_ok _) ?_
      cases strat with
      | create => exact inTable_openCreate
      | createRecursive => exact inTable_openRecursive
      | fail => exact inTable_ok _

/-- In every state, for every path and policy: `IoFileOpen` goes outside
`FILETABLE` exactly if all entries are in use, and a call that returns is
atomic exactly if no message could be created, the entry it took still had
a live one, and the policy is not `IO_CP_CREATERECURSIVE`. -/
theorem file_open_atomic_iff :
    ((∃ n, ioFileOpen ext loc fs path strat out = .error (.table n)) ↔ ∀ i, fs.FileInUse i)
    ∧ ∀ st fs', ioFileOpen ext loc fs path strat out = .ok (st, fs') →
      (OpenAtomic fs st out fs' ↔ Spared fs.ready strat) :=
  ⟨ioFileOpen_table, fun _ _ h => openAtomic_iff h⟩

/-- All handles are taken, and the first file entry is free but has the
message with handle 4. -/
def noHandles : FileSys where
  io := { rawMount (rawPath ++ [0]) with
    table := fun i =>
      if ((rawMount (rawPath ++ [0])).table i).handle = ioHandleNull then
        ⟨i.val, .unknown, 0, none, 0⟩
      else (rawMount (rawPath ++ [0])).table i }
  hasInit := true
  files := fun _ => ⟨-1, 4, ioHandleNull, 0, 0⟩
  pages := []
  sent := []

theorem noHandles_spared : Spared noHandles.ready .fail := by
  have hready : noHandles.ready = noHandles := rfl
  rw [hready]
  refine ⟨by simp, ?_, 0, by decide +kernel, ⟨4, 0, ⟨rfl, rfl, rfl, rfl, rfl⟩, ?_⟩⟩
  · have hnone : noHandles.io.foundFree = none := by decide +kernel
    rw [CreatesNone, hnone]
    trivial
  · decide

/-- Without a free handle the message of an earlier file is used, and
nothing is lost. -/
theorem file_open_spared : ∃ r, ioFileOpen idle someLocals noHandles
    0x201000 .fail 0x400000 = .ok r ∧ OpenAtomic noHandles r.1 0x400000 r.2 := by
  have ht : okAnd (ioFileOpen idle someLocals noHandles 0x201000 .fail
      0x400000) (fun _ => true) = true := by
    decide +kernel
  obtain ⟨r, hr, -⟩ := of_okAnd ht
  exact ⟨r, hr, (file_open_atomic_iff.2 r.1 r.2 hr).mpr noHandles_spared⟩

/-- The string `\raw\1` in memory. -/
def rawString : MemMgr :=
  { lowPageUsed with mem := storeBytes lowPageUsed.mem 0x201000 (rawPath ++ [0]) }

/-- The files after `IO_INIT`. -/
def freshFiles : FileSys := FileSys.zero (ioInit (Io.zero rawString))

/-- The first file that is not found leaves a message behind. -/
theorem file_open_leaks : ∃ r, ioFileOpen idle someLocals freshFiles
    0x201000 .fail 0x400000 = .ok r ∧ r.1 = .noMatch
      ∧ ¬OpenAtomic freshFiles r.1 0x400000 r.2 := by
  have ht : okAnd (ioFileOpen idle someLocals freshFiles 0x201000 .fail
      0x400000) (fun r => decide (r.1 = .noMatch ∧ (r.2.io.messages.slots 0).handle = 1))
      = true := by
    decide +kernel
  obtain ⟨r, hr, ht⟩ := of_okAnd ht
  obtain ⟨hst, hmsg⟩ := of_decide_eq_true ht
  refine ⟨r, hr, hst, fun ha => ?_⟩
  rw [OpenAtomic, hst, if_neg (by simp)] at ha
  have hfree := ha.messages 0
  rw [hmsg] at hfree
  cases hfree

end SpKernel
