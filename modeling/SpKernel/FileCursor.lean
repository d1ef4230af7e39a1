import SpKernel.FileEffects

/-!
# The cursor of a file

`CursorRule` is what the header says about `IoFileSeek`, `IoFileRead` and
`IoFileWrite`: a seek adds its offset, and a read or write adds its
offset and the number of bytes it has passed on. `IoFileSeek` assigns the
offset where it should add it, and a message has no property for the
length of its buffer, so no read or write succeeds (`ioFileRead_fails`,
`ioFileWrite_fails`). A sequence of calls follows the rule exactly if it
is made of seeks from position zero (`file_cursor_iff`).

`Sought` is what a seek does: it leaves everything of the file but the
cursor, and the other files (`ioFileSeek_open`). From it the rule for one
call is decided (`Sought.rule_iff`), and the equivalence for a run
follows with `SeeksFromZero`, the condition on the positions at which its
seeks are made.

That a call fails is shown without following it: one of its updates does,
and `HANDLED` passes that on, whatever comes before or behind it
(`Fails.first`, `Fails.rest`).
-/

namespace SpKernel

open Function (update update_self update_of_ne)
open Lib

/-- A call on an open file. -/
inductive FileCall where
  | seek (hFile : FileHandle) (offset poffset : Word)
  | read (hFile : FileHandle) (offset plength out : Word)
  | write (hFile : FileHandle) (offset plength data : Word)

def FileCall.file : FileCall → FileHandle
  | .seek hFile _ _ | .read hFile _ _ _ | .write hFile _ _ _ => hFile

def fileCall (ext : Extern) (loc : Locals) (fs : FileSys) : FileCall → FileResult
  | .seek hFile offset poffset => ioFileSeek loc fs hFile offset poffset
  | .read hFile offset plength out => ioFileRead ext loc fs hFile offset plength out
  | .write hFile offset plength data => ioFileWrite ext loc fs hFile offset plength data

/-- The cursor of the file. -/
def FileSys.cursorOf (fs : FileSys) (hFile : FileHandle) : Word :=
  match validFile fs hFile with
  | some i => (fs.files i).cursor
  | none => 0

/-- One message has been passed on, with this position, buffer and
length. -/
def PassedOn (fs fs' : FileSys) (start buffer length : Word) : Prop :=
  ∃ m : IoMessage, fs'.sent = fs.sent ++ [m] ∧ m.offsetProp = start ∧ m.buffer = buffer
    ∧ m.length = length.toInt

/-- The documented rule, for a call that returns. The number of bytes that
were read or written is in `*plength` afterwards. -/
def CursorRule (fs : FileSys) (c : FileCall) (st : Status) (fs' : FileSys) : Prop :=
  st = .success ∧
    match c with
    | .seek hFile offset poffset =>
        fs'.cursorOf hFile = fs.cursorOf hFile + offset
          ∧ load32 fs'.mem poffset = fs'.cursorOf hFile
    | .read hFile offset plength buffer | .write hFile offset plength buffer =>
        fs'.cursorOf hFile = fs.cursorOf hFile + offset + load32 fs'.mem plength
          ∧ PassedOn fs fs' (fs.cursorOf hFile + offset) buffer (load32 fs.mem plength)

/-- Every call of the sequence returns and follows the rule. -/
def FollowsRule (ext : Extern) (loc : Locals) : FileSys → List FileCall → Prop
  | _, [] => True
  | fs, c :: cs => ∃ st fs', fileCall ext loc fs c = .ok (st, fs') ∧ CursorRule fs c st fs'
      ∧ FollowsRule ext loc fs' cs

/-- All calls are seeks, each of a file whose cursor is at zero. -/
def SeeksFromZero : (FileHandle → Word) → List FileCall → Prop
  | _, [] => True
  | cursor, .seek hFile offset _ :: cs =>
      cursor hFile = 0 ∧ SeeksFromZero (update cursor hFile offset) cs
  | _, .read .. :: _ | _, .write .. :: _ => False

/-- The file is open: a message it has is a message of the I/O layer. -/
structure OpenFile (fs : FileSys) (hFile : FileHandle) (i : Fin 50) : Prop where
  valid : validFile fs hFile = some i
  message : ∀ side, (fs.files i).message side ≠ ioHandleNull →
    Usable fs.io ((fs.files i).message side)

variable {ext : Extern} {loc : Locals} {fs fs' : FileSys} {hFile : FileHandle} {i : Fin 50}
  {st : Status} {r : FileResult} {k : FileSys → FileResult}

/-! ## Reading and writing -/

/-- The call does not succeed. -/
def Fails (r : FileResult) : Prop := ∀ st fs, r = .ok (st, fs) → st ≠ .success

theorem Fails.first (h : Fails r) : Fails (handled r k) := by
  intro st fs hr
  rcases handled_ok hr with ⟨-, hne⟩ | ⟨fs₁, hr₁, -⟩
  · exact hne
  · exact absurd rfl (h _ _ hr₁)

theorem Fails.rest (h : ∀ fs, Fails (k fs)) : Fails (handled r k) := by
  intro st fs hr
  rcases handled_ok hr with ⟨-, hne⟩ | ⟨fs₁, -, hk⟩
  · exact hne
  · exact h fs₁ _ _ hk

theorem fails_withFile {k : Fin 50 → FileResult} (h : ∀ i, Fails (k i)) :
    Fails (withFile fs hFile k) := by
  rw [withFile]
  split
  · exact h _
  · intro st fs' hr
    cases hr
    simp

theorem fails_withMessage {side : Side} (h : ∀ fs, Fails (k fs)) :
    Fails (withMessage fs i side k) := by
  rw [withMessage]
  split
  · exact .rest fun _ => .rest h
  · exact h fs

/-- No object has a property for the length of a content. -/
theorem setprop_lengthContent {mm mm' : MemMgr} {o o' : IoAny} {value : Word} {length : Int}
    (h : o.setprop mm .lengthContent value length = .ok (st, o', mm')) : st ≠ .success := by
  cases o
  all_goals
    simp only [IoAny.setprop, ioFsSetprop, ioDvSetprop, ioMdSetprop, ioMsgSetprop, ioMpSetprop,
      checked] at h
    split at h
    · cases h
      simp
    · split at h
      · cases h
        simp
      · cases h
        simp

theorem fails_lengthContent {handle : IoHandle} {value : Word} :
    Fails (fs.updateValint loc handle .lengthContent value) := by
  intro st fs' h
  obtain ⟨calls, io, hu, -⟩ := update_ok h
  rcases ioUpdate_inv hu with ⟨-, -, hne, -⟩ | ⟨j, r, o, mm, -, hset, -⟩
  · exact hne
  · exact setprop_lengthContent hset

theorem ioFileRead_fails {offset plength out : Word} :
    Fails (ioFileRead ext loc fs hFile offset plength out) :=
  fails_withFile fun _ => fails_withMessage fun _ =>
    .rest fun _ => .rest fun _ => .first fails_lengthContent

theorem ioFileWrite_fails {offset plength data : Word} :
    Fails (ioFileWrite ext loc fs hFile offset plength data) :=
  fails_withFile fun _ => fails_withMessage fun _ => .rest fun _ => .first fails_lengthContent

/-! ## Seeking -/

theorem validFile_eq {hFile : Int} :
    validFile fs hFile = some i ↔ hFile = (i.val : Int) ∧ (fs.files i).handle = hFile := by
  rw [validFile]
  split
  · rename_i hb
    have hi : hFile = (i.val : Int) ↔ (⟨hFile.toNat, by omega⟩ : Fin 50) = i := by
      rw [Fin.ext_iff]
      change _ ↔ hFile.toNat = i.val
      omega
    rw [hi]
    by_cases he : (⟨hFile.toNat, by omega⟩ : Fin 50) = i
    · subst he
      simp
    · simp [he]
  · rename_i hb
    have := i.isLt
    simp only [reduceCtorEq, false_iff, not_and]
    omega

theorem updateValint_cursor {handle : IoHandle} {v : Word} (h : Usable fs.io handle) :
    ∃ fs', fs.updateValint loc handle .cursorPosition v = .ok (.success, fs')
      ∧ Unmoved fs fs' := by
  obtain ⟨j, msg, hd, hh⟩ := h
  have hd' : Denotes (fs.setMem (store 4 fs.mem loc.value v)).io handle j (.message msg) :=
    SameTables.mem.denotes hd
  have hset : ∃ fs', fs.updateValint loc handle .cursorPosition v = .ok (.success, fs') := by
    have h4 : ¬(4 : Int) < 0 := by decide
    have hh' : ¬(fs.io.messages.slots msg).handle < 0 := not_lt.mpr hh
    rw [FileSys.updateValint, FileSys.update, ioUpdate_denotes hd']
    simp only [Io.object, IoAny.setprop, ioMsgSetprop, checked, FileSys.setMem, h4, hh',
      ↓reduceIte, ok_bind, liftFault, liftIo, Except.mapError]
    exact ⟨_, rfl⟩
  obtain ⟨fs', hset⟩ := hset
  exact ⟨fs', hset, updateValint_unmoved hset⟩

theorem tellCursor_open {side : Side} (h : (fs.files i).message side ≠ ioHandleNull →
      Usable fs.io ((fs.files i).message side)) :
    ∃ fs', Unmoved fs fs' ∧ tellCursor loc fs i side k = k fs' := by
  rw [tellCursor]
  by_cases hm : (fs.files i).message side ≠ ioHandleNull
  · obtain ⟨fs', hset, hun⟩ : ∃ fs', fs.updateValint loc ((fs.files i).message side)
        .cursorPosition (fs.files i).cursor = .ok (.success, fs') ∧ Unmoved fs fs' :=
      updateValint_cursor (h hm)
    refine ⟨fs', hun, ?_⟩
    rw [if_pos hm, handled, hset]
    rfl
  · exact ⟨fs, .refl fs, if_neg hm⟩

/-- What a seek leaves behind. -/
structure Sought (fs : FileSys) (i : Fin 50) (offset poffset : Word) (fs' : FileSys) : Prop where
  files : fs'.files = update fs.files i { fs.files i with cursor := offset }
  tables : SameTables fs.io fs'.io
  told : load32 fs'.mem poffset = offset

theorem ioFileSeek_open {offset poffset : Word} (h : OpenFile fs hFile i) :
    ∃ fs', ioFileSeek loc fs hFile offset poffset = .ok (.success, fs')
      ∧ Sought fs i offset poffset fs' := by
  have hmsg : ∀ side, (((fs.setCursor i offset).files i).message side)
      = (fs.files i).message side := by
    intro side
    simp only [FileSys.setCursor, FileSys.setFile, update_self]
    cases side
    all_goals rfl
  have hopen : ∀ side fs₁, Unmoved (fs.setCursor i offset) fs₁ →
      (fs₁.files i).message side ≠ ioHandleNull →
      Usable fs₁.io ((fs₁.files i).message side) := by
    intro side fs₁ hun hne
    rw [hun.files, hmsg] at hne ⊢
    exact hun.tables.usable (h.message side hne)
  obtain ⟨fs₁, hun₁, htell₁⟩ := tellCursor_open (hopen .input _ (.refl _))
  obtain ⟨fs₂, hun₂, htell₂⟩ := tellCursor_open (hopen .output _ hun₁)
  have hfiles : fs₂.files = (fs.setCursor i offset).files := hun₂.files.trans hun₁.files
  have hcursor : (fs₂.files i).cursor = offset := by
    rw [hfiles]
    simp only [FileSys.setCursor, FileSys.setFile, update_self]
  refine ⟨fs₂.setMem (store 4 fs₂.mem poffset (fs₂.files i).cursor), ?_, hfiles, ?_, ?_⟩
  · rw [ioFileSeek, withFile, h.valid]
    simp only
    rw [htell₁, htell₂]
  · exact (hun₁.tables.trans hun₂.tables).trans .mem
  · rw [hcursor]
    exact load32_store _ _ _

theorem Sought.valid {offset poffset : Word} (h : Sought fs i offset poffset fs')
    (hFile : FileHandle) : validFile fs' hFile = validFile fs hFile := by
  refine Option.ext fun j => ?_
  rw [validFile_eq, validFile_eq, h.files]
  by_cases hj : j = i
  · rw [hj, update_self]
  · rw [update_of_ne hj]

theorem Sought.openFile {offset poffset : Word} (h : Sought fs i offset poffset fs')
    {hFile : FileHandle} {j : Fin 50} (ho : OpenFile fs hFile j) : OpenFile fs' hFile j := by
  have hmsg : ∀ side, (fs'.files j).message side = (fs.files j).message side := by
    intro side
    rw [h.files]
    by_cases hj : j = i
    · rw [hj, update_self]
      cases side
      all_goals rfl
    · rw [update_of_ne hj]
  refine ⟨(h.valid hFile).trans ho.valid, fun side hne => ?_⟩
  rw [hmsg] at hne ⊢
  exact h.tables.usable (ho.message side hne)

theorem cursorOf_valid (h : validFile fs hFile = some i) :
    fs.cursorOf hFile = (fs.files i).cursor := by
  rw [FileSys.cursorOf, h]

theorem Sought.cursorOf {offset poffset : Word} (h : Sought fs i offset poffset fs')
    (hv : validFile fs hFile = some i) : fs'.cursorOf = update fs.cursorOf hFile offset := by
  funext h'
  by_cases he : h' = hFile
  · rw [he, update_self, cursorOf_valid ((h.valid hFile).trans hv), h.files, update_self]
  · rw [update_of_ne he, FileSys.cursorOf, FileSys.cursorOf, h.valid]
    cases hj : validFile fs h' with
    | none => rfl
    | some j =>
        have hne : j ≠ i := by
          rintro rfl
          exact he ((validFile_eq.mp hj).1.trans (validFile_eq.mp hv).1.symm)
        simp only [h.files, update_of_ne hne]

/-- A seek follows the rule exactly if the cursor is at zero. -/
theorem Sought.rule_iff {offset poffset : Word} (h : Sought fs i offset poffset fs')
    (hv : validFile fs hFile = some i) :
    CursorRule fs (.seek hFile offset poffset) .success fs' ↔ fs.cursorOf hFile = 0 := by
  simp only [CursorRule, h.cursorOf hv, update_self, h.told, and_true, true_and]
  exact BitVec.self_eq_add_left

/-- On open files, every call of a sequence succeeds and follows the rule
for the cursor exactly if all are seeks, each from position zero. -/
theorem file_cursor_iff {calls : List FileCall}
    (hopen : ∀ c ∈ calls, ∃ i, OpenFile fs c.file i) :
    FollowsRule ext loc fs calls ↔ SeeksFromZero fs.cursorOf calls := by
  induction calls generalizing fs with
  | nil => exact Iff.rfl
  | cons c cs ih =>
      obtain ⟨⟨i, ho⟩, hrest⟩ := List.forall_mem_cons.mp hopen
      cases c with
      | seek hFile offset poffset =>
          obtain ⟨fs', hseek, hs⟩ : ∃ fs', ioFileSeek loc fs hFile offset poffset
              = .ok (.success, fs') ∧ Sought fs i offset poffset fs' := ioFileSeek_open ho
          have hrest' : ∀ c ∈ cs, ∃ j, OpenFile fs' c.file j := fun c hc =>
            (hrest c hc).imp fun _ => hs.openFile
          have hv : validFile fs hFile = some i := ho.valid
          rw [SeeksFromZero, ← hs.cursorOf hv, ← ih hrest', ← hs.rule_iff hv]
          constructor
          · rintro ⟨st, fs₁, hcall, hrule, hcs⟩
            have he : (st, fs₁) = (.success, fs') := Except.ok.inj (hcall.symm.trans hseek)
            cases he
            exact ⟨hrule, hcs⟩
          · rintro ⟨hrule, hcs⟩
            exact ⟨.success, fs', hseek, hrule, hcs⟩
      | read hFile offset plength out =>
          refine iff_of_false ?_ id
          rintro ⟨st, fs', hr, ⟨hst, -⟩, -⟩
          exact ioFileRead_fails st fs' hr hst
      | write hFile offset plength data =>
          refine iff_of_false ?_ id
          rintro ⟨st, fs', hr, ⟨hst, -⟩, -⟩
          exact ioFileWrite_fails st fs' hr hst

/-- A file on the mount `raw`, with a message to read with. -/
def rawFile : FileSys where
  io := rawMount (rawPath ++ [0])
  hasInit := true
  files := fun i => if i = 0 then ⟨0, 4, ioHandleNull, 0, 0⟩
    else ⟨-1, ioHandleNull, ioHandleNull, 0, 0⟩
  pages := []
  sent := []

theorem rawFile_open : OpenFile rawFile 0 0 := by
  refine ⟨by decide, fun side hne => ?_⟩
  cases side with
  | input => exact ⟨4, 0, ⟨rfl, rfl, rfl, rfl, rfl⟩, by decide⟩
  | output => exact absurd rfl hne

/-- The first seek that moves the cursor is right. -/
theorem file_cursor_zero : FollowsRule idle someLocals rawFile
    [.seek 0 0 0x400000, .seek 0 7 0x400000] := by
  refine (file_cursor_iff fun c hc => ⟨0, ?_⟩).mpr ⟨rfl, rfl, trivial⟩
  have hfile : c.file = 0 := by
    rcases List.mem_cons.mp hc with rfl | hc
    · rfl
    · rw [List.mem_singleton.mp hc]
      rfl
  rw [hfile]
  exact rawFile_open

/-- The second one is not. A read fails, though all filters and
filesystems accept every message, and has moved the cursor. -/
theorem file_cursor_astray : OpenFile rawFile 0 0
    ∧ (∀ f msg io, idle f msg io = .ok (.success, io))
    ∧ ¬FollowsRule idle someLocals rawFile [.seek 0 7 0x400000, .seek 0 1 0x400000]
    ∧ ¬FollowsRule idle someLocals rawFile [.read 0 3 0x400000 0x500000]
    ∧ ∃ r, fileCall idle someLocals rawFile (.read 0 3 0x400000 0x500000) = .ok r
      ∧ r.1 = .badArg ∧ r.2.cursorOf 0 = 3 := by
  refine ⟨rawFile_open, fun _ _ _ => rfl, ?_, ?_, ?_⟩
  · rintro ⟨st₁, fs₁, h₁, -, st₂, fs₂, h₂, hrule, -⟩
    obtain ⟨fs', hseek, hs⟩ : ∃ fs', ioFileSeek someLocals rawFile 0 7 0x400000
        = .ok (.success, fs') ∧ Sought rawFile 0 7 0x400000 fs' := ioFileSeek_open rawFile_open
    cases hseek.symm.trans h₁
    obtain ⟨fs', hseek', hs'⟩ : ∃ fs', ioFileSeek someLocals fs₁ 0 1 0x400000
        = .ok (.success, fs') ∧ Sought fs₁ 0 1 0x400000 fs' :=
      ioFileSeek_open (hs.openFile rawFile_open)
    cases hseek'.symm.trans h₂
    have hzero := (hs'.rule_iff (hs.openFile rawFile_open).valid).mp hrule
    rw [hs.cursorOf rawFile_open.valid, update_self] at hzero
    cases hzero
  · rintro ⟨st, fs', hr, ⟨hst, -⟩, -⟩
    exact ioFileRead_fails st fs' hr hst
  · have ht : okAnd (fileCall idle someLocals rawFile (.read 0 3 0x400000 0x500000))
        (fun r => decide (r.1 = .badArg ∧ r.2.cursorOf 0 = 3)) = true := by
      decide +kernel
    obtain ⟨r, hr, ht⟩ := of_okAnd ht
    exact ⟨r, hr, of_decide_eq_true ht⟩

end SpKernel
