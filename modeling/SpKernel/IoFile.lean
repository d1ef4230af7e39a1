import SpKernel.Lib.Ledger
import SpKernel.Paths
import SpKernel.Properties
import SpKernel.Routing

/-!
# Files (`kern/ioapi/file.c`)

A file is an entry of `FILETABLE` with a cursor and two messages, one to
read with and one to write with. The calls set the properties of a
message and send it with `IO_EXECUTE`; most of them return early, with
the status of the first update that fails (`HANDLED`). That macro is
`handled` here, and a call whose status nobody looks at is `ignored`, so
that the definitions below read as the source does.

`IO_UPDATE_VALINT` passes the address of its parameter, and `IoFileOpen`
has arrays on the stack. `Locals` gives the addresses of these. The sizes
of the arrays are not modelled.

`IoFileOpen` is cut into the cases of its `switch` (`openCreate`,
`openRecursive`), and the last of them into its two loops, over the
mounts and over the components of the path.

Two records are kept beside the state of the program: the pages the I/O
layer has obtained and freed, and the messages it has handed on. Nothing
reads them; they are what `PageOwner` and `FileCursor` are about.
-/

namespace SpKernel

open Function (update)
open Lib

/-! ## The objects behind the handles -/

/-- A call of the page allocator, with the page. -/
abbrev PageCall := Transfer Word

/-- The object in a slot. -/
def Io.object (io : Io) : IoRef → IoAny
  | .filesystem i => .filesystem (io.filesystems.slots i)
  | .device i => .device (io.devices.slots i)
  | .middleware i => .middleware (io.middlewares.slots i)
  | .message i => .message (io.messages.slots i)
  | .mount i => .mount (io.mounts.slots i)

/-- Put an object back into its slot. -/
def Io.putObject (io : Io) : IoRef → IoAny → Io
  | .filesystem i, .filesystem x => { io with filesystems := io.filesystems.set i x }
  | .device i, .device x => { io with devices := io.devices.set i x }
  | .middleware i, .middleware x => { io with middlewares := io.middlewares.set i x }
  | .message i, .message x => { io with messages := io.messages.set i x }
  | .mount i, .mount x => { io with mounts := io.mounts.set i x }
  | _, _ => io

/-- The strings of an object, in the order in which `IO_DELETE` frees
them. -/
def IoAny.strings : IoAny → List Word
  | .filesystem x => [x.name]
  | .device x => [x.name]
  | .middleware x => [x.name]
  | .message x => [x.path]
  | .mount x => [x.name, x.path]

/-- The length a new value of a string property is given room for. -/
def IoAny.roomFor (o : IoAny) (mm : MemMgr) (value : Word) (length : Int) : Except Fault Nat :=
  match o with
  | .middleware _ => .ok length.toNat
  | _ => strlen mm.mem value

/-- The page `setString` has got for a string property, and the page it
has freed before. -/
def IoAny.pageCalls (mm : MemMgr) (o : IoAny) (which : IoProp) (value : Word) (length : Int)
    (o' : IoAny) : List PageCall :=
  match o.string which, o'.string which with
  | some old, some p =>
      if length < 0 ∨ o.handle < 0 then []
      else if old = 0 then [.got p]
      else match o.roomFor mm value length, strlen mm.mem old with
        | .ok room, .ok n => if n < room then [.freed old, .got p] else []
        | _, _ => []
  | _, _ => []

/-- The object of an entry, for a function that has a case for each type
of object. -/
def entryObject (e : IoEntry) : Except IoFault (Option IoRef) :=
  match e.type with
  | .filter | .file | .unknown => .ok none
  | type =>
      match e.object with
      | none => .error (.kernel .null)
      | some r => if r.type = type then .ok (some r) else .error .wild

/-- `IO_UPDATE`, with the pages it has obtained and freed. -/
def ioUpdate (io : Io) (handle : IoHandle) (which : IoProp) (value : Word) (length : Int) :
    Except IoFault (Status × List PageCall × Io) :=
  if ioHandleIsValid io handle then do
    let i ← tableIndex handle
    if (io.table i).locked ≠ 0 then .ok (.locked, [], io)
    else do
      match ← entryObject (io.table i) with
      | none => .ok (.notImplemented, [], io)
      | some r => do
          let (st, o, mm) ← liftFault ((io.object r).setprop io.mm which value length)
          .ok (st, (io.object r).pageCalls io.mm which value length o,
            { io.putObject r o with mm := mm })
  else .ok (.badHandle, [], io)

/-- `IO_INTERROGATE`, with the new length. There is no upper bound for the
handle. -/
def ioInterrogate (io : Io) (handle : IoHandle) (which : IoProp) (buffer : Word) (plength : Int) :
    Except IoFault (Status × Int × Io) :=
  if handle < 0 then .ok (.badHandle, plength, io)
  else do
    let i ← tableIndex handle
    if (io.table i).handle < 0 then .ok (.badHandle, plength, io)
    else do
      match ← entryObject (io.table i) with
      | none => .ok (.badArg, plength, io)
      | some r => do
          let (st, length, mm) ← liftFault ((io.object r).getprop io.mm which buffer plength)
          .ok (st, length, { io with mm := mm })

/-- `IO_ENUMERATE`, with what is stored through `object`. -/
def ioEnumerate (io : Io) (type : IoObjType) (index : Int) : Status × Option IoHandle :=
  let stored : Status × Option IoHandle → Status × Option IoHandle :=
    fun r => (r.1, some (r.2.getD ioHandleNull))
  match type with
  | .filesystem => stored (io.filesystems.iterate index)
  | .middleware => stored (io.middlewares.iterate index)
  | .mount => stored (ioMpIterate io.mounts index)
  | .device => stored (io.devices.iterate index)
  | .message => stored (io.messages.iterate index)
  | _ => (.notImplemented, none)

/-- The page calls of `IO_DELETE`, if it has deleted the object. -/
def deleteCalls (io : Io) (handle : IoHandle) : List PageCall :=
  match io.objectOf handle with
  | some r => (io.object r).strings.map .freed
  | none => []

/-! ## The state -/

abbrev FileHandle := Int

inductive Ioctl where
  | read | append | write | expand | delete | query | create | enumerate | shrink | grow | identify
deriving Repr, DecidableEq

def Ioctl.code (c : Ioctl) : Word := BitVec.ofNat 32 c.ctorIdx

def IoProp.code (p : IoProp) : Word := BitVec.ofNat 32 p.ctorIdx

/-- `IOCREATEPOLICY`; the `switch` treats any other value as
`IO_CP_FAIL`. -/
inductive IoCreatePolicy where
  | create | createRecursive | fail
deriving Repr, DecidableEq

/-- `io_file_entry`: the fields that are used. -/
structure FileEntry where
  handle : FileHandle
  messageIn : IoHandle
  messageOut : IoHandle
  path : Word
  cursor : Word
deriving Repr, DecidableEq

/-- The two messages of a file. -/
inductive Side where
  | input | output
deriving Repr, DecidableEq

def FileEntry.message (f : FileEntry) : Side → IoHandle
  | .input => f.messageIn
  | .output => f.messageOut

def FileEntry.setMessage (f : FileEntry) (side : Side) (h : IoHandle) : FileEntry :=
  match side with
  | .input => { f with messageIn := h }
  | .output => { f with messageOut := h }

/-- The I/O layer with its files, the pages it has obtained and freed so
far, and the messages filters and filesystems have been called with. -/
structure FileSys where
  io : Io
  hasInit : Bool
  files : Fin 50 → FileEntry
  pages : List PageCall
  sent : List IoMessage

/-- How a call fails: in the I/O manager, or at an index outside
`FILETABLE`. -/
inductive FileFault where
  | io (f : IoFault)
  | table (index : Nat)
deriving DecidableEq

def liftIo {α : Type} (r : Except IoFault α) : Except FileFault α := r.mapError .io

def liftKernel {α : Type} (r : Except Fault α) : Except FileFault α := liftIo (liftFault r)

/-- Where the parameter of `IO_UPDATE_VALINT` and the arrays of
`IoFileOpen` are. -/
structure Locals where
  value : Word
  newpath : Word
  outpath : Word

/-- The files before the first call: static storage. -/
def FileSys.zero (io : Io) : FileSys := ⟨io, false, fun _ => ⟨0, 0, 0, 0, 0⟩, [], []⟩

/-- The result of a call that returns a status. -/
abbrev FileResult := Except FileFault (Status × FileSys)

/-- `HANDLED`: return unless the status is `E_SUCCESS`. -/
def handled (r : FileResult) (k : FileSys → FileResult) : FileResult := do
  let (st, fs) ← r
  if st ≠ .success then .ok (st, fs) else k fs

def ignored (r : FileResult) (k : FileSys → FileResult) : FileResult := do
  let (_, fs) ← r
  k fs

namespace FileSys

def mem (fs : FileSys) : Mem := fs.io.mm.mem

def setMem (fs : FileSys) (m : Mem) : FileSys :=
  { fs with io := { fs.io with mm := { fs.io.mm with mem := m } } }

def setFile (fs : FileSys) (i : Fin 50) (f : FileEntry) : FileSys :=
  { fs with files := update fs.files i f }

/-- `file->handle = -1` -/
def release (fs : FileSys) (i : Fin 50) : FileSys :=
  fs.setFile i { fs.files i with handle := ioHandleNull }

/-- `file->cursor = c` -/
def setCursor (fs : FileSys) (i : Fin 50) (c : Word) : FileSys :=
  fs.setFile i { fs.files i with cursor := c }

/-- `IO_UPDATE` -/
def update (fs : FileSys) (handle : IoHandle) (which : IoProp) (value : Word) (length : Int) :
    FileResult := do
  let (st, calls, io) ← liftIo (ioUpdate fs.io handle which value length)
  .ok (st, { fs with io := io, pages := fs.pages ++ calls })

/-- `IO_UPDATE_VALINT` -/
def updateValint (loc : Locals) (fs : FileSys) (handle : IoHandle) (which : IoProp)
    (value : Word) : FileResult :=
  (fs.setMem (store 4 fs.mem loc.value value)).update handle which loc.value 4

/-- `IO_UPDATE_IOCTL` -/
def updateIoctl (loc : Locals) (fs : FileSys) (handle : IoHandle) (value : Ioctl) : FileResult :=
  (fs.setMem (store 4 fs.mem loc.value value.code)).update handle .ioctl loc.value 4

/-- `IO_UPDATE_VOID` -/
def updateVoid (fs : FileSys) (handle : IoHandle) (which : IoProp) (buffer : Word) : FileResult :=
  fs.update handle which buffer 4

/-- `IO_UPDATE_STR` -/
def updateStr (fs : FileSys) (handle : IoHandle) (which : IoProp) (value : Word) : FileResult := do
  let length ← liftKernel (strlen fs.mem value)
  fs.update handle which value length

/-- `IO_PROTOTYPE` of any type, with the handle. -/
def prototype (fs : FileSys) (type : IoObjType) :
    Except FileFault (Status × IoHandle × FileSys) := do
  let (st, h, io) ← liftIo (ioPrototype fs.io type)
  .ok (st, h, { fs with io := io })

/-- `IO_PROTOTYPE(IO_OBJ_MESSAGE, &file->message_*)` -/
def prototypeMessage (fs : FileSys) (i : Fin 50) (side : Side) : FileResult := do
  let (st, h, fs) ← fs.prototype .message
  if st = .success then .ok (st, fs.setFile i ((fs.files i).setMessage side h)) else .ok (st, fs)

/-- `IO_DELETE` -/
def delete (fs : FileSys) (handle : IoHandle) : FileResult := do
  let (st, io) ← liftIo (ioDelete fs.io handle)
  let calls := if st = .notImplemented then deleteCalls fs.io handle else []
  .ok (st, { fs with io := io, pages := fs.pages ++ calls })

/-- The message at a handle. -/
def messageAt (fs : FileSys) (handle : IoHandle) : Option IoMessage :=
  match fs.io.objectOf handle with
  | some (.message i) => some (fs.io.messages.slots i)
  | _ => none

/-- `IO_EXECUTE` -/
def execute (ext : Extern) (fs : FileSys) (handle : IoHandle) : FileResult := do
  let (st, called, io) ← liftIo (ioExecute ext fs.io handle)
  let sent := if called = [] then [] else (fs.messageAt handle).toList
  .ok (st, { fs with io := io, sent := fs.sent ++ sent })

end FileSys

/-! ## The calls -/

def iofsInit (fs : FileSys) : FileSys :=
  { fs with hasInit := true, files := fun _ => ⟨-1, ioHandleNull, ioHandleNull, 0, 0⟩ }

/-- The file of a handle for which `_iofs_handle_is_valid`. -/
def validFile (fs : FileSys) (handle : Int) : Option (Fin 50) :=
  if h : 0 ≤ handle ∧ handle < 50 then
    let i : Fin 50 := ⟨handle.toNat, by omega⟩
    if (fs.files i).handle = handle then some i else none
  else none

/-- The first check of most calls. -/
def withFile (fs : FileSys) (handle : FileHandle) (k : Fin 50 → FileResult) : FileResult :=
  match validFile fs handle with
  | some i => k i
  | none => .ok (.badHandle, fs)

/-- Create the message unless there is one. -/
def withMessage (fs : FileSys) (i : Fin 50) (side : Side) (k : FileSys → FileResult) :
    FileResult :=
  if (fs.files i).message side = ioHandleNull then
    handled (fs.prototypeMessage i side) fun fs =>
    handled (fs.updateStr ((fs.files i).message side) .path (fs.files i).path) k
  else k fs

/-- The state `IoFileOpen` works on. -/
def FileSys.ready (fs : FileSys) : FileSys := if fs.hasInit then fs else iofsInit fs

/-- The first free entry of `FILETABLE`. -/
def FileSys.firstFree (fs : FileSys) : Option (Fin 50) :=
  (List.finRange 50).find? fun i => decide ((fs.files i).handle = -1)

/-- `*out = index; return E_SUCCESS` -/
def opened (fs : FileSys) (i : Fin 50) (out : Word) : FileResult :=
  .ok (.success, fs.setMem (store 4 fs.mem out (BitVec.ofNat 32 i)))

/-- The case `IO_CP_CREATE`. -/
def openCreate (ext : Extern) (loc : Locals) (fs : FileSys) (i : Fin 50) (hMessage : IoHandle)
    (path out : Word) : FileResult := do
  let m ← liftKernel (ioPathDiscNNodes fs.mem path 1 loc.newpath)
  handled ((fs.setMem m).updateStr hMessage .path loc.newpath) fun fs => do
  let (stat, fs) ← fs.execute ext hMessage
  if stat ≠ .success then .ok (.noMatch, fs.release i)
  else
    ignored (fs.updateStr hMessage .path path) fun fs =>
    ignored (fs.updateIoctl loc hMessage .create) fun fs => do
    let (stat, fs) ← fs.execute ext hMessage
    if stat = .success then opened fs i out else .ok (stat, fs.release i)

/-- The loop over the mounts in `IO_CP_CREATERECURSIVE`: a status if it
returns, and `mountindex`. -/
def mountLoop (loc : Locals) (path : Word) :
    Nat → Status → Int → FileSys → Except FileFault (Option Status × Int × FileSys)
  | 0, _, _, _ => .error (.io (.kernel .diverge))
  | fuel + 1, stat, mountindex, fs =>
      if stat = .success then do
        let (stat, mount) := ioEnumerate fs.io .mount mountindex
        let mount := mount.getD ioHandleNull
        let (_, length, io) ← liftIo (ioInterrogate fs.io mount .path 0 0)
        let fs := { fs with io := io }
        let (st, _, io) ← liftIo (ioInterrogate fs.io mount .path loc.outpath length)
        let fs := { fs with io := io }
        if st ≠ .success then .ok (some st, mountindex, fs)
        else do
          let differ ← liftKernel (ioPathCanonicalizedCompare fs.mem path loc.outpath)
          if differ ≠ 0 then .ok (none, -1, fs)
          else mountLoop loc path fuel stat (mountindex + 1) fs
      else .ok (none, mountindex, fs)

/-- The loop over the components of the path, for this many more of
them. -/
def componentLoop (ext : Extern) (loc : Locals) (i : Fin 50) (hMessage : IoHandle)
    (path out : Word) : Nat → Nat → FileSys → FileResult
  | 0, _, fs => opened fs i out
  | n + 1, pathind, fs => do
      let m ← liftKernel (ioPathKeepNNodes fs.mem path (BitVec.ofNat 32 pathind) loc.outpath)
      handled ((fs.setMem m).updateStr hMessage .path loc.outpath) fun fs =>
      handled (fs.updateIoctl loc hMessage .create) fun fs => do
      let (stat, fs) ← fs.execute ext hMessage
      if stat ≠ .success then .ok (.noMatch, fs.release i)
      else componentLoop ext loc i hMessage path out n (pathind + 1) fs

/-- The case `IO_CP_CREATERECURSIVE`. The table of mounts has five
slots. -/
def openRecursive (ext : Extern) (loc : Locals) (fs : FileSys) (i : Fin 50) (hMessage : IoHandle)
    (stat : Status) (path out : Word) : FileResult := do
  let (early, mountindex, fs) ← mountLoop loc path 7 stat 0 fs
  match early with
  | some st => .ok (st, fs)
  | none =>
      if mountindex < 0 then do
        let numpathparts ← liftKernel (ioPathCountNodes fs.mem path)
        componentLoop ext loc i hMessage path out (numpathparts - 1) 1 fs
      else ignored (fs.delete hMessage) fun fs => .ok (.noMatch, fs)

/-- `IoFileOpen`. If all entries are in use the one behind the table is
taken. The status of `IO_PROTOTYPE` is only printed. -/
def ioFileOpen (ext : Extern) (loc : Locals) (fs : FileSys) (path : Word)
    (strat : IoCreatePolicy) (out : Word) : FileResult :=
  let fs := fs.ready
  match fs.firstFree with
  | none => .error (.table 50)
  | some i =>
      let fs := fs.setFile i { fs.files i with handle := i.val }
      ignored (fs.prototypeMessage i .input) fun fs =>
      let hMessage := (fs.files i).messageIn
      handled (fs.updateStr hMessage .path path) fun fs =>
      handled (fs.updateIoctl loc hMessage .identify) fun fs => do
      let (stat, fs) ← fs.execute ext hMessage
      if stat = .success then opened fs i out
      else match strat with
        | .create => openCreate ext loc fs i hMessage path out
        | .createRecursive => openRecursive ext loc fs i hMessage stat path out
        | .fail => .ok (.noMatch, fs.release i)

def ioFileRead (ext : Extern) (loc : Locals) (fs : FileSys) (hFile : FileHandle)
    (offset plength out : Word) : FileResult :=
  withFile fs hFile fun i =>
  withMessage fs i .input fun fs =>
  let fs := fs.setCursor i ((fs.files i).cursor + offset)
  let message := (fs.files i).messageIn
  handled (fs.updateValint loc message .cursorPosition (fs.files i).cursor) fun fs =>
  handled (fs.updateVoid message .buffer out) fun fs =>
  handled (fs.updateValint loc message .lengthContent (load32 fs.mem plength)) fun fs =>
  handled (fs.updateIoctl loc message .read) fun fs =>
  handled (fs.execute ext message) fun fs =>
  let fs := fs.setCursor i ((fs.files i).cursor + load32 fs.mem plength)
  let cursor := (fs.files i).cursor
  ignored (fs.updateValint loc (fs.files i).messageOut .cursorPosition cursor) fun fs =>
  ignored (fs.updateValint loc (fs.files i).messageIn .cursorPosition cursor) fun fs =>
  .ok (.success, fs)

/-- `IoFileWrite`: the message is not told the cursor before it is
sent. -/
def ioFileWrite (ext : Extern) (loc : Locals) (fs : FileSys) (hFile : FileHandle)
    (offset plength data : Word) : FileResult :=
  withFile fs hFile fun i =>
  withMessage fs i .output fun fs =>
  let fs := fs.setCursor i ((fs.files i).cursor + offset)
  let message := (fs.files i).messageOut
  handled (fs.updateVoid message .buffer data) fun fs =>
  handled (fs.updateValint loc message .lengthContent (load32 fs.mem plength)) fun fs =>
  handled (fs.updateIoctl loc message .write) fun fs =>
  handled (fs.execute ext message) fun fs =>
  let fs := fs.setCursor i ((fs.files i).cursor + load32 fs.mem plength)
  let cursor := (fs.files i).cursor
  ignored (fs.updateValint loc (fs.files i).messageIn .cursorPosition cursor) fun fs =>
  ignored (fs.updateValint loc (fs.files i).messageOut .cursorPosition cursor) fun fs =>
  .ok (.success, fs)

/-- Tell a message the cursor, if there is one. -/
def tellCursor (loc : Locals) (fs : FileSys) (i : Fin 50) (side : Side)
    (k : FileSys → FileResult) : FileResult :=
  if (fs.files i).message side ≠ ioHandleNull then
    handled (fs.updateValint loc ((fs.files i).message side) .cursorPosition (fs.files i).cursor) k
  else k fs

/-- `IoFileSeek`: the cursor is assigned the offset. -/
def ioFileSeek (loc : Locals) (fs : FileSys) (hFile : FileHandle) (offset poffset : Word) :
    FileResult :=
  withFile fs hFile fun i =>
  let fs := fs.setCursor i offset
  tellCursor loc fs i .input fun fs =>
  tellCursor loc fs i .output fun fs =>
  .ok (.success, fs.setMem (store 4 fs.mem poffset (fs.files i).cursor))

/-- The calls that pass on the status of `IO_EXECUTE`: the message is given
a buffer and a length and sent. -/
def request (ext : Extern) (loc : Locals) (fs : FileSys) (message : IoHandle)
    (plength buffer : Word) (ioctl : Ioctl) : FileResult :=
  handled (fs.updateVoid message .buffer buffer) fun fs =>
  handled (fs.updateValint loc message .lengthContent (load32 fs.mem plength)) fun fs =>
  handled (fs.updateIoctl loc message ioctl) fun fs =>
  fs.execute ext message

def ioFileQuery (ext : Extern) (loc : Locals) (fs : FileSys) (hFile : FileHandle)
    (property : IoProp) (plength out : Word) : FileResult :=
  withFile fs hFile fun i =>
  withMessage fs i .input fun fs =>
  let message := (fs.files i).messageIn
  handled (fs.updateValint loc message .prop property.code) fun fs =>
  request ext loc fs message plength out .query

def ioFileSet (ext : Extern) (loc : Locals) (fs : FileSys) (hFile : FileHandle)
    (property : IoProp) (plength data : Word) : FileResult :=
  withFile fs hFile fun i =>
  withMessage fs i .output fun fs =>
  let message := (fs.files i).messageOut
  handled (fs.updateValint loc message .prop property.code) fun fs =>
  request ext loc fs message plength data .write

def ioFileDelete (ext : Extern) (loc : Locals) (fs : FileSys) (hFile : FileHandle) : FileResult :=
  withFile fs hFile fun i =>
  withMessage fs i .output fun fs =>
  handled (fs.updateIoctl loc (fs.files i).messageOut .delete) fun fs =>
  handled (fs.execute ext (fs.files i).messageOut) fun fs =>
  ignored (fs.delete (fs.files i).messageIn) fun fs =>
  ignored (fs.delete (fs.files i).messageOut) fun fs =>
  .ok (.success, fs.setFile i { fs.files i with
    messageIn := ioHandleNull, messageOut := ioHandleNull, handle := ioHandleNull })

/-- `IoFileNextChild`: the index is set after the `IOCTL`. -/
def ioFileNextChild (ext : Extern) (loc : Locals) (fs : FileSys) (hFile : FileHandle)
    (index plength out : Word) : FileResult :=
  withFile fs hFile fun i =>
  withMessage fs i .input fun fs =>
  let message := (fs.files i).messageIn
  handled (fs.updateVoid message .buffer out) fun fs =>
  handled (fs.updateValint loc message .lengthContent (load32 fs.mem plength)) fun fs =>
  handled (fs.updateIoctl loc message .enumerate) fun fs =>
  handled (fs.updateValint loc message .cursorPosition index) fun fs =>
  fs.execute ext message

/-- `IoFileClose`: the messages keep their handles in the entry. -/
def ioFileClose (fs : FileSys) (hFile : FileHandle) : FileResult :=
  withFile fs hFile fun i =>
  ignored (fs.delete (fs.files i).messageOut) fun fs =>
  ignored (fs.delete (fs.files i).messageIn) fun fs =>
  .ok (.success, fs.release i)

end SpKernel
