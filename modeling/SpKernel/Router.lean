import SpKernel.IoObjects

/-!
# The I/O manager (`router.c`)

Objects are known by handles, the indices of `HANDLE_TABLE`. An entry has
the handle, the type and the object; a handle field of -1 marks a free
entry, and in the pools a free slot. `grab_handle` looks for a free entry
and uses the one behind it, as the source has it; behind the last one
there is none, and the model stops.

The calls of the system-call layer are `ioPrototype`, `ioDelete` and
`ioExecute` here, and `IO_UPDATE`, `IO_INTERROGATE` and `IO_ENUMERATE` in
`IoFile`, with the functions on files that use them.

Filters and filesystems are function pointers. `Extern` says what the
function at an address does with a message; `ioExecute` returns the
addresses of the functions it has called besides its result, so that
routing can be stated as a property of that list.

`IoFault` has what can stop the router: a fault of the kernel below, an
index outside of the table, and a pointer that is followed as an object
of another kind.
-/

namespace SpKernel

open Function (update)
open Lib

/-- `struct _ioentry` -/
structure IoEntry where
  handle : IoHandle
  type : IoObjType
  locked : Int
  object : Option IoRef
  owner : Int
deriving DecidableEq

/-- The state of the I/O layer. `IO_HANDLE_NEXT` is only ever assigned an
index of the table. -/
structure Io where
  mm : MemMgr
  next : Fin 100
  table : Fin 100 → IoEntry
  filesystems : Pool 5 IoFilesystem
  devices : Pool 5 IoDevice
  middlewares : Pool 5 IoMiddleware
  messages : Pool 50 IoMessage
  mounts : Pool 5 IoMount

/-- How the I/O layer fails: a fault of the kernel, an index outside
`HANDLE_TABLE`, or a pointer that is followed as an object of another
kind. -/
inductive IoFault where
  | kernel (f : Fault)
  | bounds (index : Int)
  | wild
deriving DecidableEq

/-- A computation of the kernel. -/
def liftFault {α : Type} (r : Except Fault α) : Except IoFault α := r.mapError .kernel

/-- `HANDLE_TABLE[i]` -/
def tableIndex (i : Int) : Except IoFault (Fin 100) :=
  if h : 0 ≤ i ∧ i < 100 then .ok ⟨i.toNat, by omega⟩ else .error (.bounds i)

def Io.setEntry (io : Io) (i : Fin 100) (e : IoEntry) : Io :=
  { io with table := update io.table i e }

/-! ## Handles -/

/-- An entry as `IO_INIT` leaves it. -/
def freeEntry : IoEntry := ⟨ioHandleNull, .unknown, 0, none, 0⟩

/-- The entry has a handle. -/
def Io.taken (io : Io) (i : Fin 100) : Bool := decide ((io.table i).handle ≠ ioHandleNull)

/-- `grab_handle`. The search is back at its start after 100 entries. The
assignment `IO_HANDLE_NEXT = proto_handle++` keeps the index of the free
entry, and the entry behind it is used. -/
def grabHandle (io : Io) : Except IoFault (Status × IoHandle × Io) :=
  match cyclicSearch io.taken io.next 100 io.next with
  | none => .error (.kernel .diverge)
  | some none => .ok (.noMoreHandles, ioHandleNull, io)
  | some (some proto) => do
      let io := { io with next := proto }
      let handle : IoHandle := proto.val + 1
      let i ← tableIndex handle
      .ok (.success, handle, io.setEntry i ⟨handle, .unknown, 0, none, 0⟩)

def ioHandleIsValid (io : Io) (handle : IoHandle) : Bool :=
  match tableIndex handle with
  | .ok i => decide ((io.table i).handle = handle)
  | .error _ => false

/-- `IO_INIT`, from any contents of the tables. The loop over the handles
stops before the last one. -/
def ioInit (io : Io) : Io :=
  { io with
    filesystems := io.filesystems.init
    devices := io.devices.init
    messages := io.messages.init
    middlewares := io.middlewares.init
    mounts := io.mounts.init
    table := fun i => if i.val < 99 then freeEntry else io.table i }

/-- The I/O layer before `IO_INIT`: static storage. -/
def Io.zero (mm : MemMgr) : Io where
  mm := mm
  next := 0
  table := fun _ => ⟨0, .filesystem, 0, none, 0⟩
  filesystems := ⟨0, fun _ => ⟨0, 0, 0, 0, 0⟩⟩
  devices := ⟨0, fun _ => ⟨0, 0, 0, 0, 0⟩⟩
  middlewares := ⟨0, fun _ => ⟨0, 0, 0⟩⟩
  messages := ⟨0, fun _ => ⟨0, 0, .addr 0, .addr 0, .addr 0, 0, 0, .success, 0, 0⟩⟩
  mounts := ⟨0, fun _ => ⟨0, 0, 0, 0, 0, 0⟩⟩

/-- The object is constructed in a slot of its pool, and the entry points
to it. -/
def construct {n : Nat} [NeZero n] {α : Type} [IoObject α] (P : Pool n α) (ref : Fin n → IoRef)
    (put : Io → Pool n α → Io) (io : Io) (handle : IoHandle) :
    Except IoFault (Status × IoHandle × Io) := do
  let (stat, slot, P) ← liftFault P.grabNext
  match slot with
  | none => .ok (stat, ioHandleNull, put io P)
  | some slot => do
      let io := put io (P.set slot (IoObject.initHandle handle))
      let i ← tableIndex handle
      .ok (.success, handle, io.setEntry i { io.table i with object := some (ref slot) })

/-- The `switch` of `IO_PROTOTYPE`. -/
def constructAs (io : Io) (type : IoObjType) (handle : IoHandle) :
    Except IoFault (Status × IoHandle × Io) :=
  match type with
  | .filesystem => construct io.filesystems .filesystem ({ · with filesystems := · }) io handle
  | .device => construct io.devices .device ({ · with devices := · }) io handle
  | .middleware => construct io.middlewares .middleware ({ · with middlewares := · }) io handle
  | .message => construct io.messages .message ({ · with messages := · }) io handle
  | .mount => construct io.mounts .mount ({ · with mounts := · }) io handle
  | _ => .ok (.badType, ioHandleNull, io)

/-- `IO_PROTOTYPE`, with the handle that is returned on success. -/
def ioPrototype (io : Io) (type : IoObjType) : Except IoFault (Status × IoHandle × Io) := do
  let (stat, handle, io) ← grabHandle io
  if stat ≠ .success then .ok (stat, ioHandleNull, io)
  else do
    let i ← tableIndex handle
    constructAs (io.setEntry i { io.table i with type := type }) type handle

/-- The object of a valid entry is deleted: its strings are freed and its
slot is reset. -/
def deleteObject (io : Io) (e : IoEntry) : Except IoFault (Option Io) :=
  match e.type, e.object with
  | .message, some (.message i) =>
      .ok (some { io with
        mm := freeIo io.mm (io.messages.slots i).path
        messages := io.messages.set i (IoObject.initHandle ioHandleNull) })
  | .filesystem, some (.filesystem i) =>
      .ok (some { io with
        mm := freeIo io.mm (io.filesystems.slots i).name
        filesystems := io.filesystems.set i (IoObject.initHandle ioHandleNull) })
  | .device, some (.device i) =>
      .ok (some { io with
        mm := freeIo io.mm (io.devices.slots i).name
        devices := io.devices.set i (IoObject.initHandle ioHandleNull) })
  | .mount, some (.mount i) =>
      .ok (some { io with
        mm := freeIo (freeIo io.mm (io.mounts.slots i).name) (io.mounts.slots i).path
        mounts := io.mounts.set i (IoObject.initHandle ioHandleNull) })
  | .middleware, some (.middleware i) =>
      .ok (some { io with
        mm := freeIo io.mm (io.middlewares.slots i).name
        middlewares := io.middlewares.set i (IoObject.initHandle ioHandleNull) })
  | .filter, _ | .file, _ | .unknown, _ => .ok none
  | _, none => .error (.kernel .null)
  | _, some _ => .error .wild

/-- `IO_DELETE`: also when the object has been deleted the result is
`E_NOT_IMPLEMENTED`. -/
def ioDelete (io : Io) (handle : IoHandle) : Except IoFault (Status × Io) :=
  if ioHandleIsValid io handle then do
    let i ← tableIndex handle
    match ← deleteObject io (io.table i) with
    | none => .ok (.badArg, io)
    | some io =>
        .ok (.notImplemented,
          io.setEntry i { io.table i with handle := ioHandleNull, locked := 0 })
  else .ok (.badHandle, io)

/-! ## Messages -/

/-- What the function at an address does when it is called with the
message in this slot. -/
abbrev Extern := Word → Fin 50 → Io → Except IoFault (Status × Io)

/-- Call through a pointer. -/
def callExtern (ext : Extern) (f : Word) (msg : Fin 50) (io : Io) : Except IoFault (Status × Io) :=
  if f = 0 then .error (.kernel .null) else ext f msg io

/-- `HANDLE_TABLE[handle].object` -/
def objectAt (io : Io) (handle : IoHandle) : Except IoFault IoRef := do
  let i ← tableIndex handle
  match (io.table i).object with
  | some r => .ok r
  | none => .error (.kernel .null)

/-- `HANDLE_TABLE[handle].object`, as a pointer that is not followed. -/
def pointerAt (io : Io) (handle : IoHandle) : Except IoFault IoPtr := do
  let i ← tableIndex handle
  match (io.table i).object with
  | some r => .ok (.object r)
  | none => .ok (.addr 0)

def asMessage : IoRef → Except IoFault (Fin 50)
  | .message i => .ok i
  | _ => .error .wild

def asMount : IoRef → Except IoFault (Fin 5)
  | .mount i => .ok i
  | _ => .error .wild

def asMiddleware : IoRef → Except IoFault (Fin 5)
  | .middleware i => .ok i
  | _ => .error .wild

def asFilesystem : IoRef → Except IoFault (Fin 5)
  | .filesystem i => .ok i
  | _ => .error .wild

/-- `*out = handle` -/
def storeHandle (mm : MemMgr) (out : Word) (handle : IoHandle) : Except IoFault MemMgr :=
  if out = 0 then .error (.kernel .null)
  else .ok { mm with mem := store 4 mm.mem out (BitVec.ofInt 32 handle) }

/-- `*out` -/
def loadHandle (mm : MemMgr) (out : Word) : Except IoFault IoHandle :=
  if out = 0 then .error (.kernel .null) else .ok (load32 mm.mem out).toInt

def callFilter (ext : Extern) (io : Io) (handle : IoHandle) (index : Int) :
    Except IoFault (Status × List Word × Io) :=
  match io.middlewares.iterate index with
  | (.success, some md) => do
      let filter ← asMiddleware (← objectAt io md)
      let pm ← asMessage (← objectAt io handle)
      let execute := (io.middlewares.slots filter).execute
      let (st, io) ← callExtern ext execute pm io
      .ok (st, [execute], io)
  | (st, _) => .ok (st, [], io)

/-- The number of characters in which two strings differ. -/
def mismatches (m : Mem) (a b : Word) (n : Nat) : Nat :=
  (List.range n).countP fun i =>
    decide (m (a + BitVec.ofNat 32 i) ≠ m (b + BitVec.ofNat 32 i))

/-- The loop of `match_path`. The iteration ends after the last mount. -/
def matchLoop (io : Io) (msg : Fin 50) (path index filesystem device : Word) :
    Nat → Int → Except IoFault (Status × Io)
  | 0, _ => .error (.kernel .diverge)
  | fuel + 1, iter =>
      match ioMpIterate io.mounts iter with
      | (.success, some mountHandle) => do
          let m ← asMount (← objectAt io mountHandle)
          let mp := io.mounts.slots m
          let length ← liftFault (strlen io.mm.mem mp.path)
          if length = index.toNat then
            if mismatches io.mm.mem mp.path path index.toNat = 0 then do
              let mm ← storeHandle io.mm filesystem mp.filesystem
              let mm ← storeHandle mm device mp.device
              let message := { io.messages.slots msg with mount := .object (.mount m) }
              .ok (.success, { io with mm := mm, messages := io.messages.set msg message })
            else matchLoop io msg path index filesystem device fuel (iter + 1)
          else matchLoop io msg path index filesystem device fuel (iter + 1)
      | _ => .ok (.noMatch, io)

/-- `match_path`, with the addresses of its two results. -/
def matchPath (io : Io) (handle : IoHandle) (filesystem device : Word) :
    Except IoFault (Status × Io) := do
  let msg ← asMessage (← objectAt io handle)
  let path := (io.messages.slots msg).path
  let path := if io.mm.mem path = 0x5C then path + 1#32 else path
  let index ← liftFault (strpos io.mm.mem path 0x5C 0)
  matchLoop io msg path (BitVec.ofInt 32 index) filesystem device 6 0

/-- Call all filters: the result is `E_CANCELED`, or none. -/
def filterLoop (ext : Extern) (handle : IoHandle) (msg : Fin 50) :
    Nat → Int → Io → Except IoFault (Option Status × List Word × Io)
  | 0, _, _ => .error (.kernel .diverge)
  | fuel + 1, index, io => do
      let (st, called, io) ← callFilter ext io handle index
      if st = .success then
        if (io.messages.slots msg).status = .canceled then .ok (some .canceled, called, io)
        else do
          let (r, rest, io) ← filterLoop ext handle msg fuel (index + 1) io
          .ok (r, called ++ rest, io)
      else .ok (none, called, io)

/-- `IO_EXECUTE`, with the functions it has called. The handles of the
filesystem and the device are asked for through `NULL` pointers. -/
def ioExecute (ext : Extern) (io : Io) (handle : IoHandle) :
    Except IoFault (Status × List Word × Io) :=
  if ioHandleIsValid io handle then do
    let i ← tableIndex handle
    if (io.table i).type ≠ .message then .ok (.badHandle, [], io)
    else do
      let fs : Word := 0
      let dev : Word := 0
      let (st, io) ← matchPath io handle fs dev
      if st ≠ .success then .ok (st, [], io)
      else do
        let msg ← asMessage (← objectAt io handle)
        let device ← pointerAt io (← loadHandle io.mm dev)
        let filesystem ← pointerAt io (← loadHandle io.mm fs)
        let message := { io.messages.slots msg with device := device, filesystem := filesystem }
        let io := { io with messages := io.messages.set msg message }
        let (r, called, io) ← filterLoop ext handle msg 6 0 io
        match r with
        | some st => .ok (st, called, io)
        | none => do
            let pfs ← asFilesystem (← objectAt io (← loadHandle io.mm fs))
            let execute := (io.filesystems.slots pfs).execute
            let (st, io) ← callExtern ext execute msg io
            .ok (st, called ++ [execute], io)
  else .ok (.badHandle, [], io)

end SpKernel
