import SpKernel.Strings
import SpKernel.Pages
import SpKernel.Lib.Cyclic

/-!
# The objects of the I/O layer (`kern/io`)

Filesystems, devices, middleware, messages and mounts. Each kind has a
pool of its own, a table with a cursor, and functions to set and get the
properties of one object. Objects are values in their pools and pointers
to them name the slot; strings, buffers and the values of properties are
in memory.

What the five pools have in common is written once, over a class of
objects with a handle (`IoObject`): a slot is free if its object has the
null handle, `Pool.grabNext` goes once around the table from the cursor,
and `Pool.iterate` goes through the slots. The one pool that differs is
that of the mounts, whose iteration ends at a free slot (`ioMpIterate`).

`malloc` and `free` are those of `memshim.c`, a page at a time. The
functions for the string properties are the same five times over but for
two slips, which the definitions keep: the middleware's name trusts the
length it is given, and the mount's name is read from its path. They are
`setString` and `getString` with the pointers of the kind; each kind has
its `switch` over the properties, with the statuses of the source for
those it does not have.
-/

namespace SpKernel

open Function (update)
open Lib

abbrev IoHandle := Int
abbrev ioHandleNull : IoHandle := -1

inductive IoObjType where
  | filesystem | device | filter | file | middleware | message | mount | unknown
deriving Repr, DecidableEq

inductive IoProp where
  | isDir | countChildren | parentPath | path | lastRead | lastModified | created | lengthContent
  | cursorPosition | name | filesystem | device | execute | init | read | write | finalize | ioctl
  | buffer | hidden | system | archive | locked | fsGrab | prop
deriving Repr, DecidableEq

/-! The sizes of the pools and of the table of handles are not zero. -/

instance neZeroObjects : NeZero 5 := ⟨by decide⟩

instance neZeroMessages : NeZero 50 := ⟨by decide⟩

instance neZeroHandles : NeZero 100 := ⟨by decide⟩

/-- A pointer to an object of one of the pools. -/
inductive IoRef where
  | filesystem (i : Fin 5)
  | device (i : Fin 5)
  | middleware (i : Fin 5)
  | message (i : Fin 50)
  | mount (i : Fin 5)
deriving Repr, DecidableEq

/-- A `void *` that may point to an object. -/
inductive IoPtr where
  | addr (a : Word)
  | object (r : IoRef)
deriving DecidableEq

structure IoFilesystem where
  handle : IoHandle
  name : Word
  execute : Word
  init : Word
  finalize : Word
deriving DecidableEq

structure IoDevice where
  handle : IoHandle
  name : Word
  read : Word
  write : Word
  finalize : Word
deriving DecidableEq

structure IoMiddleware where
  handle : IoHandle
  name : Word
  execute : Word
deriving DecidableEq

/-- `IO_MESSAGE`; the union `offset_prop` is kept as a word. -/
structure IoMessage where
  handle : IoHandle
  path : Word
  filesystem : IoPtr
  device : IoPtr
  mount : IoPtr
  buffer : Word
  length : Int
  status : Status
  ioctl : Word
  offsetProp : Word
deriving DecidableEq

structure IoMount where
  handle : IoHandle
  name : Word
  path : Word
  fsGrabBag : Word
  filesystem : IoHandle
  device : IoHandle
deriving DecidableEq

/-! ## Pools -/

/-- The kinds of objects: each has a handle field. -/
class IoObject (α : Type) where
  handle : α → IoHandle
  setHandle : α → IoHandle → α
  /-- `_io_*_init_handle`; with `IOHANDLE_NULL` it is `_io_*_init_null` -/
  initHandle : IoHandle → α

instance : IoObject IoFilesystem where
  handle x := x.handle
  setHandle x h := { x with handle := h }
  initHandle h := ⟨h, 0, 0, 0, 0⟩

instance : IoObject IoDevice where
  handle x := x.handle
  setHandle x h := { x with handle := h }
  initHandle h := ⟨h, 0, 0, 0, 0⟩

instance : IoObject IoMiddleware where
  handle x := x.handle
  setHandle x h := { x with handle := h }
  initHandle h := ⟨h, 0, 0⟩

instance : IoObject IoMessage where
  handle x := x.handle
  setHandle x h := { x with handle := h }
  initHandle h := ⟨h, 0, .addr 0, .addr 0, .addr 0, 0, 0, .noData, 0, 0⟩

instance : IoObject IoMount where
  handle x := x.handle
  setHandle x h := { x with handle := h }
  initHandle h := ⟨h, 0, 0, 0, ioHandleNull, ioHandleNull⟩

/-- The table of a kind, and the cursor `_io_*_next`. -/
structure Pool (n : Nat) (α : Type) where
  next : Fin n
  slots : Fin n → α

section Pool

variable {n : Nat} {α : Type}

def Pool.set (P : Pool n α) (i : Fin n) (x : α) : Pool n α := { P with slots := update P.slots i x }

@[simp] theorem Pool.set_self (P : Pool n α) (i : Fin n) (x : α) : (P.set i x).slots i = x :=
  Function.update_self ..

@[simp] theorem Pool.set_other (P : Pool n α) {i j : Fin n} (x : α) (h : j ≠ i) :
    (P.set i x).slots j = P.slots j :=
  Function.update_of_ne h ..

variable [NeZero n] [IoObject α]

/-- `_io_init_*` -/
def Pool.init (P : Pool n α) : Pool n α :=
  { P with slots := fun _ => IoObject.initHandle ioHandleNull }

/-- The slot has a handle. -/
def Pool.inUse (P : Pool n α) (i : Fin n) : Bool :=
  decide (IoObject.handle (P.slots i) ≠ ioHandleNull)

/-- `_io_grab_next_*`: the cursor is back at its start after `n` slots. -/
def Pool.grabNext (P : Pool n α) : Except Fault (Status × Option (Fin n) × Pool n α) :=
  match cyclicSearch P.inUse P.next n P.next with
  | none => .error .diverge
  | some none => .ok (.outOfObjects, none, P)
  | some (some cursor) =>
      let P := { P with next := cursor + 1 }
      .ok (.success, some cursor, P.set cursor (IoObject.setHandle (P.slots cursor) 0))

/-- `_io_*_iterate` -/
def Pool.iterate (P : Pool n α) (index : Int) : Status × Option IoHandle :=
  if h : 0 ≤ index ∧ index < n then
    (.success, some (IoObject.handle (P.slots ⟨index.toNat, by omega⟩)))
  else (.outOfBounds, none)

end Pool

/-- `_io_mp_iterate` also ends at a free slot. -/
def ioMpIterate (P : Pool 5 IoMount) (index : Int) : Status × Option IoHandle :=
  match P.iterate index with
  | (.success, some h) => if h = ioHandleNull then (.outOfBounds, none) else (.success, some h)
  | r => r

/-! ## Properties -/

def mallocIo (mm : MemMgr) (size : Nat) : Except Fault (Word × MemMgr) :=
  if size = 0 then .ok (0, mm) else getNextPage mm

def freeIo (mm : MemMgr) (address : Word) : MemMgr := (freePage mm address).2

/-- The memory for a string of this length: the old page, if there is one
and the string on it is not shorter. -/
def stringSpace (mm : MemMgr) (old : Word) (length : Nat) : Except Fault (Word × MemMgr) :=
  if old = 0 then mallocIo mm (length + 1)
  else do
    let n ← strlen mm.mem old
    if n < length then mallocIo (freeIo mm old) (length + 1) else .ok (old, mm)

/-- Set a string property whose old value is `old`. -/
def setString (mm : MemMgr) (old value : Word) (length : Nat) : Except Fault (Word × MemMgr) := do
  let (p, mm) ← stringSpace mm old length
  let m ← strcpy mm.mem p value
  .ok (p, { mm with mem := m })

/-- Get a string property: the length is that of `str`, and `src` is what
is copied. -/
def getString (mm : MemMgr) (str src value : Word) (plength : Int) :
    Except Fault (Status × Int × MemMgr) := do
  let length ← strlen mm.mem str
  if plength < length then .ok (.moreData, length, mm)
  else do
    let m ← strcpy mm.mem value src
    .ok (.success, length, { mm with mem := m })

/-- Get a property of the size of a word. -/
def getWord (mm : MemMgr) (value v : Word) : Except Fault (Status × Int × MemMgr) :=
  .ok (.success, 4, { mm with mem := store 4 mm.mem value v })

/-- The checks every `_io_*_setprop` and `_io_*_getprop` begins with. -/
def checked {β : Type} (handle : IoHandle) (length : Int) (bad : Status → β)
    (r : Except Fault β) : Except Fault β :=
  if length < 0 then .ok (bad .badArg)
  else if handle < 0 then .ok (bad .badHandle)
  else r

def ioFsSetprop (mm : MemMgr) (fs : IoFilesystem) (which : IoProp) (value : Word) (length : Int) :
    Except Fault (Status × IoFilesystem × MemMgr) :=
  checked fs.handle length (·, fs, mm) <|
    match which with
    | .name => do
        let length ← strlen mm.mem value
        let (p, mm) ← setString mm fs.name value length
        .ok (.success, { fs with name := p }, mm)
    | .execute => .ok (.success, { fs with execute := value }, mm)
    | .init => .ok (.success, { fs with init := value }, mm)
    | .finalize => .ok (.success, { fs with finalize := value }, mm)
    | _ => .ok (.badArg, fs, mm)

def ioFsGetprop (mm : MemMgr) (fs : IoFilesystem) (which : IoProp) (value : Word) (plength : Int) :
    Except Fault (Status × Int × MemMgr) :=
  checked fs.handle plength (·, plength, mm) <|
    match which with
    | .name => getString mm fs.name fs.name value plength
    | .execute => getWord mm value fs.execute
    | .init => getWord mm value fs.init
    | .finalize => getWord mm value fs.finalize
    | _ => .ok (.badArg, plength, mm)

def ioDvSetprop (mm : MemMgr) (dv : IoDevice) (which : IoProp) (value : Word) (length : Int) :
    Except Fault (Status × IoDevice × MemMgr) :=
  checked dv.handle length (·, dv, mm) <|
    match which with
    | .name => do
        let length ← strlen mm.mem value
        let (p, mm) ← setString mm dv.name value length
        .ok (.success, { dv with name := p }, mm)
    | .read => .ok (.success, { dv with read := value }, mm)
    | .write => .ok (.success, { dv with write := value }, mm)
    | .finalize => .ok (.success, { dv with finalize := value }, mm)
    | _ => .ok (.badArg, dv, mm)

def ioDvGetprop (mm : MemMgr) (dv : IoDevice) (which : IoProp) (value : Word) (plength : Int) :
    Except Fault (Status × Int × MemMgr) :=
  checked dv.handle plength (·, plength, mm) <|
    match which with
    | .name => getString mm dv.name dv.name value plength
    | .read => getWord mm value dv.read
    | .write => getWord mm value dv.write
    | .finalize => getWord mm value dv.finalize
    | _ => .ok (.badArg, plength, mm)

/-- The name is given the length the caller says, not its own. -/
def ioMdSetprop (mm : MemMgr) (md : IoMiddleware) (which : IoProp) (value : Word) (length : Int) :
    Except Fault (Status × IoMiddleware × MemMgr) :=
  checked md.handle length (·, md, mm) <|
    match which with
    | .name => do
        let (p, mm) ← setString mm md.name value length.toNat
        .ok (.success, { md with name := p }, mm)
    | .execute => .ok (.success, { md with execute := value }, mm)
    | _ => .ok (.badArg, md, mm)

def ioMdGetprop (mm : MemMgr) (md : IoMiddleware) (which : IoProp) (value : Word) (plength : Int) :
    Except Fault (Status × Int × MemMgr) :=
  checked md.handle plength (·, plength, mm) <|
    match which with
    | .name => getString mm md.name md.name value plength
    | .execute => getWord mm value md.execute
    | _ => .ok (.badArg, plength, mm)

def ioMsgSetprop (mm : MemMgr) (msg : IoMessage) (which : IoProp) (value : Word) (length : Int) :
    Except Fault (Status × IoMessage × MemMgr) :=
  checked msg.handle length (·, msg, mm) <|
    match which with
    | .path => do
        let length ← strlen mm.mem value
        let (p, mm) ← setString mm msg.path value length
        .ok (.success, { msg with path := p }, mm)
    | .filesystem => .ok (.success, { msg with filesystem := .addr value }, mm)
    | .device => .ok (.success, { msg with device := .addr value }, mm)
    | .buffer => .ok (.success, { msg with buffer := value }, mm)
    | .cursorPosition => .ok (.success, { msg with offsetProp := load32 mm.mem value }, mm)
    | .prop => .ok (.success, { msg with offsetProp := load32 mm.mem value }, mm)
    | .ioctl => .ok (.success, { msg with ioctl := load32 mm.mem value }, mm)
    | _ => .ok (.badArg, msg, mm)

def ioMsgGetprop (mm : MemMgr) (msg : IoMessage) (which : IoProp) (value : Word) (plength : Int) :
    Except Fault (Status × Int × MemMgr) :=
  checked msg.handle plength (·, plength, mm) <|
    match which with
    | .path => getString mm msg.path msg.path value plength
    | .buffer => getWord mm value msg.buffer
    | .cursorPosition => getWord mm value msg.offsetProp
    | .prop => getWord mm value msg.offsetProp
    | _ => .ok (.badArg, plength, mm)

def ioMpSetprop (mm : MemMgr) (mp : IoMount) (which : IoProp) (value : Word) (length : Int) :
    Except Fault (Status × IoMount × MemMgr) :=
  checked mp.handle length (·, mp, mm) <|
    match which with
    | .path => do
        let length ← strlen mm.mem value
        let (p, mm) ← setString mm mp.path value length
        .ok (.success, { mp with path := p }, mm)
    | .name => do
        let length ← strlen mm.mem value
        let (p, mm) ← setString mm mp.name value length
        .ok (.success, { mp with name := p }, mm)
    | .filesystem => .ok (.success, { mp with filesystem := (load32 mm.mem value).toInt }, mm)
    | .device => .ok (.success, { mp with device := (load32 mm.mem value).toInt }, mm)
    | .fsGrab => .ok (.success, { mp with fsGrabBag := value }, mm)
    | _ => .ok (.badArg, mp, mm)

/-- The name has its own length and the characters of the path. -/
def ioMpGetprop (mm : MemMgr) (mp : IoMount) (which : IoProp) (value : Word) (plength : Int) :
    Except Fault (Status × Int × MemMgr) :=
  checked mp.handle plength (·, plength, mm) <|
    match which with
    | .path => getString mm mp.path mp.path value plength
    | .name => getString mm mp.name mp.path value plength
    | .filesystem => getWord mm value (BitVec.ofInt 32 mp.filesystem)
    | .device => getWord mm value (BitVec.ofInt 32 mp.device)
    | _ => .ok (.badArg, plength, mm)

end SpKernel
