import SpKernel.QueuePool
import SpKernel.Paging
import SpKernel.Console
import SpKernel.Sio

/-!
# The kernel state, PCBs and stacks (`process.c`, `stack.c`)

The state of the whole kernel: the PCB table, the queues, the memory
manager, the devices and the scalar globals. PCBs and stacks are named by
their index in `_pcbs` and `_stacks`, a null pointer is `none`.

Kernel objects are typed values of their own. Memory (`mm.mem`) holds
what the kernel reaches through addresses: page tables and the buffers
and out-parameters of user processes. A context save area is kept with
its PCB as a `Frame`: the registers, and the words above them on the
stack, where `ARG` finds the arguments of a system call.

The queues of the kernel are those of `QPool`: lists of entries and a
number of free nodes. That this is what the linked lists of `queue.c` do
is shown in `QueuePool`. The free lists of PCBs and stacks, the four
ready queues and the queues of those who wait for something are all of
them, with different comparison functions (`Kernel.order`).

`reports` is not in the source. It records each hand-over of an exit
status to a parent, in `deliver`, where the source stores it through the
parent's out-pointers. Nothing reads it.

The second half has the allocation of stacks and PCBs and the two
searches of the PCB table, `_pcb_find` and the iterator
`_pcb_find_child_of`, whose position is a static variable of the source
and a field of the state here.
-/

namespace SpKernel

open Function (update)
open Lib

/-- An index into `_pcbs`. -/
abbrev PcbId := Fin nPcbs
/-- An index into `_stacks`. -/
abbrev StackId := Fin nStacks

/-- `context_t` -/
structure Context where
  ss : Word
  gs : Word
  fs : Word
  es : Word
  ds : Word
  edi : Word
  esi : Word
  ebp : Word
  esp : Word
  ebx : Word
  edx : Word
  ecx : Word
  eax : Word
  vector : Word
  code : Word
  eip : Word
  cs : Word
  eflags : Word

/-- A saved context and the words above it on the stack. -/
structure Frame where
  regs : Context
  args : Nat → Word

/-- `pcb_t` -/
structure Pcb where
  context : Frame
  stack : Option StackId
  wakeup : Word
  exitstatus : Word
  memory : Word
  pid : Half
  ppid : Half
  children : Half
  state : PState
  prio : Word
  qDefault : Byte
  qTicks : Byte

/-- The queues of PCBs. -/
inductive PQueue where
  | free | ready (prio : Fin nPrios) | sleeping | waiting | reading | zombie
deriving DecidableEq, Fintype

/-- All queue objects. -/
inductive QueueId where
  | pcbs (q : PQueue)
  | freeStacks
deriving DecidableEq, Fintype

/-- What a queue's entries point to. -/
abbrev Entry : QueueId → Type
  | .pcbs _ => PcbId
  | .freeStacks => StackId

/-- Link-time addresses the kernel puts into contexts. -/
structure Image where
  doExit : Word
  init : Word

/-- The exit status of `child` has been handed to `parent` (both PIDs). -/
structure Report where
  parent : Half
  child : Half
  status : Word
deriving DecidableEq

structure Kernel where
  pcbs : PcbId → Pcb
  queues : QPool QueueId Entry
  current : PcbId
  initPcb : PcbId
  nextPid : Half
  /-- the static `curr` of `_pcb_find_child_of` -/
  childCurr : Option PcbId
  /-- the static `target` of `_pcb_find_child_of` -/
  childTarget : Word
  now : Word
  pinwheel : Word
  mm : MemMgr
  sio : Sio
  console : Console
  image : Image
  reports : List Report

abbrev pidInit : Half := 1#16
abbrev pidFirstUser : Half := 100#16
abbrev quantStd : Byte := 5#8

namespace Kernel

def setPcb (k : Kernel) (p : PcbId) (f : Pcb → Pcb) : Kernel :=
  { k with pcbs := update k.pcbs p (f (k.pcbs p)) }

/-- `RET(pcb) = v` -/
def setRet (k : Kernel) (p : PcbId) (v : Word) : Kernel :=
  k.setPcb p fun x => { x with context.regs.eax := v }

/-- `ARG(pcb,n)` -/
def arg (k : Kernel) (p : PcbId) (n : Nat) : Word := (k.pcbs p).context.args n

/-- `ARG(pcb,n) = v` -/
def setArg (k : Kernel) (p : PcbId) (n : Nat) (v : Word) : Kernel :=
  k.setPcb p fun x => { x with context.args := update x.context.args n v }

/-- The entries of a queue of PCBs. -/
def on (k : Kernel) (q : PQueue) : List PcbId := k.queues.items (.pcbs q)

def freeStacks (k : Kernel) : List StackId := k.queues.items .freeStacks

def cmpWakeup (k : Kernel) (p₁ p₂ : PcbId) : Int :=
  if (k.pcbs p₁).wakeup < (k.pcbs p₂).wakeup then -1
  else if (k.pcbs p₁).wakeup = (k.pcbs p₂).wakeup then 0
  else 1

/-- The comparison function a queue was reset with. -/
def order (k : Kernel) : PQueue → Option (PcbId → PcbId → Int)
  | .sleeping => some k.cmpWakeup
  | _ => none

/-- `_q_enque` on a queue of PCBs. -/
def enque (k : Kernel) (q : PQueue) (p : PcbId) : Status × Kernel :=
  let (status, queues) := k.queues.enque (.pcbs q) (k.order q) p
  (status, { k with queues := queues })

/-- `_q_deque` on a queue of PCBs. -/
def deque (k : Kernel) (q : PQueue) : Status × Option PcbId × Kernel :=
  let (status, p, queues) := k.queues.deque (.pcbs q)
  (status, p, { k with queues := queues })

/-- `_q_remove` on a queue of PCBs. -/
def remove (k : Kernel) (q : PQueue) (p : PcbId) : Status × Kernel :=
  let (status, queues) := k.queues.remove (.pcbs q) p
  (status, { k with queues := queues })

end Kernel

/-! ## Stacks -/

def stkDealloc (k : Kernel) (stack : Option StackId) : Kernel :=
  match stack with
  | none => k
  | some s => { k with queues := (k.queues.enque .freeStacks none s).2 }

def stkAlloc (k : Kernel) : Except Fault (Option StackId × Kernel) :=
  if k.queues.size .freeStacks < 1 then .ok (none, k)
  else
    match k.queues.deque .freeStacks with
    | (.success, some s, queues) => .ok (some s, { k with queues := queues })
    | _ => .error (.kpanic "_stk_alloc" "can't deque from non-empty queue")

def stkInit (k : Kernel) : Kernel :=
  (List.finRange nStacks).foldl (fun k s => stkDealloc k (some s)) k

/-- `_stk_setup`: the fresh context, under a fake call from `do_exit`
with one argument. The rest of the stack is cleared. -/
def stkSetup (image : Image) (entry arg : Word) : Frame where
  regs :=
    { ss := 0x20, gs := 0x18, fs := 0x18, es := 0x18, ds := 0x18, edi := 0, esi := 0,
      ebp := 0, esp := 0, ebx := 0, edx := 0, ecx := 0, eax := 0, vector := 0, code := 0,
      eip := entry, cs := 0x10, eflags := 0x202 }
  args := fun n => if n = 0 then image.doExit else if n = 1 then arg else 0

/-! ## PCBs -/

/-- The field updates of `_pcb_dealloc`. -/
def Pcb.makeFree (x : Pcb) : Pcb := { x with state := .free, pid := -1, ppid := -1 }

def pcbDealloc (k : Kernel) (p : PcbId) : Kernel :=
  let k := k.setPcb p Pcb.makeFree
  (k.enque .free p).2

def pcbAlloc (k : Kernel) : Except Fault (Option PcbId × Kernel) :=
  if k.queues.size (.pcbs .free) < 1 then .ok (none, k)
  else
    match k.deque .free with
    | (.success, some p, k) => .ok (some p, k.setPcb p fun x => { x with state := .new })
    | _ => .error (.kpanic "_pcb_alloc" "no free PCBs but size >= 1")

def pcbCleanup (k : Kernel) (p : PcbId) : Kernel :=
  pcbDealloc (stkDealloc k (k.pcbs p).stack) p

def pcbInit (k : Kernel) : Kernel :=
  { (List.finRange nPcbs).foldl pcbDealloc k with nextPid := pidFirstUser }

def pcbFind (k : Kernel) (pid : Half) : Option PcbId :=
  (List.finRange nPcbs).find? fun p => (k.pcbs p).pid == pid

/-- The first PCB from index `i` on whose `ppid`, widened to an `int`, is
the target. -/
def findChildFrom (k : Kernel) (target : Word) (i : Nat) : Option PcbId :=
  (List.finRange nPcbs).find? fun p =>
    decide (i ≤ p.val) && (k.pcbs p).ppid.signExtend 32 == target

/-- `_pcb_find_child_of`: start a search, or with -1 continue it. -/
def pcbFindChildOf (k : Kernel) (ppid : Word) : Except Fault (Option PcbId × Kernel) :=
  match k.childCurr with
  | none =>
      if ppid = -1 then .error (.kpanic "_pcb_find_child_of" "ppid -1 but curr NULL")
      else search ppid 0
  | some curr => if ppid ≠ -1 then search ppid 0 else search k.childTarget (curr.val + 1)
where
  search (target : Word) (start : Nat) : Except Fault (Option PcbId × Kernel) :=
    match findChildFrom k target start with
    | some p => .ok (some p, { k with childCurr := some p, childTarget := target })
    | none => .ok (none, { k with childCurr := none, childTarget := -1 })

end SpKernel
