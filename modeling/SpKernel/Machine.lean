import SpKernel.Syscall

/-!
# The machine (`clock.c`, `sio.c`, `memory_map.c`, `isr_stubs.S`, `_init`)

The remaining interrupt handlers, the common interrupt stub around every
handler, system initialisation, and the kernel as a state machine whose
events are the interrupts of the running process.

An `Event` is what can happen to the process that runs: it stores
something, or it is interrupted, with the frame that the processor and
the stub leave on its stack, by a system call with any code and
arguments, a clock tick, the serial line, the keyboard, or a page fault.
`step` is one event from user mode to user mode: the stub saves the frame
(`isrSave`), the handler of the cause runs to its end, and `isrRestore`
goes on with whatever process is the current one then. Interrupts are off
meanwhile, so that nothing comes in between.

A step fails where the kernel panics or hangs. There is no other way to
leave the loop, and a run (`Steps step k₀ tr k`) is a list of steps none
of which has failed.

`init` builds the first state as `_init` does, from a machine of which
only the memory is arbitrary. It takes the image of the first process,
the memory with the table of pages as `setup_page_availibility_table`
leaves it, and the number of pages that the drivers take before the first
process is made.
-/

namespace SpKernel

open Lib

/-! ## Interrupt handlers -/

/-- Wake up any sleeper whose time has come. -/
def wakeLoop : Nat → Kernel → Except Fault Kernel
  | 0, _ => .error .diverge
  | fuel + 1, k =>
      match k.queues.peek (.pcbs .sleeping) with
      | (.success, some p) =>
        if (k.pcbs p).wakeup ≤ k.now then
          match k.deque .sleeping with
          | (.success, some p, k) => do
            let k ← schedule k p
            wakeLoop fuel k
          | _ => .error (.kpanic "_clk_isr" "sleep queue remove failure")
        else .ok k
      | _ => .ok k

/-- `_clk_isr`. Every round of the loop takes an entry off the queue, so
its length bounds the rounds. -/
def clkIsr (k : Kernel) : Except Fault Kernel := do
  let pinwheel := if k.pinwheel + 1 = 100 then 0 else k.pinwheel + 1
  let k := { k with pinwheel := pinwheel, now := k.now + 1 }
  let k ← wakeLoop (k.queues.size (.pcbs .sleeping) + 1) k
  let p := k.current
  let k := k.setPcb p fun x => { x with qTicks := x.qTicks - 1 }
  if (k.pcbs p).qTicks < 1 then do
    let k ← schedule k p
    dispatch k
  else .ok k

/-- A pending event of the serial controller, with the data register. -/
inductive SioEvent where
  | lineStatus | rx (ch : Byte) | rxTimeout (ch : Byte) | tx | modemStatus
  | unknown
deriving Repr, DecidableEq

/-- One round of `_sio_isr`. -/
def sioEvent (k : Kernel) : SioEvent → Except Fault Kernel
  | .lineStatus | .rxTimeout _ | .modemStatus => .ok k
  | .rx ch =>
      let ch := if ch = 13 then 10 else ch
      if 0 < k.queues.size (.pcbs .reading) then
        match k.deque .reading with
        | (.success, some p, k) => schedule (k.setRet p (ch.setWidth 32)) p
        | _ => .error (.kpanic "_sio_isr" "read queue remove failed")
      else .ok { k with sio := sioReceive k.sio ch }
  | .tx => .ok { k with sio := sioTransmit k.sio }
  | .unknown => .error (.kpanic "_sio_isr" "unknown device status")

/-- `_sio_isr`: handle the pending events until there are none. -/
def sioIsr (pending : List SioEvent) (k : Kernel) : Except Fault Kernel :=
  pending.foldlM sioEvent k

def pageFaultIsr (k : Kernel) : Except Fault Kernel := do
  let p := k.current
  let k ← zombify
    (k.setPcb p fun x => { x with state := .killed, exitstatus := exitKilled }) p
  dispatch k

/-! ## The interrupt stub -/

/-- `isr_save`: the context of the interrupted process is saved and the
identity-mapped directory loaded. -/
def isrSave (k : Kernel) (frame : Frame) : Kernel :=
  let mm := { k.mm with lastPde := k.mm.cr3, cr3 := k.mm.pageDirectory }
  { k with mm := mm }.setPcb k.current fun x => { x with context := frame }

def isrRestore (k : Kernel) : Kernel := { k with mm := { k.mm with cr3 := k.mm.lastPde } }

/-- What interrupts a process. A system call comes with the scan codes
the keyboard would deliver if it were polled, a serial interrupt with the
pending events. -/
inductive Cause where
  | syscall (keys : List Byte)
  | clock
  | serial (pending : List SioEvent)
  | keyboard (code : Byte)
  | pageFault

/-- What can happen while a process runs: an interrupt, with the frame
the process has at that moment, or a store of its own into memory. -/
inductive Event where
  | interrupt (frame : Frame) (cause : Cause)
  | store (a : Word) (b : Byte)

/-- The handler of an interrupt. -/
def handle (k : Kernel) : Cause → Except Fault Kernel
  | .syscall keys => sysIsr keys k
  | .clock => clkIsr k
  | .serial pending => sioIsr pending k
  | .keyboard code => .ok { k with console := cInputScanCode k.console code }
  | .pageFault => pageFaultIsr k

/-- One event, from user mode to user mode. -/
def step (k : Kernel) : Event → Except Fault Kernel
  | .interrupt frame cause => do
      let k ← handle (isrSave k frame) cause
      .ok (isrRestore k)
  | .store a b => .ok { k with mm := { k.mm with mem := Lib.store 1 k.mm.mem a b } }

/-! ## System initialisation -/

/-- Static storage, after `_q_init`. -/
def Kernel.zero (image : Image) (mm : MemMgr) : Kernel where
  pcbs := fun _ =>
    { context := ⟨⟨0, 0, 0, 0, 0, 0, 0, 0, 0, 0, 0, 0, 0, 0, 0, 0, 0, 0⟩, fun _ => 0⟩
      stack := none, wakeup := 0, exitstatus := 0, memory := 0, pid := 0, ppid := 0,
      children := 0, state := .free, prio := 0, qDefault := 0, qTicks := 0 }
  queues :=
    { nodes := nQnodes
      items := fun q => match q with
        | .pcbs _ => []
        | .freeStacks => [] }
  current := 0
  initPcb := 0
  nextPid := 0
  childCurr := none
  childTarget := -1
  now := 0
  pinwheel := 99
  mm := mm
  sio := sioEnable sioInit sioRx
  console := Console.zero
  image := image
  reports := []

/-- The memory part of `_init`. Between it and the first process, drivers
take `pages` further pages for their own data. -/
def initMemory (mm : MemMgr) (pages : Nat) : Except Fault MemMgr := do
  let mm ← setupInitialPageTable mm
  let (address, mm) ← getNextPage mm
  let mm := (freePage mm address).2
  let (_, mm) ← getNextPage mm
  (List.range pages).foldlM (fun mm _ => Prod.snd <$> getNextPage mm) mm

/-- The process part of `_init`, once the modules are initialised: the
initial process, and the return into it. -/
def initProcess (k : Kernel) : Except Fault Kernel := do
  let (pcb, k) ← pcbAlloc k
  match pcb with
  | none => .error (.kpanic "_init" "init() pcb alloc failed")
  | some pcb => do
    let (stk, k) ← stkAlloc k
    match stk with
    | none => .error (.kpanic "_init" "init() stack alloc failed")
    | some stk =>
      let k := k.setPcb pcb fun x =>
        { x with
          stack := some stk
          context := stkSetup k.image k.image.init 0
          memory := k.mm.pageDirectory
          pid := pidInit
          ppid := pidInit
          prio := 0
          qDefault := quantStd }
      let k ← schedule { k with initPcb := pcb } pcb
      let k ← dispatch k
      .ok (isrRestore k)

/-- `_init`, from the memory as `setup_page_availibility_table` leaves it. -/
def init (image : Image) (mm : MemMgr) (pages : Nat) : Except Fault Kernel := do
  let mm ← initMemory mm pages
  initProcess (stkInit (pcbInit (Kernel.zero image mm)))

end SpKernel
