import SpKernel.System

/-!
# System calls (`syscall.c`)

The second-level handlers, one definition each, and the first-level one
that picks the handler from a jump table. A handler gets the kernel with
the caller's frame saved in its PCB. It leaves its result in `EAX` of
that frame, or stores it through the addresses it was given, and
dispatches if the caller does not go on.

The longer handlers are cut where the source has branches that end
differently: `finishKill` is what `_sys_kill` does with a victim that is
off its queue, `killFrom` takes it off, `zombieLoop` the search of
`_sys_wait`, `forkPcb` the part of `_sys_fork` that fills in the child's
PCB, `execSpace` the new address space of `_sys_exec`.

The jump table is kept as the list of the assignments `_sys_init` makes,
in order: `SYS_getstatus` and `SYS_mmap` are the same code, so the later
assignment wins, and code 12 is below `N_SYSCALLS` but never assigned. A
code from `N_SYSCALLS` on ends its caller with a status of its own
(`exitBadCode`).
-/

namespace SpKernel

open Lib

abbrev exitBadCode : Word := 2#32
abbrev exitKilled : Word := 3#32

def sysGetpid (k : Kernel) (p : PcbId) : Except Fault Kernel :=
  .ok (k.setRet p ((k.pcbs p).pid.signExtend 32))

def sysGetppid (k : Kernel) (p : PcbId) : Except Fault Kernel :=
  .ok (k.setRet p ((k.pcbs p).ppid.signExtend 32))

def sysGettime (k : Kernel) (p : PcbId) : Except Fault Kernel :=
  .ok (k.setRet p k.now)

def sysGetstatus (k : Kernel) (p : PcbId) : Except Fault Kernel :=
  match pcbFind k ((k.arg p 1).setWidth 16) with
  | none => .ok (k.setRet p (BitVec.ofInt 32 PState.invalid.code))
  | some target => .ok (k.setRet p (BitVec.ofInt 32 (k.pcbs target).state.code))

def sysExit (k : Kernel) (p : PcbId) : Except Fault Kernel := do
  let status := k.arg p 1
  let k ← zombify (k.setPcb p fun x => { x with exitstatus := status, state := .zombie }) p
  dispatch k

/-- The end of `_sys_read`: return the count, or block until a character
comes in. -/
def readDone (k : Kernel) (p : PcbId) (n : Nat) : Except Fault Kernel :=
  if 0 < n then .ok (k.setRet p (BitVec.ofNat 32 n))
  else
    match k.enque .reading p with
    | (.success, k) => dispatch (k.setPcb k.current fun x => { x with state := .blocked })
    | (_, k) => .ok (k.setRet p Status.failure.word)

def sysRead (keys : List Byte) (k : Kernel) (p : PcbId) : Except Fault Kernel :=
  let chan := k.arg p 1
  let buf := k.arg p 2
  let size := k.arg p 3
  if chan = 0 then
    if cInputQueue k.console < 1 then .ok (k.setRet p Status.noChar.word)
    else do
      let (n, c, m) ← cGets k.console keys k.mm.mem buf size
      readDone { k with console := c, mm := { k.mm with mem := m } } p n
  else if chan = 1 then
    let (n, s, m) := sioReads k.sio k.mm.mem buf size.toInt
    readDone { k with sio := s, mm := { k.mm with mem := m } } p n
  else .ok (k.setRet p Status.badChan.word)

def sysWrite (k : Kernel) (p : PcbId) : Except Fault Kernel :=
  let chan := k.arg p 1
  let buf := k.arg p 2
  let size := k.arg p 3
  if chan = 0 then .ok (k.setRet p size)
  else if chan = 1 then
    let (_, s) := sioWrites k.sio k.mm.mem buf size.toInt
    .ok ({ k with sio := s }.setRet p size)
  else .ok (k.setRet p Status.badChan.word)

def sysSleep (k : Kernel) (p : PcbId) : Except Fault Kernel := do
  let msec := k.arg p 1
  let k ←
    if msec = 0 then schedule k p
    else
      let k := k.setPcb p fun x => { x with wakeup := k.now + msec, state := .sleeping }
      match k.enque .sleeping p with
      | (.success, k) => .ok k
      | _ => .error (.kpanic "_sys_sleep" "can't enque sleeper")
  dispatch k

/-- The end of `_sys_kill`, once the victim is on no queue. -/
def finishKill (k : Kernel) (p victim : PcbId) : Except Fault Kernel := do
  let k := k.setPcb victim fun x => { x with state := .killed, exitstatus := exitKilled }
  let k ← zombify (k.setRet p Status.success.word) victim
  if victim = k.current then dispatch k else .ok k

def killFrom (k : Kernel) (p victim : PcbId) (which : PQueue) : Except Fault Kernel :=
  match k.remove which victim with
  | (.success, k) => finishKill k p victim
  | _ => .error (.kpanic "_sys_kill" "can't remove victim")

def sysKill (k : Kernel) (p : PcbId) : Except Fault Kernel :=
  match pcbFind k ((k.arg p 1).setWidth 16) with
  | none => .ok (k.setRet p Status.noProcess.word)
  | some victim =>
    match (k.pcbs victim).state with
    | .waiting => killFrom k p victim .waiting
    | .sleeping => killFrom k p victim .sleeping
    | .blocked => killFrom k p victim .reading
    | .ready => killFrom k p victim (.ready (Fin.ofNat nPrios (k.pcbs victim).prio.toNat))
    | .running => finishKill k p victim
    | .killed | .zombie => .ok (k.setRet p Status.success.word)
    | .invalid | .free | .new => .error (.kpanic "_sys_kill" "bad victim state")

/-- The loop of `_sys_wait`: the first child that is a zombie. -/
def zombieLoop : Nat → Kernel → Option PcbId → Except Fault (Option PcbId × Kernel)
  | _, k, none => .ok (none, k)
  | 0, _, some _ => .error .diverge
  | fuel + 1, k, some child =>
      if (k.pcbs child).state = .zombie then .ok (some child, k)
      else do
        let (next, k) ← pcbFindChildOf k (-1)
        zombieLoop fuel k next

def sysWait (k : Kernel) (p : PcbId) : Except Fault Kernel :=
  if (k.pcbs p).children = 0 then .ok (k.setRet p Status.noChild.word)
  else do
    let (child, k) ← pcbFindChildOf k ((k.pcbs p).pid.signExtend 32)
    let (zombie, k) ← zombieLoop nPcbs k child
    match zombie with
    | some child =>
      match k.remove .zombie child with
      | (.success, k) =>
        let k := k.setPcb p fun x => { x with children := x.children - 1 }
        .ok (pcbCleanup (deliver k p child) child)
      | _ => .error (.kpanic "_sys_wait" "can't deque zombie")
    | none =>
      match (k.setPcb p fun x => { x with state := .waiting }).enque .waiting p with
      | (.success, k) => dispatch k
      | _ => .error (.kpanic "_sys_wait" "can't enque waiting parent")

/-- The byte distance between two stacks. -/
def stackOffset (to' from' : Option StackId) : Word :=
  match to', from' with
  | some s, some t => BitVec.ofInt 32 (4096 * ((s.val : Int) - t.val))
  | _, _ => 0

/-- The child's PCB: the parent's, with its own identity and stack, and 0
as the result of the call. -/
def forkPcb (parent : Pcb) (pid : Half) (stk : StackId) : Pcb :=
  { parent with
    pid := pid
    ppid := parent.pid
    qDefault := quantStd
    stack := some stk
    context.regs.ebp := parent.context.regs.ebp + stackOffset (some stk) parent.stack
    context.regs.eax := 0 }

def sysFork (k : Kernel) (p : PcbId) : Except Fault Kernel :=
  if 65000#16 ≤ k.nextPid then .ok (k.setRet p Status.noMoreProcs.word)
  else do
    let (new, k) ← pcbAlloc k
    match new with
    | none => .ok (k.setRet p Status.noPcbs.word)
    | some new => do
      let (stk, k) ← stkAlloc k
      match stk with
      | none => .ok (pcbDealloc (k.setRet p Status.noStacks.word) new)
      | some stk =>
        let pid := k.nextPid
        let k := k.setPcb new fun _ => forkPcb (k.pcbs p) pid stk
        let k := { k with nextPid := k.nextPid + 1 }
        let k := k.setRet p (pid.signExtend 32)
        let k := k.setPcb p fun x => { x with children := x.children + 1 }
        schedule k new

/-- The address space `_sys_exec` gives a process of this priority. -/
def execSpace (mm : MemMgr) (prio : Word) : Except Fault (Word × MemMgr) :=
  if prio = 0 then .ok (getIdentityMapped mm, mm) else newPageDirectory mm

def sysExec (k : Kernel) (p : PcbId) : Except Fault Kernel := do
  let entry := k.arg p 1
  let arg := k.arg p 2
  let prio := k.arg p 3
  let k := k.setPcb p fun x => { x with prio := prio, context := stkSetup k.image entry arg }
  let (memory, mm) ← execSpace k.mm prio
  let k := { k with mm := setReturnPde mm memory }
  .ok (k.setPcb p fun x => { x with memory := memory })

def sysMmap (k : Kernel) (p : PcbId) : Except Fault Kernel := do
  let (_, status, mm) ← kMmap k.mm (k.pcbs p).memory (k.arg p 1) (k.arg p 2) (k.arg p 3)
  .ok ({ k with mm := mm }.setRet p status.word)

abbrev nSyscalls : Word := 13#32

/-- The assignments of `_sys_init` to the jump table, in order. -/
def sysInit (keys : List Byte) : List (Nat × (Kernel → PcbId → Except Fault Kernel)) :=
  [(0, sysExit), (1, sysRead keys), (2, sysWrite), (3, sysFork), (4, sysExec), (5, sysKill),
   (6, sysWait), (7, sysSleep), (8, sysGetpid), (9, sysGetppid), (10, sysGettime),
   (11, sysGetstatus), (11, sysMmap)]

/-- The entry of the jump table: what was assigned last. -/
def syscalls (keys : List Byte) (code : Nat) : Option (Kernel → PcbId → Except Fault Kernel) :=
  ((sysInit keys).reverse.find? fun x => x.1 == code).map Prod.snd

def sysIsr (keys : List Byte) (k : Kernel) : Except Fault Kernel :=
  let p := k.current
  let syscode := (k.pcbs p).context.regs.eax
  if nSyscalls ≤ syscode then
    sysExit (k.setArg p 1 exitBadCode) p
  else
    match syscalls keys syscode.toNat with
    | some handler => handler k p
    | none => .error .null

end SpKernel
