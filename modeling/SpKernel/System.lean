import SpKernel.Process

/-!
# Scheduling and the end of a process (`scheduler.c`, `system.c`)

`_schedule` and `_dispatch` move PCBs between the ready queues and the
CPU. `_dispatch` takes the first PCB of the first queue that has one, in
the order of the priorities, and panics if there is none.

`_zombify` takes a dead process as far as it can go. Its children are
handed to `init` first (`reparent`), one after the other, as the iterator
over the PCB table finds them. Then the dead process is laid to rest
(`lay`): if its parent is waiting, the status is handed over (`deliver`),
the PCB is freed and the parent becomes ready; otherwise the process goes
to the zombie queue and stays there until its parent asks.

The parts are definitions of their own, since the callers (`_sys_exit`,
`_sys_kill`, the page fault handler) differ in what they do before, and
the proofs use one lemma for each part: `reparent_kin` and `lay_cases`.
-/

namespace SpKernel

open Lib

/-- The field updates of `_schedule`; `prio_t` is unsigned, so only the
upper bound can fail. -/
def Pcb.makeReady (x : Pcb) : Pcb :=
  { x with prio := if 3 < x.prio then 2 else x.prio, state := .ready }

def schedule (k : Kernel) (p : PcbId) : Except Fault Kernel :=
  let k := k.setPcb p Pcb.makeReady
  match k.enque (.ready (Fin.ofNat nPrios (k.pcbs p).prio.toNat)) p with
  | (.success, k) => .ok k
  | _ => .error (.kpanic "_schedule" "can't enque ready PCB")

/-- The field updates of `_dispatch`. -/
def Pcb.makeRunning (x : Pcb) : Pcb := { x with state := .running, qTicks := x.qDefault }

def dispatch (k : Kernel) : Except Fault Kernel :=
  match (List.finRange nPrios).find? fun prio =>
      decide (0 < k.queues.size (.pcbs (.ready prio))) with
  | none => .error (.kpanic "_dispatch" "no ready processes!?!?!")
  | some prio =>
    match k.deque (.ready prio) with
    | (.success, some p, k) =>
      let k := { k with current := p }.setPcb p Pcb.makeRunning
      .ok { k with mm := setReturnPde k.mm (k.pcbs p).memory }
    | _ => .error (.kpanic "_dispatch" "can't deque ready PCB")

/-- Hand the exit status of `child` to `parent`: the return value and the
stores through the two out-pointers of `wait`. -/
def deliver (k : Kernel) (parent child : PcbId) : Kernel :=
  let k := k.setRet parent Status.success.word
  let m := store 2 k.mm.mem (k.arg parent 1) (k.pcbs child).pid
  let m := store 4 m (k.arg parent 2) (k.pcbs child).exitstatus
  { k with
    mm := { k.mm with mem := m }
    reports := k.reports ++ [⟨(k.pcbs parent).pid, (k.pcbs child).pid,
      (k.pcbs child).exitstatus⟩] }

/-- One round of reparenting. -/
def adopt (k : Kernel) (whom : PcbId) : Kernel :=
  let k := k.setPcb whom fun x => { x with ppid := pidInit }
  k.setPcb k.initPcb fun x => { x with children := x.children + 1 }

/-- The reparenting loop. The child iterator only moves up the table, so
it makes at most one round for each PCB. -/
def reparentLoop : Nat → Kernel → Option PcbId → Except Fault Kernel
  | _, k, none => .ok k
  | 0, _, some _ => .error .diverge
  | fuel + 1, k, some whom => do
      let (next, k) ← pcbFindChildOf (adopt k whom) (-1)
      reparentLoop fuel k next

/-- The first part of `_zombify`: reparent any children. -/
def reparent (k : Kernel) (p : PcbId) : Except Fault Kernel :=
  if 0 < (k.pcbs p).children then do
    let (whom, k) ← pcbFindChildOf k ((k.pcbs p).pid.signExtend 32)
    let k ← reparentLoop nPcbs k whom
    .ok (k.setPcb p fun x => { x with children := 0 })
  else .ok k

/-- The second part of `_zombify`: to the waiting parent, or to the
zombie queue. -/
def lay (k : Kernel) (p : PcbId) : Except Fault Kernel :=
  match pcbFind k (k.pcbs p).ppid with
  | none => .error (.kpanic "_zombify" "parent process doesn't exist!")
  | some parent =>
    if (k.pcbs parent).state = .waiting then
      match k.remove .waiting parent with
      | (.success, k) => schedule (pcbCleanup (deliver k parent p) p) parent
      | _ => .error (.kpanic "_zombify" "waiting parent isn't???")
    else
      match k.enque .zombie p with
      | (.success, k) => .ok k
      | _ => .error (.kpanic "_zombify" "enque zombie failed")

def zombify (k : Kernel) (p : PcbId) : Except Fault Kernel := do
  let k ← reparent k p
  lay k p

end SpKernel
