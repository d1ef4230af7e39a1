import Mathlib

/-!
# Machine words, status codes and faults

The vocabulary of `common.h`, `types.h` and `process.h` that every other
module uses. C's fixed-width integers are bit vectors, so every sum,
difference and comparison below wraps and orders as the compiled code
does: `Word`, `Half` and `Byte` are compared as unsigned numbers, and
where the source has a signed type the comparison is one of `toInt`.
Enumerations are inductive types with their C value beside them
(`Status.code`, `PState.code`), since some functions return or store that
value.

`Fault` is how a function fails to come back: a `_kpanic` or `__panic`
(the machine is halted with that text), a `NULL` pointer that is followed
or called, or a loop that never ends. Nothing in the kernel catches one
of these, so a function that may end so has its result in `Except Fault`,
and a run of the kernel is over when it does.

The sizes at the end are those the source is compiled with.
-/

namespace SpKernel

abbrev Byte := BitVec 8
abbrev Half := BitVec 16
abbrev Word := BitVec 32

/-- `status_t`. -/
inductive Status where
  | noPcbs | noStacks | noMoreProcs | noChar | noChild | badChan | noProcess
  | noPerm | failure | success | notImplemented | badType | noMoreHandles
  | badHandle | noData | outOfBounds | badArg | noMatch | canceled | locked
  | badPtr | outOfObjects | moreData | noQnodes | emptyQueue
deriving Repr, DecidableEq

/-- The C value of a status. The two codes "used only within the OS"
continue after `E_MORE_DATA = -62`, so they repeat two I/O codes. -/
def Status.code : Status → Int
  | .noPcbs => -9
  | .noStacks => -8
  | .noMoreProcs => -7
  | .noChar => -6
  | .noChild => -5
  | .badChan => -4
  | .noProcess => -3
  | .noPerm => -2
  | .failure => -1
  | .success => 0
  | .notImplemented => -50
  | .badType => -51
  | .noMoreHandles => -52
  | .badHandle => -53
  | .noData => -54
  | .outOfBounds => -55
  | .badArg => -56
  | .noMatch => -57
  | .canceled => -58
  | .locked => -59
  | .badPtr => -60
  | .outOfObjects => -61
  | .moreData => -62
  | .noQnodes => -61
  | .emptyQueue => -60

/-- A status as it appears in `EAX`. -/
def Status.word (s : Status) : Word := BitVec.ofInt 32 s.code

/-- `state_t`. -/
inductive PState where
  | invalid | free | new | ready | running | sleeping | waiting | blocked
  | killed | zombie
deriving Repr, DecidableEq

/-- The C value of a process state. -/
def PState.code : PState → Int
  | .invalid => -1
  | .free => 0
  | .new => 1
  | .ready => 2
  | .running => 3
  | .sleeping => 4
  | .waiting => 5
  | .blocked => 6
  | .killed => 7
  | .zombie => 8

/-- Control does not return. -/
inductive Fault where
  /-- `_kpanic( mod, msg )` -/
  | kpanic (mod msg : String)
  /-- `__panic( reason )` -/
  | panic (reason : String)
  /-- a `NULL` pointer is followed or called -/
  | null
  /-- a loop without end -/
  | diverge
deriving Repr, DecidableEq

/-! ## Sizes -/

abbrev nProcs : Nat := 25
abbrev nPcbs : Nat := nProcs + 3
abbrev nStacks : Nat := nProcs + 3
/-- one per PCB and one per stack, plus a fudge factor -/
abbrev nQnodes : Nat := nPcbs + nStacks + 5
abbrev nPrios : Nat := 4

instance : NeZero nPrios := ⟨by decide⟩

end SpKernel
