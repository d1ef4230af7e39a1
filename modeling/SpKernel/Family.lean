import SpKernel.Process

/-!
# The family tree

What the kernel's process handling is about, without queues, contexts or
memory: who is whose child, who is alive, waiting or dead, which stack
belongs to whom, and which deaths have been reported. Only five things
ever happen to a family (`Act`): nothing, a birth, a parent starts to
wait, a parent collects a dead child, a member dies. `Act.apply` says
what an act makes of a family, and `Act.Enabled` when it can happen.

This is the abstract level of the development, and it is not translated
from the source. `Simulation` and `Handlers` show that the kernel refines
it.

`Family.Inv` is what every family the kernel can produce satisfies. Its
core is a lower bound: the `children` counter of a live member is at
least the number of its children. Reparenting is skipped when the counter
is zero, so this is what keeps every member's parent in the family;
`spare` keeps the counter of `init`, which grows with each adoption, from
wrapping around. That the counters are no more than a bound is due to the
source: a `fork` copies the counter of the parent (see `Accounting`).

Slots of the table that are free are members too, with a mode of their
own. So the slots are a fixed finite type and a family is a function on
it, and `kidsOf` and `strangers` are finite sets that can be counted.
-/

namespace SpKernel

open Function (update update_self update_of_ne)

/-- What a process state means for the family. -/
inductive Mode where
  | free | active | waiting | killed | zombie
deriving DecidableEq

def Mode.Live (m : Mode) : Prop := m = .active ∨ m = .waiting

def Mode.Dead (m : Mode) : Prop := m = .killed ∨ m = .zombie

theorem Mode.Live.ne_free {m : Mode} (h : m.Live) : m ≠ .free := by
  rcases h with rfl | rfl <;> decide

theorem Mode.Dead.ne_free {m : Mode} (h : m.Dead) : m ≠ .free := by
  rcases h with rfl | rfl <;> decide

theorem Mode.Dead.not_live {m : Mode} (h : m.Dead) : ¬m.Live := by
  rcases h with rfl | rfl <;> (rintro (h | h) <;> cases h)

@[ext] structure Member where
  mode : Mode
  pid : Half
  ppid : Half
  children : Half
  exitstatus : Word
  stack : Option StackId

namespace Member

/-- A new member: a copy of the parent, with its own identity. -/
@[simps] def born (parent : Member) (pid : Half) (stk : StackId) : Member :=
  { parent with mode := .active, pid := pid, ppid := parent.pid, stack := some stk }

@[simps] def setMode (m : Member) (mode : Mode) : Member := { m with mode := mode }

@[simps] def setChildren (m : Member) (children : Half) : Member :=
  { m with children := children }

@[simps] def die (m : Member) (mode : Mode) (status : Word) : Member :=
  { m with mode := mode, exitstatus := status }

@[simps] def gone (m : Member) : Member := { m with mode := .free, pid := -1, ppid := -1 }

end Member

@[ext] structure Family where
  members : PcbId → Member
  init : PcbId
  nextPid : Half
  freeStacks : List StackId
  reports : List Report

namespace Family

/-! ## What happens to a family -/

def set (f : Family) (p : PcbId) (m : Member) : Family :=
  { f with members := update f.members p m }

@[simps] def setStacks (f : Family) (l : List StackId) : Family := { f with freeStacks := l }

/-- `new` is born to `p`, as a copy with its own identity and stack. -/
def fork (f : Family) (p new : PcbId) (stk : StackId) : Family :=
  let child := (f.members p).born f.nextPid stk
  let parent := (f.members p).setChildren ((f.members p).children + 1)
  { f with
    members := update (update f.members new child) p parent
    nextPid := f.nextPid + 1
    freeStacks := f.freeStacks.tail }

/-- The slots whose `ppid` is `pid`, in table order. -/
def kids (f : Family) (pid : Half) : List PcbId :=
  (List.finRange nPcbs).filter fun p => (f.members p).ppid == pid

/-- Everyone with `v` for a parent becomes a child of `init`. -/
def reparent (f : Family) (v : PcbId) : Family :=
  { f with members := fun p =>
      { f.members p with
        ppid := if (f.members p).ppid = (f.members v).pid then pidInit else (f.members p).ppid
        children :=
          if p = v then 0
          else if p = f.init then
            (f.members p).children + BitVec.ofNat 16 (f.kids (f.members v).pid).length
          else (f.members p).children } }

def find (f : Family) (pid : Half) : Option PcbId :=
  (List.finRange nPcbs).find? fun p => (f.members p).pid == pid

/-- The slot and the stack of `v` are free again. -/
def release (f : Family) (v : PcbId) : Family :=
  { f with
    members := update f.members v (f.members v).gone
    freeStacks := f.freeStacks ++ (f.members v).stack.toList }

/-- The status of `v` goes to `p`, and `v` goes. -/
def handOver (f : Family) (p v : PcbId) : Family :=
  let report := ⟨(f.members p).pid, (f.members v).pid, (f.members v).exitstatus⟩
  { f with reports := f.reports ++ [report] }.release v

/-- `v`, dead, goes to its parent if that one waits. -/
def lay (f : Family) (v : PcbId) : Family :=
  match f.find (f.members v).ppid with
  | none => f
  | some q =>
    if (f.members q).mode = .waiting then
      (f.handOver q v).set q (((f.handOver q v).members q).setMode .active)
    else f

/-- `v` dies: it is marked, its children are reparented if it believes to
have any, and it is laid to rest. -/
def terminate (f : Family) (v : PcbId) (m : Mode) (status : Word) : Family :=
  let f := f.set v ((f.members v).die m status)
  let f := if 0 < (f.members v).children then f.reparent v else f
  f.lay v

/-- `p` collects its dead child `z`. -/
def reap (f : Family) (p z : PcbId) : Family :=
  (f.set p ((f.members p).setChildren ((f.members p).children - 1))).handOver p z

/-- `p` starts to wait. -/
def block (f : Family) (p : PcbId) : Family :=
  f.set p ((f.members p).setMode .waiting)

end Family

inductive Act where
  | quiet
  | fork (p new : PcbId) (stk : StackId)
  | block (p : PcbId)
  | reap (p z : PcbId)
  | terminate (v : PcbId) (m : Mode) (status : Word)

def Act.apply (f : Family) : Act → Family
  | .quiet => f
  | .fork p new stk => f.fork p new stk
  | .block p => f.block p
  | .reap p z => f.reap p z
  | .terminate v m status => f.terminate v m status

/-- When an act can happen. -/
def Act.Enabled (f : Family) : Act → Prop
  | .quiet => True
  | .fork p new stk => (f.members p).mode = .active ∧ (f.members new).mode = .free
      ∧ f.freeStacks.head? = some stk ∧ f.nextPid.toNat < 65000
  | .block p => (f.members p).mode = .active ∧ (f.members p).children ≠ 0
      ∧ ∀ z, (f.members z).mode = .zombie → (f.members z).ppid ≠ (f.members p).pid
  | .reap p z => (f.members p).mode = .active ∧ (f.members p).children ≠ 0
      ∧ (f.members z).mode = .zombie ∧ (f.members z).ppid = (f.members p).pid
  | .terminate v m _ => (f.members v).mode.Live ∧ m.Dead

namespace Family

/-! ## The invariant -/

/-- The children of `p`: the other members whose `ppid` is its `pid`. -/
def kidsOf (f : Family) (p : PcbId) : Finset PcbId :=
  Finset.univ.filter fun q =>
    q ≠ p ∧ (f.members q).mode ≠ .free ∧ (f.members q).ppid = (f.members p).pid

/-- The members that `init` could still adopt. -/
def strangers (f : Family) : Finset PcbId :=
  Finset.univ.filter fun q =>
    q ≠ f.init ∧ (f.members q).mode ≠ .free ∧ (f.members q).ppid ≠ pidInit

structure Inv (f : Family) : Prop where
  initMode : (f.members f.init).mode ≠ .free
  initPid : (f.members f.init).pid = pidInit
  initPpid : (f.members f.init).ppid = pidInit
  nextPid : 100 ≤ f.nextPid.toNat ∧ f.nextPid.toNat ≤ 65000
  pids : ∀ p, (f.members p).mode ≠ .free → p ≠ f.init →
    100 ≤ (f.members p).pid.toNat ∧ (f.members p).pid.toNat < f.nextPid.toNat
  pidInj : ∀ p q, (f.members p).mode ≠ .free → (f.members q).mode ≠ .free →
    (f.members p).pid = (f.members q).pid → p = q
  freed : ∀ p, (f.members p).mode = .free →
    (f.members p).pid = -1 ∧ (f.members p).ppid = -1
  parent : ∀ p, (f.members p).mode ≠ .free →
    ∃ q, (f.members q).mode ≠ .free ∧ (f.members q).pid = (f.members p).ppid
  notSelf : ∀ p, (f.members p).mode ≠ .free →
    (f.members p).ppid = (f.members p).pid → p = f.init
  counted : ∀ p, (f.members p).mode.Live → (f.kidsOf p).card ≤ (f.members p).children.toNat
  barren : ∀ p, (f.members p).mode.Dead → p ≠ f.init → f.kidsOf p = ∅
  bounded : ∀ p, (f.members p).mode ≠ .free → p ≠ f.init →
    (f.members p).children.toNat + 100 ≤ f.nextPid.toNat
  spare : (f.members f.init).children.toNat + f.strangers.card + 100 ≤ f.nextPid.toNat
  stackNodup : f.freeStacks.Nodup
  owns : ∀ p, (f.members p).mode ≠ .free →
    ∃ s, (f.members p).stack = some s ∧ s ∉ f.freeStacks
  ownsInj : ∀ p q, (f.members p).mode ≠ .free → (f.members q).mode ≠ .free →
    (f.members p).stack = (f.members q).stack → p = q

variable {f : Family}

theorem mem_kidsOf {p q : PcbId} : q ∈ f.kidsOf p ↔
    q ≠ p ∧ (f.members q).mode ≠ .free ∧ (f.members q).ppid = (f.members p).pid := by
  simp [kidsOf]

theorem mem_strangers {q : PcbId} : q ∈ f.strangers ↔
    q ≠ f.init ∧ (f.members q).mode ≠ .free ∧ (f.members q).ppid ≠ pidInit := by
  simp [strangers]

theorem Inv.pid_ne_one (h : f.Inv) {p : PcbId} (hp : (f.members p).mode ≠ .free)
    (hi : p ≠ f.init) : (f.members p).pid ≠ pidInit := by
  intro he
  have := (h.pids p hp hi).1
  rw [he] at this
  exact absurd this (by decide)

theorem Inv.pid_ne_free (h : f.Inv) {p : PcbId} (hp : (f.members p).mode ≠ .free) :
    (f.members p).pid ≠ -1 := by
  intro he
  rcases eq_or_ne p f.init with rfl | hi
  · rw [h.initPid] at he
    exact absurd he (by decide)
  · have := (h.pids p hp hi).2
    rw [he] at this
    have hn := h.nextPid.2
    exact absurd (lt_of_lt_of_le this hn) (by decide)

/-- A free slot that is made free again is as it was. -/
theorem Inv.gone_eq (h : f.Inv) {p : PcbId} (hp : (f.members p).mode = .free) (m : Mode) :
    ((f.members p).setMode m).gone = f.members p := by
  obtain ⟨hpid, hppid⟩ := h.freed p hp
  exact Member.ext hp.symm hpid.symm hppid.symm rfl rfl rfl

theorem find_eq_some {pid : Half} {p : PcbId} (h : f.find pid = some p) :
    (f.members p).pid = pid := by
  simpa using List.find?_some h

theorem Inv.find_eq (h : f.Inv) {p : PcbId} (hp : (f.members p).mode ≠ .free) :
    f.find (f.members p).pid = some p := by
  cases hf : f.find (f.members p).pid with
  | none =>
      rw [find, List.find?_eq_none] at hf
      exact absurd (hf p (List.mem_finRange p)) (by simp)
  | some q =>
      have hq := find_eq_some hf
      have hfree : (f.members q).mode ≠ .free := by
        intro hz
        rw [(h.freed q hz).1] at hq
        exact h.pid_ne_free hp hq.symm
      rw [h.pidInj q p hfree hp hq]

/-- Two families that differ in modes of members only, and not in who is
a member, have the same children. -/
theorem kidsOf_congr {g : Family} {p : PcbId}
    (hm : ∀ q, (g.members q).mode = .free ↔ (f.members q).mode = .free)
    (hp : ∀ q, (g.members q).ppid = (f.members q).ppid)
    (hpid : (g.members p).pid = (f.members p).pid) : g.kidsOf p = f.kidsOf p := by
  ext q
  simp only [mem_kidsOf, ne_eq, hm, hp, hpid]

theorem strangers_congr {g : Family} (hi : g.init = f.init)
    (hm : ∀ q, (g.members q).mode = .free ↔ (f.members q).mode = .free)
    (hp : ∀ q, (g.members q).ppid = (f.members q).ppid) : g.strangers = f.strangers := by
  ext q
  simp only [mem_strangers, ne_eq, hm, hp, hi]

end Family

end SpKernel
