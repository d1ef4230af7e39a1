import SpKernel.Types

/-!
# The queue module (`queue.c`)

Self-ordering singly linked queues that draw their nodes from one shared
pool. The heap is explicit: the `next` and `data` fields of the `nQnodes`
nodes, the free list's head, and one `queue_t` for every queue object.
`ι` names the queue objects (any number of them), `α` is what the
`void *` entries point to (`none` is `NULL`) and `κ` names comparison
functions; a comparison is given its meaning at the call, because
`_cmp_wakeup` reads the PCBs as they are then.

Every function is written as the source has it, with the pointers it
follows and the consistency checks it makes: a check that fails is a
`_kpanic`, and following `none` is a fault. That no check can fail is a
result about sequences of calls (`queue_module_sound`), not a part of the
model.

The traversal loops run on fuel `nQnodes`: a walk that has not ended
after as many nodes as exist has met one twice and never ends.

`QOp` and `qCall` make the module a machine of its own, whose events are
the calls with any arguments. `QReach` is the set of heaps that calls can
lead to after `_q_init`; it leaves out only a `_q_reset` of a queue that
has entries (`QOp.Allowed`), which would lose their nodes.
-/

namespace SpKernel

open Function (update)

/-- A non-null `qnode_t *`. -/
abbrev QPtr := Fin nQnodes

/-- `queue_t`. -/
structure Que (κ : Type) where
  head : Option QPtr
  tail : Option QPtr
  size : Word
  cmp : Option κ

/-- The node pool and the queue objects. -/
structure QHeap (ι α κ : Type) where
  next : QPtr → Option QPtr
  data : QPtr → Option α
  freeQnodes : Option QPtr
  ques : ι → Que κ

variable {ι α κ : Type} [DecidableEq ι] [DecidableEq α]

/-- Static storage before `_q_init`: everything is zero. -/
def QHeap.zero : QHeap ι α κ where
  next := fun _ => none
  data := fun _ => none
  freeQnodes := none
  ques := fun _ => { head := none, tail := none, size := 0, cmp := none }

def QHeap.setNext (h : QHeap ι α κ) (n : QPtr) (p : Option QPtr) : QHeap ι α κ :=
  { h with next := update h.next n p }

def QHeap.setData (h : QHeap ι α κ) (n : QPtr) (d : Option α) : QHeap ι α κ :=
  { h with data := update h.data n d }

def QHeap.setQue (h : QHeap ι α κ) (q : ι) (u : Que κ) : QHeap ι α κ :=
  { h with ques := update h.ques q u }

/-! ## Private functions -/

/-- Take the first node from the free list. -/
def qnAlloc (h : QHeap ι α κ) : Option QPtr × QHeap ι α κ :=
  match h.freeQnodes with
  | none => (none, h)
  | some n => (some n, { h with freeQnodes := h.next n })

/-- Return a node to the free list. -/
def qnDealloc (h : QHeap ι α κ) (old : QPtr) : QHeap ι α κ :=
  { (h.setData old none).setNext old h.freeQnodes with freeQnodes := some old }

def qnInit (h : QHeap ι α κ) : QHeap ι α κ :=
  (List.finRange nQnodes).foldl qnDealloc h

/-! ## Public functions -/

def qInit (h : QHeap ι α κ) : QHeap ι α κ := qnInit h

def qReset (h : QHeap ι α κ) (que : Option ι) (cmp : Option κ) :
    Except Fault (QHeap ι α κ) :=
  match que with
  | none => .error (.kpanic "_q_reset" "NULL queue parameter")
  | some q => .ok (h.setQue q { head := none, tail := none, size := 0, cmp := cmp })

/-- The standard traversal: advance `prev` and `curr` while there is a
current node and it satisfies `go`. -/
def traverse (h : QHeap ι α κ) (go : QPtr → Bool) :
    Nat → Option QPtr → Option QPtr → Except Fault (Option QPtr × Option QPtr)
  | _, prev, none => .ok (prev, none)
  | 0, _, some _ => .error .diverge
  | fuel + 1, prev, some n =>
      if go n then traverse h go fuel (some n) (h.next n) else .ok (prev, some n)

/-- Insert `data`, ordering the queue by its comparison function. -/
def qEnque (cmpf : κ → Option α → Option α → Int) (h : QHeap ι α κ)
    (que : Option ι) (data : Option α) : Except Fault (Status × QHeap ι α κ) :=
  match que with
  | none => .error (.kpanic "_q_enque" "NULL que")
  | some q =>
    match qnAlloc h with
    | (none, h) => .ok (.noQnodes, h)
    | (some new, h) =>
      let h := (h.setData new data).setNext new none
      let u := h.ques q
      if u.size = 0 then
        .ok (.success, h.setQue q { u with head := some new, tail := some new, size := 1 })
      else
        match u.cmp with
        | none =>
          -- FIFO: que->tail->next = new
          match u.tail with
          | none => .error .null
          | some t =>
            .ok (.success, (h.setNext t (some new)).setQue q
              { u with tail := some new, size := u.size + 1 })
        | some c => do
          let (prev, curr) ←
            traverse h (fun n => decide (0 ≤ cmpf c data (h.data n))) nQnodes none u.head
          let h := h.setNext new curr
          match prev with
          | none =>
            match curr with
            | none => .error (.kpanic "_q_enque" "empty non-empty queue")
            | some _ =>
              .ok (.success, h.setQue q { u with head := some new, size := u.size + 1 })
          | some p =>
            .ok (.success, (h.setNext p (some new)).setQue q
              { u with
                tail := if curr = none then some new else u.tail
                size := u.size + 1 })

/-- Peek at the first entry. `out` is the caller's variable: `none` for a
`NULL` out-pointer, otherwise its content, which is returned updated. -/
def qPeek (h : QHeap ι α κ) (que : Option ι) (out : Option (Option α)) :
    Except Fault (Status × Option α) :=
  match que with
  | none => .error (.kpanic "_q_peek" "NULL que")
  | some q =>
    match out with
    | none => .error (.kpanic "_q_peek" "NULL data")
    | some old =>
      let u := h.ques q
      if u.size = 0 then .ok (.emptyQueue, old)
      else
        match u.head, u.tail with
        | some n, some _ => .ok (.success, h.data n)
        | _, _ => .error (.kpanic "_q_peek" "empty queue with non-zero size")

/-- Remove the first entry. -/
def qDeque (h : QHeap ι α κ) (que : Option ι) (out : Option (Option α)) :
    Except Fault (Status × Option α × QHeap ι α κ) := do
  let (stat, d) ← qPeek h que out
  if stat ≠ .success then
    .ok (stat, d, h)
  else
    match que with
    | none => .error .null
    | some q =>
      let u := h.ques q
      match u.head with
      | none => .error .null
      | some qn =>
        let head := h.next qn
        let size := u.size - 1
        if head = none ∧ size ≠ 0 then
          .error (.kpanic "_q_deque" "'empty' queue has non-zero size")
        else
          let u := { u with
            head := head
            size := size
            tail := if head = none then none else u.tail }
          .ok (.success, d, qnDealloc (h.setQue q u) qn)

/-- Remove the entry for `data`. -/
def qRemove (h : QHeap ι α κ) (que : Option ι) (data : Option α) :
    Except Fault (Status × QHeap ι α κ) :=
  match que with
  | none => .error (.kpanic "_q_remove" "NULL que")
  | some q => do
    let u := h.ques q
    let (prev, curr) ← traverse h (fun n => decide (h.data n ≠ data)) nQnodes none u.head
    match curr with
    | none => .ok (.noProcess, h)
    | some c =>
      let (h, u) :=
        match prev with
        | none => (h, { u with head := h.next c })
        | some p => (h.setNext p (h.next c), u)
      let u := { u with
        tail := if u.tail = some c then prev else u.tail
        size := u.size - 1 }
      .ok (.success, qnDealloc (h.setQue q u) c)

/-! ## Sequences of calls -/

/-- A call of one of the module's operations. -/
inductive QOp (ι α κ : Type) where
  | enque (cmpf : κ → Option α → Option α → Int) (que : Option ι) (data : Option α)
  | deque (que : Option ι) (out : Option (Option α))
  | remove (que : Option ι) (data : Option α)
  | peek (que : Option ι) (out : Option (Option α))
  | reset (que : Option ι) (cmp : Option κ)

/-- The status a call returns and the heap it leaves. `_q_reset` returns
nothing; it stands as a success. -/
def qCall (h : QHeap ι α κ) : QOp ι α κ → Except Fault (Status × QHeap ι α κ)
  | .enque cmpf que data => qEnque cmpf h que data
  | .deque que out => (fun r => (r.1, r.2.2)) <$> qDeque h que out
  | .remove que data => qRemove h que data
  | .peek que out => (fun r => (r.1, h)) <$> qPeek h que out
  | .reset que cmp => (fun h => (.success, h)) <$> qReset h que cmp

/-- `_q_reset` is only for queues that hold nothing. -/
def QOp.Allowed (h : QHeap ι α κ) : QOp ι α κ → Prop
  | .reset (some q) _ => (h.ques q).size = 0
  | _ => True

/-- The heaps reachable after `_q_init` by any allowed calls. -/
inductive QReach : QHeap ι α κ → Prop
  | init : QReach (qInit QHeap.zero)
  | call {h h' : QHeap ι α κ} {op : QOp ι α κ} {st : Status} :
      QReach h → op.Allowed h → qCall h op = .ok (st, h') → QReach h'

end SpKernel
