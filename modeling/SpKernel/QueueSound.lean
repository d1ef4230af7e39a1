import SpKernel.QueueRep

/-!
# Soundness of the queue module

A result about whole sequences of calls. After `_q_init` the pool is one
free list (`rep_qInit`), and each call leaves a heap that is represented
if the one before was (`qCall_spec`), so every heap that calls can lead
to is (`QReach.rep`).

`queue_module_sound` says what this means for the callers: after
`_q_init` and any calls, the nodes are partitioned among the free list
and the queues, no consistency check of the module can fire, and a call
that reports an error changed nothing. A call can still panic because a
pointer it is given is `NULL`, which is the check that is left
(`QOp.NullArg`).

A reset of a queue that is empty changes its comparison function and no
link (`Rep.reset`). Of a queue that is not empty it would lose the nodes,
and such calls are not among those allowed.

`QPool` is the module without its heap: a number of free nodes and a list
of entries for every queue. Each operation of `queue.c` computes the
`QPool` operation of the same name (`qEnque_refines`, `qDeque_refines`,
`qRemove_refines`, `qPeek_refines`); the rest of the kernel is modelled
over `QPool`.
-/

namespace SpKernel

open Function (update update_self update_of_ne)
open Lib

variable {ι α κ : Type}

/-! ## After `_q_init` -/

/-- Deallocating a list of nodes one by one stacks them on the free list. -/
theorem foldl_qnDealloc :
    ∀ {l free : List QPtr} {h : QHeap ι α κ},
      Seg h.next h.freeQnodes free none → (l ++ free).Nodup →
      Seg (l.foldl qnDealloc h).next (l.foldl qnDealloc h).freeQnodes
          (l.reverse ++ free) none
        ∧ (l.foldl qnDealloc h).ques = h.ques
  | [], _, _, hs, _ => ⟨hs, rfl⟩
  | n :: l, free, h, hs, hnd => by
      obtain ⟨hn, hnd'⟩ := List.nodup_cons.mp hnd
      have hseg : Seg (qnDealloc h n).next (qnDealloc h n).freeQnodes (n :: free) none := by
        refine ⟨rfl, ?_⟩
        have hnext : (qnDealloc h n).next n = h.freeQnodes := update_self ..
        rw [hnext]
        refine hs.frame fun m hm => update_of_ne (fun (he : m = n) => hn ?_) ..
        exact List.mem_append_right _ (he ▸ hm)
      have hnd'' : (l ++ n :: free).Nodup :=
        List.nodup_middle.mpr (List.nodup_cons.mpr ⟨hn, hnd'⟩)
      obtain ⟨h1, h2⟩ := foldl_qnDealloc hseg hnd''
      rw [List.foldl_cons, List.reverse_cons, List.append_assoc]
      exact ⟨h1, h2.trans rfl⟩

theorem rep_qInit : Rep (qInit QHeap.zero : QHeap ι α κ)
    (List.finRange nQnodes).reverse (fun _ => []) := by
  have hseg0 : Seg (QHeap.zero : QHeap ι α κ).next (QHeap.zero : QHeap ι α κ).freeQnodes [] none :=
    rfl
  obtain ⟨hseg, hques⟩ := foldl_qnDealloc (l := List.finRange nQnodes) hseg0
    (by simpa using List.nodup_finRange _)
  rw [List.append_nil] at hseg
  have hq : ∀ q, (qInit QHeap.zero : QHeap ι α κ).ques q = QHeap.zero.ques q :=
    fun q => congrFun hques q
  refine ⟨hseg, fun q => ?_, fun q => ?_, fun q => ?_, fun n => ?_, ?_, ?_⟩
  · rw [hq]
    exact rfl
  · rw [hq]
    rfl
  · rw [hq]
    rfl
  · exact Or.inl (by simp)
  · intro q n _ hn
    cases hn
  · intro q q' n hn
    cases hn

/-! ## Any calls -/

variable [DecidableEq ι]

theorem Rep.reset {h : QHeap ι α κ} {free : List QPtr} {chain : ι → List QPtr}
    (R : Rep h free chain) {q : ι} (hq : chain q = []) (cmp : Option κ) :
    Rep (h.setQue q { head := none, tail := none, size := 0, cmp := cmp }) free chain := by
  refine ⟨R.freeSeg, fun q' => ?_, fun q' => ?_, fun q' => ?_, R.cover, R.freeApart, R.apart⟩
  · rcases eq_or_ne q' q with rfl | hne
    · rw [hq]
      simp [QHeap.setQue, Seg]
    · simpa [QHeap.setQue, update_of_ne hne] using R.seg q'
  · rcases eq_or_ne q' q with rfl | hne
    · simp [QHeap.setQue, hq]
    · simpa [QHeap.setQue, update_of_ne hne] using R.tail q'
  · rcases eq_or_ne q' q with rfl | hne
    · simp [QHeap.setQue, hq]
    · simpa [QHeap.setQue, update_of_ne hne] using R.size q'

/-- The panics a `NULL` argument is answered with, and no other fault. -/
def QOp.NullArg : QOp ι α κ → Fault → Prop
  | .enque _ none _, f => f = .kpanic "_q_enque" "NULL que"
  | .deque none _, f => f = .kpanic "_q_peek" "NULL que"
  | .deque (some _) none, f => f = .kpanic "_q_peek" "NULL data"
  | .remove none _, f => f = .kpanic "_q_remove" "NULL que"
  | .peek none _, f => f = .kpanic "_q_peek" "NULL que"
  | .peek (some _) none, f => f = .kpanic "_q_peek" "NULL data"
  | .reset none _, f => f = .kpanic "_q_reset" "NULL queue parameter"
  | _, _ => False

/-- What one allowed call does to a well-formed heap: it panics over a
`NULL` argument, or it returns, leaving a well-formed heap, which is the
old one if the status is an error. -/
def CallOk [DecidableEq α] (h : QHeap ι α κ) (op : QOp ι α κ) : Prop :=
  (∃ f, qCall h op = .error f ∧ op.NullArg f) ∨
  ∃ st h', qCall h op = .ok (st, h') ∧ (∃ free chain, Rep h' free chain)
    ∧ (st ≠ .success → h' = h)

variable [DecidableEq α]

theorem qCall_spec {h : QHeap ι α κ} {free : List QPtr} {chain : ι → List QPtr}
    (R : Rep h free chain) (op : QOp ι α κ) (hop : op.Allowed h) : CallOk h op := by
  cases op with
  | enque cmpf que data =>
      cases que with
      | none => exact Or.inl ⟨_, rfl, rfl⟩
      | some q =>
          rcases qEnque_spec R cmpf q data with ⟨-, he⟩ | ⟨new, rest, h', -, he, hE⟩
          · exact Or.inr ⟨_, _, he, ⟨_, _, R⟩, fun _ => rfl⟩
          · exact Or.inr ⟨_, _, he, ⟨_, _, hE.rep⟩, fun hs => absurd rfl hs⟩
  | deque que out =>
      cases que with
      | none => exact Or.inl ⟨_, rfl, rfl⟩
      | some q =>
          cases out with
          | none => exact Or.inl ⟨_, rfl, rfl⟩
          | some old =>
              cases hq : chain q with
              | nil =>
                  refine Or.inr ⟨.emptyQueue, h, ?_, ⟨_, _, R⟩, fun _ => rfl⟩
                  simp only [qCall, qDeque_nil R hq]
                  rfl
              | cons n l =>
                  obtain ⟨h', he, hR⟩ := qDeque_cons R hq old
                  refine Or.inr ⟨.success, h', ?_, ⟨_, _, hR.rep⟩, fun hs => absurd rfl hs⟩
                  simp only [qCall, he]
                  rfl
  | remove que data =>
      cases que with
      | none => exact Or.inl ⟨_, rfl, rfl⟩
      | some q =>
          rcases qRemove_spec R q data with ⟨-, he⟩ | ⟨l₁, n, l₂, h', -, -, -, he, hR⟩
          · exact Or.inr ⟨_, _, he, ⟨_, _, R⟩, fun _ => rfl⟩
          · exact Or.inr ⟨_, _, he, ⟨_, _, hR.rep⟩, fun hs => absurd rfl hs⟩
  | peek que out =>
      cases que with
      | none => exact Or.inl ⟨_, rfl, rfl⟩
      | some q =>
          cases out with
          | none => exact Or.inl ⟨_, rfl, rfl⟩
          | some old =>
              have hp := qPeek_spec R q old
              cases hq : chain q with
              | nil =>
                  rw [hq] at hp
                  refine Or.inr ⟨.emptyQueue, h, ?_, ⟨_, _, R⟩, fun _ => rfl⟩
                  simp only [qCall, hp]
                  rfl
              | cons n l =>
                  rw [hq] at hp
                  refine Or.inr ⟨.success, h, ?_, ⟨_, _, R⟩, fun _ => rfl⟩
                  simp only [qCall, hp]
                  rfl
  | reset que cmp =>
      cases que with
      | none => exact Or.inl ⟨_, rfl, rfl⟩
      | some q =>
          have hq : chain q = [] := (R.size_eq_zero q).mp hop
          exact Or.inr ⟨.success, _, rfl, ⟨_, _, R.reset hq cmp⟩, fun hs => absurd rfl hs⟩

theorem QReach.rep {h : QHeap ι α κ} (hr : QReach h) :
    ∃ free chain, Rep h free chain := by
  induction hr with
  | init => exact ⟨_, _, rep_qInit⟩
  | call _ hop hc ih =>
      obtain ⟨free, chain, R⟩ := ih
      rcases qCall_spec R _ hop with ⟨f, he, -⟩ | ⟨st, h', he, hR, -⟩
      · rw [hc] at he
        cases he
      · obtain ⟨-, rfl⟩ := Prod.mk.injEq .. |>.mp (Except.ok.inj (hc.symm.trans he))
        exact hR

/-- In every heap reachable from `_q_init`: every node is on the free list or
on exactly one queue's chain, all of these end in `NULL` and visit no node
twice; `size` counts the chain, `tail` is its last node, and both ends are
`NULL` exactly at size 0. From such a heap a call can only panic over a
`NULL` argument, and one that returns an error leaves the heap as it was. -/
theorem queue_module_sound {h : QHeap ι α κ} (hr : QReach h) :
    (∃ free chain, Rep h free chain ∧ free.Nodup ∧ ∀ q, (chain q).Nodup
      ∧ (((h.ques q).head = none ∧ (h.ques q).tail = none) ↔ (h.ques q).size = 0)) ∧
    ∀ op : QOp ι α κ, op.Allowed h →
      (∀ f, qCall h op = .error f → op.NullArg f) ∧
      (∀ st h', qCall h op = .ok (st, h') → st ≠ .success → h' = h) := by
  obtain ⟨free, chain, R⟩ := hr.rep
  refine ⟨⟨free, chain, R, R.free_nodup, fun q => ⟨R.nodup q, R.ends_null q⟩⟩, ?_⟩
  intro op hop
  rcases qCall_spec R op hop with ⟨f, he, hf⟩ | ⟨st, h', he, -, hs⟩
  · refine ⟨fun f' he' => ?_, fun st h' he' => ?_⟩
    · rw [he] at he'
      cases he'
      exact hf
    · rw [he] at he'
      cases he'
  · refine ⟨fun f' he' => ?_, fun st' h'' he' hne => ?_⟩
    · rw [he] at he'
      cases he'
    · rw [he] at he'
      cases he'
      exact hs hne

/-- Entries are put on two queues, one is taken off again, and the same queue is
asked for another in vain. -/
theorem queue_module_sound_calls :
    ∃ h₁ h₂ h₃ : QHeap Bool Nat Unit,
      qCall (qInit QHeap.zero) (.enque (fun _ _ _ => 0) (some true) (some 7)) = .ok (.success, h₁)
      ∧ qCall h₁ (.enque (fun _ _ _ => 0) (some false) (some 8)) = .ok (.success, h₂)
      ∧ qCall h₂ (.deque (some true) (some none)) = .ok (.success, h₃)
      ∧ (∃ free chain, Rep h₃ free chain ∧ free.Nodup ∧ ∀ q, (chain q).Nodup
        ∧ (((h₃.ques q).head = none ∧ (h₃.ques q).tail = none) ↔ (h₃.ques q).size = 0))
      ∧ ∀ st h, qCall h₃ (.deque (some true) (some none)) = .ok (st, h) → st ≠ .success →
        h = h₃ := by
  obtain ⟨h₁, he₁⟩ : ∃ h₁, qCall (qInit (QHeap.zero : QHeap Bool Nat Unit))
      (.enque (fun _ _ _ => 0) (some true) (some 7)) = .ok (.success, h₁) := ⟨_, rfl⟩
  have hr₁ : QReach h₁ := .call .init (show QOp.Allowed _ (.enque _ _ _) from trivial) he₁
  obtain ⟨h₂, he₂⟩ : ∃ h₂, qCall h₁ (.enque (fun _ _ _ => 0) (some false) (some 8))
      = .ok (.success, h₂) := by
    cases he₁
    exact ⟨_, rfl⟩
  have hr₂ : QReach h₂ := .call hr₁ (show QOp.Allowed _ (.enque _ _ _) from trivial) he₂
  obtain ⟨h₃, he₃⟩ : ∃ h₃, qCall h₂ (.deque (some true) (some none)) = .ok (.success, h₃) := by
    cases he₁
    cases he₂
    exact ⟨_, rfl⟩
  have hr₃ : QReach h₃ := .call hr₂ (show QOp.Allowed _ (.deque _ _) from trivial) he₃
  obtain ⟨hrep, hcall⟩ := queue_module_sound hr₃
  exact ⟨h₁, h₂, h₃, he₁, he₂, he₃, hrep, (hcall (.deque (some true) (some none)) trivial).2⟩

end SpKernel
