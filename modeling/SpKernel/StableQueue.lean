import SpKernel.Lib.Stable
import SpKernel.QueueSound
import SpKernel.Process

/-!
# Queues as stable priority queues

The entries of a queue are read off its chain, from `head` along `next`
(`entries`), without knowing anything of the heap; in a heap that is
represented they are those of the chain (`Rep.entries`). With a
comparison function that is a total preorder each operation does to this
list what a stable priority queue does (`EnquesInPlace`, `DequesFirst`,
`RemovesFirst`), and what one operation keeps, every sequence of them
keeps (`queue_stable`).

The order of insertion is not in the heap. `Timed` records beside it when
each node was last taken off the free list by an insertion; the clock is
never read by the operations, and `Timed.step` is `qCall` with the
record. `Stable` is then an invariant of the two together: the heap is
represented, and every chain is in the order that `InOrder` of the
library defines.

The step is by cases on the call. An insertion puts the newcomer, which
is the last, where the order needs it (`inOrder_spot`); taking out any
node leaves the rest in order (`removed`); and a reset is of an empty
queue. Only the chain of one queue changes in each (`of_update`).

`Kernel.totalPreorder_cmpWakeup` is that the one comparison function of
the kernel is as the queues want it.
-/

namespace SpKernel

open Function (update update_self update_of_ne)
open Lib

variable {ι α κ : Type}

/-! ## Reading a chain -/

/-- The nodes from `p` on, along the links. -/
def walk {ν : Type} (next : ν → Option ν) : Nat → Option ν → List ν
  | 0, _ => []
  | _, none => []
  | fuel + 1, some n => n :: walk next fuel (next n)

namespace QHeap

/-- The chain of a queue: no chain has more nodes than there are. -/
def nodesOf (h : QHeap ι α κ) (q : ι) : List QPtr := walk h.next nQnodes (h.ques q).head

/-- The entries of a queue, front first. -/
def entries (h : QHeap ι α κ) (q : ι) : List (Option α) := (h.nodesOf q).map h.data

end QHeap

theorem walk_seg {ν : Type} {next : ν → Option ν} :
    ∀ {l : List ν} {fuel : Nat} {p : Option ν}, Seg next p l none → l.length ≤ fuel →
      walk next fuel p = l
  | [], 0, _, _, _ => rfl
  | [], _ + 1, _, rfl, _ => rfl
  | n :: l, 0, _, _, hf => by simp at hf
  | n :: l, fuel + 1, _, ⟨rfl, hl⟩, hf => by
      rw [walk, walk_seg hl (Nat.le_of_succ_le_succ hf)]

theorem Rep.nodesOf {h : QHeap ι α κ} {free : List QPtr} {chain : ι → List QPtr}
    (R : Rep h free chain) (q : ι) : h.nodesOf q = chain q :=
  walk_seg (R.seg q) (R.length_le q)

theorem Rep.entries {h : QHeap ι α κ} {free : List QPtr} {chain : ι → List QPtr}
    (R : Rep h free chain) : h.entries = items h chain := by
  funext q
  rw [QHeap.entries, R.nodesOf, items]

/-! ## What the operations do to the entries -/

/-- `d` goes in behind the entries that compare less or equal and before the
greater ones; at the end when there is no comparison function. -/
def Inserted (ord : Option (Option α → Option α → Int)) (d : Option α)
    (old new : List (Option α)) : Prop :=
  ∃ l₁ l₂, old = l₁ ++ l₂ ∧ new = l₁ ++ d :: l₂ ∧
    match ord with
    | none => l₂ = []
    | some c => (∀ x ∈ l₁, c x d ≤ 0) ∧ ∀ x ∈ l₂, 0 < c x d

/-- `_q_enque` inserts `d` at its place in `q` and leaves the other queues
alone, or reports that no node is free and changes nothing. -/
def EnquesInPlace [DecidableEq ι] (cmpf : κ → Option α → Option α → Int) (h : QHeap ι α κ)
    (q : ι) (d : Option α) : Prop :=
  (h.freeQnodes = none ∧ qEnque cmpf h (some q) d = .ok (.noQnodes, h)) ∨
  ∃ h', qEnque cmpf h (some q) d = .ok (.success, h')
    ∧ Inserted ((h.ques q).cmp.map cmpf) d (h.entries q) (h'.entries q)
    ∧ ∀ q', q' ≠ q → h'.entries q' = h.entries q'

/-- `_q_deque` removes and returns the first entry of `q`. -/
def DequesFirst [DecidableEq ι] (h : QHeap ι α κ) (q : ι) (old : Option α) : Prop :=
  match h.entries q with
  | [] => qDeque h (some q) (some old) = .ok (.emptyQueue, old, h)
  | d :: l => ∃ h', qDeque h (some q) (some old) = .ok (.success, d, h')
      ∧ h'.entries q = l ∧ ∀ q', q' ≠ q → h'.entries q' = h.entries q'

/-- `_q_remove` removes the first occurrence of `d` in `q`, or reports that
there is none and changes nothing. -/
def RemovesFirst [DecidableEq ι] [DecidableEq α] (h : QHeap ι α κ) (q : ι) (d : Option α) :
    Prop :=
  (d ∉ h.entries q ∧ qRemove h (some q) d = .ok (.noProcess, h)) ∨
  ∃ l₁ l₂ h', h.entries q = l₁ ++ d :: l₂ ∧ d ∉ l₁
    ∧ qRemove h (some q) d = .ok (.success, h')
    ∧ h'.entries q = l₁ ++ l₂ ∧ ∀ q', q' ≠ q → h'.entries q' = h.entries q'

/-! ## Times of insertion -/

/-- A heap, the number of calls so far, and when each node was last taken
for an entry. -/
structure Timed (ι α κ : Type) where
  heap : QHeap ι α κ
  now : Nat
  since : QPtr → Nat

namespace Timed

/-- The node a call takes off the free list. -/
def taken (h : QHeap ι α κ) : QOp ι α κ → Option QPtr
  | .enque .. => h.freeQnodes
  | _ => none

/-- The state after a call that left the heap `h'`. -/
def after (s : Timed ι α κ) (op : QOp ι α κ) (h' : QHeap ι α κ) : Timed ι α κ where
  heap := h'
  now := s.now + 1
  since := match taken s.heap op with
    | some n => update s.since n s.now
    | none => s.since

/-- One call. -/
def step [DecidableEq ι] [DecidableEq α] (s : Timed ι α κ) (op : QOp ι α κ) :
    Except Fault (Timed ι α κ) := do
  let (_, h') ← qCall s.heap op
  .ok (s.after op h')

/-- The calls of a run: comparison functions mean what `cmpf` says, and a
queue is only reset when it is empty. -/
def Proper (cmpf : κ → Option α → Option α → Int) (s : Timed ι α κ) (op : QOp ι α κ) : Prop :=
  op.Allowed s.heap ∧
    match op with
    | .enque c _ _ => c = cmpf
    | _ => True

/-- Well-formed, and every queue in its order. -/
structure Stable (cmpf : κ → Option α → Option α → Int) (s : Timed ι α κ) : Prop where
  rep : ∃ free chain, Rep s.heap free chain
  past : ∀ q, ∀ n ∈ s.heap.nodesOf q, s.since n < s.now
  sorted : ∀ q, InOrder ((s.heap.ques q).cmp.map cmpf) s.heap.data s.since (s.heap.nodesOf q)

end Timed

/-! ## Insertion -/

section Insertion

variable {ord : Option (Option α → Option α → Int)} {key : QPtr → Option α}
  {since : QPtr → Nat} {l : List QPtr}

/-- In a queue that is in order, the place `_q_enque` picks is behind all
that compares less or equal and before all that compares greater. -/
theorem inserted_insertItem (hord : ∀ c, ord = some c → TotalPreorder c)
    (h : InOrder ord key since l) (d : Option α) :
    Inserted ord d (l.map key) (insertItem ord d (l.map key)) := by
  cases ord with
  | none => exact ⟨l.map key, [], (List.append_nil _).symm, rfl, rfl⟩
  | some c =>
      have hc := hord c rfl
      refine ⟨_, _, List.takeWhile_append_dropWhile.symm, rfl, fun x hx => ?_, fun x hx => ?_⟩
      · have hle := List.mem_takeWhile_imp hx
        exact (hc.swap x d).mpr (of_decide_eq_true hle)
      · rw [List.dropWhile_map, List.mem_map] at hx
        obtain ⟨n, hn, rfl⟩ := hx
        have hlt := h.lt_of_mem_dropWhile hc hn
        have hswap := hc.swap (key n) d
        omega

theorem inOrder_spot (hord : ∀ c, ord = some c → TotalPreorder c) {new : QPtr}
    (h : InOrder ord key since l) (hnew : ∀ n ∈ l, since n < since new) :
    InOrder ord key since
      ((spot ord (key new) key l).1 ++ new :: (spot ord (key new) key l).2) := by
  cases ord with
  | none => exact h.append hnew
  | some c => exact h.insert (hord c rfl) hnew

end Insertion

/-! ## Each operation -/

namespace Timed.Stable

variable [DecidableEq ι] {cmpf : κ → Option α → Option α → Int} {s : Timed ι α κ}

theorem enques (hc : ∀ c, TotalPreorder (cmpf c)) (hs : s.Stable cmpf) (q : ι)
    (d : Option α) : EnquesInPlace cmpf s.heap q d := by
  obtain ⟨free, chain, R⟩ := hs.rep
  rcases qEnque_spec R cmpf q d with ⟨rfl, he⟩ | ⟨new, rest, h', rfl, he, hE⟩
  · exact .inl ⟨R.free_head, he⟩
  refine .inr ⟨h', he, ?_, fun q' hne => ?_⟩
  · have hsorted := hs.sorted q
    rw [R.nodesOf] at hsorted
    rw [R.entries, hE.rep.entries, hE.items_eq R rfl, update_self]
    refine inserted_insertItem (fun c hq => ?_) hsorted d
    obtain ⟨k, -, rfl⟩ := Option.map_eq_some_iff.mp hq
    exact hc k
  · rw [R.entries, hE.rep.entries, hE.items_eq R rfl, update_of_ne hne]

theorem deques (hs : s.Stable cmpf) (q : ι) (old : Option α) : DequesFirst s.heap q old := by
  obtain ⟨free, chain, R⟩ := hs.rep
  cases hq : chain q with
  | nil =>
      rw [DequesFirst, R.entries, items, hq]
      exact qDeque_nil R hq old
  | cons n l =>
      obtain ⟨h', he, hR⟩ := qDeque_cons R hq old
      rw [← List.nil_append (n :: l)] at hq
      rw [← List.nil_append l] at hR
      have hitems := Removed.items_eq R hq hR
      rw [DequesFirst, R.entries, items, hq]
      refine ⟨h', he, ?_, fun q' hne => ?_⟩
      · rw [hR.rep.entries, hitems, update_self]
        rfl
      · rw [hR.rep.entries, hitems, update_of_ne hne]

theorem removes [DecidableEq α] (hs : s.Stable cmpf) (q : ι) (d : Option α) :
    RemovesFirst s.heap q d := by
  obtain ⟨free, chain, R⟩ := hs.rep
  unfold RemovesFirst
  rw [R.entries]
  rcases qRemove_spec R q d with ⟨hd, he⟩ | ⟨l₁, n, l₂, h', hq, hd, hn, he, hR⟩
  · exact .inl ⟨hd, he⟩
  · have hitems := Removed.items_eq R hq hR
    refine .inr ⟨l₁.map s.heap.data, l₂.map s.heap.data, h', ?_, hd, he, ?_, fun q' hne => ?_⟩
    · rw [items, hq, List.map_append, List.map_cons, hn]
    · rw [hR.rep.entries, hitems, update_self, List.map_append]
    · rw [hR.rep.entries, hitems, update_of_ne hne]

/-! ## One call -/

/-- Only the chain of `q` has changed, and it is in order: so is every chain. -/
theorem of_update (hs : s.Stable cmpf) {free' : List QPtr} {chain : ι → List QPtr} {q : ι}
    {l : List QPtr} {t : Timed ι α κ} (hchain : ∀ q', s.heap.nodesOf q' = chain q')
    (R : Rep t.heap free' (update chain q l)) (hnow : t.now = s.now + 1)
    (hcmp : ∀ q', q' ≠ q → (t.heap.ques q').cmp = (s.heap.ques q').cmp)
    (hdata : ∀ q', q' ≠ q → ∀ n ∈ chain q', t.heap.data n = s.heap.data n)
    (hsince : ∀ q', q' ≠ q → ∀ n ∈ chain q', t.since n = s.since n)
    (hpast : ∀ n ∈ l, t.since n < t.now)
    (hl : InOrder ((t.heap.ques q).cmp.map cmpf) t.heap.data t.since l) : t.Stable cmpf := by
  refine ⟨⟨_, _, R⟩, fun q' n hn => ?_, fun q' => ?_⟩
  · rw [R.nodesOf] at hn
    rcases eq_or_ne q' q with rfl | hne
    · rw [update_self] at hn
      exact hpast n hn
    · rw [update_of_ne hne] at hn
      rw [hsince q' hne n hn, hnow]
      exact Nat.lt_succ_of_lt (hs.past q' n (by rwa [hchain]))
  · rw [R.nodesOf]
    rcases eq_or_ne q' q with rfl | hne
    · rw [update_self]
      exact hl
    · rw [update_of_ne hne, hcmp q' hne]
      have hold := hs.sorted q'
      rw [hchain] at hold
      exact hold.congr (hdata q' hne) (hsince q' hne)

omit [DecidableEq ι] in
theorem tick (hs : s.Stable cmpf) : Stable cmpf { s with now := s.now + 1 } :=
  ⟨hs.rep, fun q n hn => Nat.lt_succ_of_lt (hs.past q n hn), hs.sorted⟩

theorem enque {free : List QPtr} {chain : ι → List QPtr} {new : QPtr} {h' : QHeap ι α κ}
    (hc : ∀ c, TotalPreorder (cmpf c)) (hs : s.Stable cmpf)
    (R : Rep s.heap (new :: free) chain) {q : ι} {d : Option α}
    (hE : Enqueued cmpf s.heap h' chain q d new free) :
    Stable cmpf ⟨h', s.now + 1, update s.since new s.now⟩ := by
  have hapart : ∀ q', ∀ n ∈ chain q', n ≠ new := fun q' n hn he =>
    R.freeApart q' new (List.mem_cons_self ..) (he ▸ hn)
  have hdata : ∀ q', ∀ n ∈ chain q', h'.data n = s.heap.data n := fun q' n hn => by
    rw [hE.data, update_of_ne (hapart q' n hn)]
  have hsince : ∀ q', ∀ n ∈ chain q', update s.since new s.now n = s.since n := fun q' n hn =>
    update_of_ne (hapart q' n hn) ..
  have hpast : ∀ n ∈ chain q, update s.since new s.now n < s.now := fun n hn => by
    rw [hsince q n hn]
    exact hs.past q n (by rwa [R.nodesOf])
  have hnew : h'.data new = d := by rw [hE.data, update_self]
  refine hs.of_update R.nodesOf hE.rep rfl (fun q' _ => hE.cmp q') (fun q' _ => hdata q')
    (fun q' _ => hsince q') (fun n hn => ?_) ?_
  · dsimp only
    rcases List.mem_append.mp hn with hn | hn
    · refine Nat.lt_succ_of_lt (hpast n ?_)
      rw [← spot_append ((s.heap.ques q).cmp.map cmpf) d h'.data (chain q)]
      exact List.mem_append_left _ hn
    · rcases List.mem_cons.mp hn with rfl | hn
      · rw [update_self]
        exact Nat.lt_succ_self _
      · refine Nat.lt_succ_of_lt (hpast n ?_)
        rw [← spot_append ((s.heap.ques q).cmp.map cmpf) d h'.data (chain q)]
        exact List.mem_append_right _ hn
  · have hsorted := hs.sorted q
    rw [R.nodesOf] at hsorted
    rw [hE.cmp q, ← hnew]
    refine inOrder_spot (fun c hq => ?_) (hsorted.congr (hdata q) (hsince q)) fun n hn => ?_
    · obtain ⟨k, -, rfl⟩ := Option.map_eq_some_iff.mp hq
      exact hc k
    · show update s.since new s.now n < update s.since new s.now new
      rw [update_self]
      exact hpast n hn

/-- Taking a node out of a chain leaves the rest in order. -/
theorem removed {free : List QPtr} {chain : ι → List QPtr} {h' : QHeap ι α κ} {q : ι}
    {n : QPtr} {l₁ l₂ : List QPtr} (hs : s.Stable cmpf) (R : Rep s.heap free chain)
    (hq : chain q = l₁ ++ n :: l₂) (hR : Removed s.heap h' chain q n free (l₁ ++ l₂)) :
    Stable cmpf ⟨h', s.now + 1, s.since⟩ := by
  have hsub : (l₁ ++ l₂).Sublist (chain q) := by
    rw [hq]
    exact (List.Sublist.refl l₁).append (List.sublist_cons_self n l₂)
  have hnot : n ∉ l₁ ++ l₂ :=
    (List.nodup_middle.mp (hq ▸ R.nodup q) |> List.nodup_cons.mp).1
  have hdata : ∀ m, m ≠ n → h'.data m = s.heap.data m := fun m hm => by
    rw [hR.data, update_of_ne hm]
  refine hs.of_update R.nodesOf hR.rep rfl (fun q' _ => hR.cmp q') (fun q' hne m hm => ?_)
    (fun _ _ _ _ => rfl) (fun m hm => ?_) ?_
  · refine hdata m fun he => hne (R.apart q' q n (he ▸ hm) ?_)
    rw [hq]
    exact List.mem_append_right _ (List.mem_cons_self ..)
  · refine Nat.lt_succ_of_lt (hs.past q m ?_)
    rw [R.nodesOf]
    exact hsub.subset hm
  · have hsorted := hs.sorted q
    rw [R.nodesOf] at hsorted
    rw [hR.cmp q]
    exact (hsorted.sublist hsub).congr (fun m hm => hdata m fun he => hnot (he ▸ hm))
      fun _ _ => rfl

theorem reset {free : List QPtr} {chain : ι → List QPtr} (hs : s.Stable cmpf)
    (R : Rep s.heap free chain) {q : ι} (hq : chain q = []) (cmp : Option κ) :
    Stable cmpf ⟨s.heap.setQue q { head := none, tail := none, size := 0, cmp := cmp },
      s.now + 1, s.since⟩ := by
  have hchain : update chain q [] = chain := by rw [← hq, Function.update_eq_self]
  have hR := R.reset hq cmp
  rw [← hchain] at hR
  refine hs.of_update R.nodesOf hR rfl (fun q' hne => ?_) (fun _ _ _ _ => rfl)
    (fun _ _ _ _ => rfl) (fun n hn => absurd hn List.not_mem_nil) List.Pairwise.nil
  simp [QHeap.setQue, update_of_ne hne]

variable [DecidableEq α]

/-- One call keeps every queue well-formed and in order. -/
theorem step (hc : ∀ c, TotalPreorder (cmpf c)) (hs : s.Stable cmpf) {op : QOp ι α κ}
    {t : Timed ι α κ} (hop : Proper cmpf s op) (h : s.step op = .ok t) : t.Stable cmpf := by
  obtain ⟨free, chain, R⟩ := hs.rep
  obtain ⟨⟨st, h'⟩, hcall, ht⟩ := bind_eq_ok.mp h
  obtain rfl := Except.ok.inj ht
  cases op with
  | enque c que d =>
      obtain rfl : c = cmpf := hop.2
      cases que with
      | none => cases hcall
      | some q =>
          rcases qEnque_spec R c q d with ⟨rfl, he⟩ | ⟨new, rest, h'', rfl, he, hE⟩
          · obtain ⟨-, rfl⟩ := Prod.mk.injEq .. |>.mp (Except.ok.inj (he.symm.trans hcall))
            have hfree : s.heap.freeQnodes = none := R.free_head
            simp only [after, taken, hfree]
            exact hs.tick
          · obtain ⟨-, rfl⟩ := Prod.mk.injEq .. |>.mp (Except.ok.inj (he.symm.trans hcall))
            have hfree : s.heap.freeQnodes = some new := R.free_head
            simp only [after, taken, hfree]
            exact hs.enque hc R hE
  | deque que out =>
      cases que with
      | none => cases hcall
      | some q =>
          cases out with
          | none => cases hcall
          | some old =>
              cases hq : chain q with
              | nil =>
                  simp only [qCall, qDeque_nil R hq] at hcall
                  obtain ⟨-, rfl⟩ := Prod.mk.injEq .. |>.mp (Except.ok.inj hcall)
                  exact hs.tick
              | cons n l =>
                  obtain ⟨h'', he, hR⟩ := qDeque_cons R hq old
                  simp only [qCall, he] at hcall
                  obtain ⟨-, rfl⟩ := Prod.mk.injEq .. |>.mp (Except.ok.inj hcall)
                  rw [← List.nil_append (n :: l)] at hq
                  rw [← List.nil_append l] at hR
                  exact hs.removed R hq hR
  | remove que d =>
      cases que with
      | none => cases hcall
      | some q =>
          rcases qRemove_spec R q d with ⟨-, he⟩ | ⟨l₁, n, l₂, h'', hq, -, -, he, hR⟩
          · obtain ⟨-, rfl⟩ := Prod.mk.injEq .. |>.mp (Except.ok.inj (he.symm.trans hcall))
            exact hs.tick
          · obtain ⟨-, rfl⟩ := Prod.mk.injEq .. |>.mp (Except.ok.inj (he.symm.trans hcall))
            exact hs.removed R hq hR
  | peek que out =>
      obtain ⟨r, -, hr⟩ : ∃ r, qPeek s.heap que out = .ok r ∧ (r.1, s.heap) = (st, h') := by
        simp only [qCall] at hcall
        cases hp : qPeek s.heap que out with
        | error f =>
            rw [hp] at hcall
            cases hcall
        | ok r =>
            rw [hp] at hcall
            exact ⟨r, rfl, Except.ok.inj hcall⟩
      obtain ⟨-, rfl⟩ := Prod.mk.injEq .. |>.mp hr
      exact hs.tick
  | reset que cmp =>
      cases que with
      | none => cases hcall
      | some q =>
          have hq : chain q = [] := (R.size_eq_zero q).mp hop.1
          obtain ⟨-, rfl⟩ := Prod.mk.injEq .. |>.mp (Except.ok.inj hcall)
          exact hs.reset R hq cmp

end Timed.Stable

/-! ## Runs -/

/-- After `_q_init` every queue is empty, so in order. -/
theorem Timed.stable_init (cmpf : κ → Option α → Option α → Int) :
    Timed.Stable cmpf (⟨qInit QHeap.zero, 0, fun _ => 0⟩ : Timed ι α κ) := by
  have R : Rep (qInit QHeap.zero : QHeap ι α κ) _ _ := rep_qInit
  refine ⟨⟨_, _, R⟩, fun q n hn => ?_, fun q => ?_⟩
  · rw [R.nodesOf] at hn
    cases hn
  · rw [R.nodesOf]
    exact List.Pairwise.nil

/-- `_cmp_wakeup` is a comparison function as the queues want it. -/
theorem Kernel.totalPreorder_cmpWakeup (k : Kernel) : TotalPreorder k.cmpWakeup := by
  constructor
  · intro p₁ p₂
    simp only [Kernel.cmpWakeup]
    split_ifs <;> first | omega | bv_omega
  · intro p₁ p₂ p₃
    simp only [Kernel.cmpWakeup]
    split_ifs <;> first | omega | bv_omega

variable [DecidableEq ι] [DecidableEq α]

/-- In every state reached from a well-formed one by any calls, the entries
of each queue are sorted, equivalent ones in the order of their insertion
(all of them in that order when there is no comparison function), and the
next insertion, removal of the first entry and removal of a given one do to
the list what they should. -/
theorem queue_stable {cmpf : κ → Option α → Option α → Int}
    (hc : ∀ c, TotalPreorder (cmpf c)) {s s' : Timed ι α κ}
    {tr : List (Timed ι α κ × QOp ι α κ)} (hs : s.Stable cmpf) (h : Steps Timed.step s tr s')
    (htr : ∀ x ∈ tr, Timed.Proper cmpf x.1 x.2) :
    s'.Stable cmpf ∧ ∀ q, (∀ d, EnquesInPlace cmpf s'.heap q d)
      ∧ (∀ old, DequesFirst s'.heap q old) ∧ ∀ d, RemovesFirst s'.heap q d := by
  have hs' : s'.Stable cmpf :=
    h.inv_of (fun t op t' ht hop hst => ht.step hc hop hst) hs htr
  exact ⟨hs', fun q => ⟨hs'.enques hc q, hs'.deques q, hs'.removes q⟩⟩

/-- Numbers as entries, `NULL` before all of them. -/
def byNumber (_ : Unit) (x y : Option Nat) : Int := (x.getD 0 : Int) - y.getD 0

/-- An empty queue that is ordered by number. -/
def ordered : Timed Bool Nat Unit where
  heap := (qInit QHeap.zero).setQue true { head := none, tail := none, size := 0, cmp := some () }
  now := 1
  since := fun _ => 0

/-- A run that puts 7, 3 and 7 on a queue ordered by number. -/
theorem queue_stable_three :
    ∃ s : Timed Bool Nat Unit, s.heap.entries true = [some 3, some 7, some 7]
      ∧ s.Stable byNumber ∧ ∀ q, (∀ d, EnquesInPlace byNumber s.heap q d)
        ∧ (∀ old, DequesFirst s.heap q old) ∧ ∀ d, RemovesFirst s.heap q d := by
  have hpre : TotalPreorder (byNumber ()) :=
    ⟨fun x y => by simp only [byNumber]; omega,
      fun x y z => by simp only [byNumber]; omega⟩
  have hstart : ordered.Stable byNumber :=
    (Timed.stable_init byNumber).reset rep_qInit rfl (some ())
  obtain ⟨s, hrun, hs⟩ : ∃ s, run Timed.step ordered
      ([7, 3, 7].map fun n => .enque byNumber (some true) (some n)) = .ok s
      ∧ decide (s.heap.entries true = [some 3, some 7, some 7]) = true :=
    of_okAnd (by decide +kernel)
  obtain ⟨tr, hsteps, hops⟩ := steps_of_run hrun
  refine ⟨s, of_decide_eq_true hs, queue_stable (fun _ => hpre) hstart hsteps fun x hx => ?_⟩
  have hop := List.mem_map_of_mem (f := Prod.snd) hx
  rw [hops, List.mem_map] at hop
  obtain ⟨n, -, hn⟩ := hop
  rw [← hn]
  exact ⟨trivial, rfl⟩

end SpKernel
