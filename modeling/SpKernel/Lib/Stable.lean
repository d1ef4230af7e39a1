import Mathlib

/-!
# Stable order under a comparison function

A comparison function in the C convention: `c x y` is negative, zero or
positive as `x` is less than, equivalent to or greater than `y`.
`TotalPreorder c` says that `c` does compare so; nothing is said about
antisymmetry, as different entries may be equivalent.

`InOrder` is the order a stable priority queue keeps: by key, equivalent
keys by time of arrival, and by time of arrival alone when there is no
comparison function. It is a `Pairwise` statement about `Precedes`, so it
passes to sublists (`InOrder.sublist`): taking entries out, from
anywhere, needs no further argument.

A newcomer that goes behind everything it is not less than keeps the
order (`InOrder.insert`). What is ahead of it is then not greater
(`InOrder.le_of_mem_takeWhile`), and what is behind it is greater
(`InOrder.lt_of_mem_dropWhile`); the second needs the list to be in order
already, since the search for the place stops at the first entry that is
greater and looks at no other. Without a comparison function a newcomer
goes to the end (`InOrder.append`).
-/

namespace SpKernel.Lib

variable {α ν : Type*}

/-- `c` is the three-way comparison of a total preorder: the two orders of
its arguments agree, and "not greater" is transitive. -/
structure TotalPreorder (c : α → α → Int) : Prop where
  swap : ∀ x y, c x y ≤ 0 ↔ 0 ≤ c y x
  trans : ∀ x y z, c x y ≤ 0 → c y z ≤ 0 → c x z ≤ 0

/-- `m` goes before `n`: it has the smaller key, or an equivalent one and
arrived earlier; without a comparison function it arrived earlier. -/
def Precedes (ord : Option (α → α → Int)) (key : ν → α) (since : ν → Nat) (m n : ν) : Prop :=
  match ord with
  | none => since m < since n
  | some c => c (key m) (key n) < 0 ∨ c (key m) (key n) = 0 ∧ since m < since n

/-- Sorted by the keys, equivalent keys by time of arrival. -/
def InOrder (ord : Option (α → α → Int)) (key : ν → α) (since : ν → Nat) (l : List ν) : Prop :=
  l.Pairwise (Precedes ord key since)

namespace InOrder

variable {ord : Option (α → α → Int)} {c : α → α → Int} {key : ν → α} {since : ν → Nat}
  {l : List ν}

theorem sublist {l' : List ν} (h : InOrder ord key since l) (hs : l'.Sublist l) :
    InOrder ord key since l' :=
  List.Pairwise.sublist hs h

/-- Only the keys and the times of what is in the list matter. -/
theorem congr {key' : ν → α} {since' : ν → Nat} (h : InOrder ord key since l)
    (hk : ∀ n ∈ l, key' n = key n) (hs : ∀ n ∈ l, since' n = since n) :
    InOrder ord key' since' l := by
  refine List.Pairwise.imp_of_mem (fun {m n} hm hn hmn => ?_) h
  unfold Precedes at hmn ⊢
  rwa [hk m hm, hk n hn, hs m hm, hs n hn]

theorem le_of_mem_takeWhile {d : α} (hc : TotalPreorder c) {n : ν}
    (hn : n ∈ l.takeWhile fun m => decide (0 ≤ c d (key m))) : c (key n) d ≤ 0 := by
  have hle := List.mem_takeWhile_imp hn
  exact (hc.swap (key n) d).mpr (of_decide_eq_true hle)

theorem lt_of_mem_dropWhile {d : α} (hc : TotalPreorder c)
    (h : InOrder (some c) key since l) {n : ν}
    (hn : n ∈ l.dropWhile fun m => decide (0 ≤ c d (key m))) : c d (key n) < 0 := by
  have hfirst := List.head?_dropWhile_not (fun m => decide (0 ≤ c d (key m))) l
  have hrest := h.sublist (List.dropWhile_sublist fun m => decide (0 ≤ c d (key m)))
  cases hdrop : l.dropWhile fun m => decide (0 ≤ c d (key m)) with
  | nil =>
      rw [hdrop] at hn
      cases hn
  | cons a t =>
      rw [hdrop] at hn hfirst hrest
      have ha : c d (key a) < 0 := by
        have : ¬0 ≤ c d (key a) := by simpa using hfirst
        omega
      rcases List.mem_cons.mp hn with rfl | hn
      · exact ha
      · have han := (List.pairwise_cons.mp hrest).1 n hn
        have hle : c (key a) (key n) ≤ 0 := by
          simp only [Precedes] at han
          omega
        by_contra hdn
        have hnd : c (key n) d ≤ 0 := (hc.swap (key n) d).mpr (by omega)
        have had : c (key a) d ≤ 0 := hc.trans _ _ _ hle hnd
        have hda := (hc.swap (key a) d).mp had
        omega

/-- A newcomer joins at the end of a list that has no comparison function. -/
theorem append {new : ν} (h : InOrder none key since l) (hnew : ∀ n ∈ l, since n < since new) :
    InOrder none key since (l ++ [new]) := by
  refine List.pairwise_append.mpr ⟨h, List.pairwise_singleton _ _, fun n hn m hm => ?_⟩
  rw [List.mem_singleton.mp hm]
  exact hnew n hn

/-- A newcomer goes behind everything it is not less than. -/
theorem insert {new : ν} (hc : TotalPreorder c) (h : InOrder (some c) key since l)
    (hnew : ∀ n ∈ l, since n < since new) :
    InOrder (some c) key since
      ((l.takeWhile fun m => decide (0 ≤ c (key new) (key m)))
        ++ new :: l.dropWhile fun m => decide (0 ≤ c (key new) (key m))) := by
  have hall : InOrder (some c) key since
      ((l.takeWhile fun m => decide (0 ≤ c (key new) (key m)))
        ++ l.dropWhile fun m => decide (0 ≤ c (key new) (key m))) := by
    rw [List.takeWhile_append_dropWhile]
    exact h
  obtain ⟨hahead, hbehind, hacross⟩ := List.pairwise_append.mp hall
  refine List.pairwise_append.mpr ⟨hahead, List.pairwise_cons.mpr ⟨fun n hn => ?_, hbehind⟩,
    fun m hm n hn => ?_⟩
  · exact .inl (h.lt_of_mem_dropWhile hc hn)
  · rcases List.mem_cons.mp hn with rfl | hn
    · have hle := le_of_mem_takeWhile hc hm
      have hsince := hnew m ((List.takeWhile_prefix _).subset hm)
      simp only [Precedes]
      omega
    · exact hacross m hm n hn

end InOrder

end SpKernel.Lib
