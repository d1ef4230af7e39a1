import Mathlib

/-!
# Chains and cycles of a successor function

`f^[j] x` for `j ≤ n` are the nodes of a chain when they are all
different. A chain is built by pointing its last node at a new one
(`Chained.extend`), and closed to a cycle by pointing it back at the
first (`Chained.close`); the length of a cycle is Mathlib's
`minimalPeriod`, and it is the same one step further on
(`minimalPeriod_step`). Where a node that is not passed points does not
matter (`iterate_update_of_ne`).

On a cycle, `List.iterate f x n` is a segment. It has no node twice
(`iterate_nodup`), and a segment shorter than the cycle does not contain
the node after it (`iterate_not_mem`), so it can grow by one at its end
(`iterate_snoc`) and shrink at its front (`filter_take`).
-/

namespace SpKernel.Lib

open Function (update update_self update_of_ne minimalPeriod)

variable {α : Type*} {f : α → α} {x y : α} {n : Nat}

/-- The first `n + 1` nodes from `x` on are all different. -/
def Chained (f : α → α) (x : α) (n : Nat) : Prop :=
  ∀ j k, j < k → k ≤ n → f^[j] x ≠ f^[k] x

theorem chained_zero : Chained f x 0 := by
  intro j k hjk hk
  omega

/-- Where a node that is not passed points does not matter. -/
theorem iterate_update_of_ne [DecidableEq α] {a : α} (h : ∀ j < n, f^[j] x ≠ a) :
    ∀ j ≤ n, (update f a y)^[j] x = f^[j] x
  | 0, _ => rfl
  | j + 1, hj => by
      rw [Function.iterate_succ_apply', iterate_update_of_ne h j (by omega),
        update_of_ne (h j (by omega)), Function.iterate_succ_apply']

theorem Chained.iterate_update [DecidableEq α] (h : Chained f x n) :
    ∀ j ≤ n, (update f (f^[n] x) y)^[j] x = f^[j] x :=
  iterate_update_of_ne fun j hj => h j n hj (Nat.le_refl n)

theorem Chained.update_of_ne [DecidableEq α] {a : α} (h : Chained f x n)
    (ha : ∀ j ≤ n, f^[j] x ≠ a) : Chained (update f a y) x n := by
  intro j k hjk hk
  rw [iterate_update_of_ne (fun i hi => ha i hi.le) j (by omega),
    iterate_update_of_ne (fun i hi => ha i hi.le) k hk]
  exact h j k hjk hk

/-- Where the last node of a chain points is the next node. -/
theorem Chained.iterate_update_last [DecidableEq α] (h : Chained f x n) :
    (update f (f^[n] x) y)^[n + 1] x = y := by
  rw [Function.iterate_succ_apply', h.iterate_update n (Nat.le_refl n), update_self]

theorem Chained.extend [DecidableEq α] (h : Chained f x n) (hy : ∀ j ≤ n, f^[j] x ≠ y) :
    Chained (update f (f^[n] x) y) x (n + 1) := by
  intro j k hjk hk
  rw [h.iterate_update j (by omega)]
  rcases Nat.lt_or_eq_of_le hk with hlt | rfl
  · rw [h.iterate_update k (by omega)]
    exact h j k hjk (by omega)
  · rw [h.iterate_update_last]
    exact hy j (by omega)

theorem Chained.close [DecidableEq α] (h : Chained f x n) :
    minimalPeriod (update f (f^[n] x) x) x = n + 1 := by
  have hper : Function.IsPeriodicPt (update f (f^[n] x) x) (n + 1) x := h.iterate_update_last
  have hle := hper.minimalPeriod_le (Nat.succ_pos n)
  have hpos := hper.minimalPeriod_pos (Nat.succ_pos n)
  by_contra hne
  have hback : (update f (f^[n] x) x)^[minimalPeriod (update f (f^[n] x) x) x] x = x :=
    Function.isPeriodicPt_minimalPeriod _ x
  rw [h.iterate_update _ (by omega)] at hback
  exact h 0 _ hpos (by omega) hback.symm

theorem minimalPeriod_step (h : minimalPeriod f x = n + 1) : minimalPeriod f (f x) = n + 1 := by
  rw [Function.minimalPeriod_apply, h]
  exact Function.minimalPeriod_pos_iff_mem_periodicPts.mp (by omega)

theorem iterate_nodup {k : Nat} (hk : k ≤ minimalPeriod f x) : (List.iterate f x k).Nodup := by
  rw [← List.range_map_iterate]
  refine List.Nodup.map_on (fun i hi j hj he => ?_) List.nodup_range
  have hi := List.mem_range.mp hi
  have hj := List.mem_range.mp hj
  exact (Function.iterate_eq_iterate_iff_of_lt_minimalPeriod (by omega) (by omega)).mp he

/-- The node after a segment that is not the whole cycle is not in it. -/
theorem iterate_not_mem {k : Nat} (hk : k < minimalPeriod f x) : f^[k] x ∉ List.iterate f x k := by
  intro hmem
  obtain ⟨j, hj, he⟩ := List.mem_iterate.mp hmem
  have := (Function.iterate_eq_iterate_iff_of_lt_minimalPeriod hk (by omega)).mp he
  omega

theorem iterate_snoc {k : Nat} : List.iterate f x (k + 1) = List.iterate f x k ++ [f^[k] x] := by
  rw [List.iterate_add]
  rfl

/-- Taking away what was at the front leaves the rest. -/
theorem filter_take [DecidableEq α] {l : List α} (h : l.Nodup) (k : Nat) :
    l.filter (· ∉ l.take k) = l.drop k := by
  conv_lhs => rw [← List.take_append_drop k l, List.filter_append]
  rw [List.take_append_drop, List.filter_eq_nil_iff.mpr, List.filter_eq_self.mpr, List.nil_append]
  · intro a ha
    simpa using fun hmem => List.disjoint_take_drop h (Nat.le_refl k) hmem ha
  · intro a ha
    simpa using ha

end SpKernel.Lib
