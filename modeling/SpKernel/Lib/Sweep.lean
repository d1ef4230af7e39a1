import Mathlib

/-!
# Filling a table in order

A loop that sets the entries of a table one after the other, each to a
value computed from the table as it is then. When the value of an entry
depends only on entries that have not been passed yet (`Forward`), the
loop sets each entry to its value in the table at the start
(`sweep_range`): clearing entries in place and moving them to the front
are of this kind.

The table is a function on the natural numbers, and the loop passes a
range of it. Entries outside the range are as they were.
-/

namespace SpKernel.Lib

open Function (update update_self update_of_ne)

variable {α : Type*}

/-- Set the entries at `indices`, in this order. -/
def sweep (g : Nat → (Nat → α) → α) (indices : List Nat) (t : Nat → α) : Nat → α :=
  indices.foldl (fun t i => update t i (g i t)) t

/-- The value depends on the entry and those after it. -/
def Forward (g : Nat → (Nat → α) → α) : Prop :=
  ∀ i t t', (∀ j, i ≤ j → t j = t' j) → g i t = g i t'

variable {g : Nat → (Nat → α) → α}

theorem sweep_range (hg : Forward g) : ∀ (n start : Nat) (t : Nat → α) (j : Nat),
    sweep g (List.range' start n) t j = if start ≤ j ∧ j < start + n then g j t else t j
  | 0, start, t, j => by
      rw [if_neg (by omega)]
      rfl
  | n + 1, start, t, j => by
      rw [List.range'_succ, sweep, List.foldl_cons]
      refine (sweep_range hg n (start + 1) _ j).trans ?_
      rcases Nat.lt_trichotomy j start with hlt | rfl | hgt
      · rw [if_neg (by omega), if_neg (by omega), update_of_ne (by omega)]
      · rw [if_neg (by omega), if_pos (by omega), update_self]
      · by_cases hin : j < start + (n + 1)
        · rw [if_pos (by omega), if_pos (by omega)]
          exact hg j _ _ fun i hi => update_of_ne (by omega) ..
        · rw [if_neg (by omega), if_neg (by omega), update_of_ne (by omega)]

end SpKernel.Lib
