import Mathlib

/-!
# Circular buffers

The contents of a circular buffer of `size` cells, as the list of the `n`
cells from position `i` on, taken modulo the size.

`ring_push` and `ring_pop` are what writing the first free cell and
moving past the oldest one do to that list; a buffer that never passes
its end is the case without wrap-around. The cell that is written is none
of those that are in use as long as there is a free one, and this is the
only place where the arithmetic modulo the size is needed (`ring_apart`).
-/

namespace SpKernel.Lib

open Function (update update_self update_of_ne)

variable {α : Type*} {size i n : Nat} {buf : Nat → α}

/-- The `n` cells from `i` on. -/
def ring (size : Nat) (buf : Nat → α) (i n : Nat) : List α :=
  (List.range n).map fun j => buf ((i + j) % size)

@[simp] theorem ring_zero : ring size buf i 0 = [] := rfl

@[simp] theorem ring_length : (ring size buf i n).length = n := by
  simp [ring]

theorem ring_pop :
    ring size buf i (n + 1) = buf (i % size) :: ring size buf ((i + 1) % size) n := by
  rw [ring, List.range_succ_eq_map, List.map_cons, List.map_map]
  refine congrArg₂ List.cons rfl (List.map_congr_left fun j _ => ?_)
  rw [Function.comp_apply, Nat.mod_add_mod, Nat.add_right_comm, Nat.add_assoc]

/-- Fewer than `size` steps do not lead back to the same cell. -/
theorem ring_apart {j : Nat} (hj : j < n) (hn : n < size) :
    (i + j) % size ≠ (i + n) % size := by
  intro he
  have hmod : i + j ≡ i + n [MOD size] := he
  have := Nat.ModEq.add_left_cancel' i hmod
  rw [Nat.ModEq, Nat.mod_eq_of_lt (hj.trans hn), Nat.mod_eq_of_lt hn] at this
  omega

theorem ring_push (hn : n < size) (x : α) :
    ring size (update buf ((i + n) % size) x) i (n + 1) = ring size buf i n ++ [x] := by
  rw [ring, List.range_succ, List.map_append, List.map_singleton, update_self]
  refine congrArg (· ++ [x]) (List.map_congr_left fun j hj => ?_)
  exact update_of_ne (ring_apart (List.mem_range.mp hj) hn) ..

end SpKernel.Lib
