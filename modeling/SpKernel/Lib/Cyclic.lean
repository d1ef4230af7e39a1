import Mathlib

/-!
# A search around a table

A table of `n` entries is searched from a starting point, with a
wrap-around at its end, until an entry is found that is not in use or the
search is back where it started. It ends (`cyclicSearch_ends`), finds
only entries that are not in use (`cyclicSearch_finds`), and fails only
if all are.

`FirstFree` is the entry that such a search is to find: it is not in use,
and those between the starting point and it are. There is only one
(`FirstFree.unique`), and a search that has passed some entries in use
finds what is first from there (`cyclicSearch_from`). An entry that is
not in use is found at once when the search starts at it
(`cyclicSearch_first`).
-/

namespace SpKernel.Lib

variable {n : Nat} [NeZero n]

/-- The search from `cursor` on, at most `fuel` entries; `none` if it has
not ended by then. -/
def cyclicSearch (used : Fin n → Bool) (start : Fin n) : Nat → Fin n → Option (Option (Fin n))
  | 0, _ => none
  | fuel + 1, cursor =>
      if used cursor then
        if cursor + 1 = start then some none else cyclicSearch used start fuel (cursor + 1)
      else some (some cursor)

variable {used : Fin n → Bool} {start : Fin n}

/-- The entry is not in use, and those from the starting point up to it are. -/
def FirstFree (used : Fin n → Bool) (start i : Fin n) : Prop :=
  used i = false ∧ ∀ j < (i - start).val, used (start + Fin.ofNat n j) = true

theorem ofNat_succ (j : Nat) : start + Fin.ofNat n j + 1 = start + Fin.ofNat n (j + 1) := by
  rw [add_assoc]
  congr 1
  apply Fin.ext
  simp only [Fin.val_add, Fin.val_ofNat, Fin.val_one', Nat.add_mod_mod, Nat.mod_add_mod]

/-- The search at the `j`-th entry, when those before it are in use. -/
theorem cyclicSearch_from : ∀ fuel j, fuel + j = n → 0 < fuel →
    (∀ i < j, used (start + Fin.ofNat n i) = true) →
    (∃ i, cyclicSearch used start fuel (start + Fin.ofNat n j) = some (some i)
      ∧ FirstFree used start i)
    ∨ cyclicSearch used start fuel (start + Fin.ofNat n j) = some none ∧ ∀ i, used i = true
  | 0, _, _, h0, _ => absurd h0 (Nat.lt_irrefl 0)
  | fuel + 1, j, hj, _, hused => by
      rw [cyclicSearch]
      by_cases hu : used (start + Fin.ofNat n j) = true
      · have hused' : ∀ i < j + 1, used (start + Fin.ofNat n i) = true := by
          intro i hi
          rcases Nat.lt_succ_iff_lt_or_eq.mp hi with hlt | rfl
          · exact hused i hlt
          · exact hu
        rw [if_pos hu, ofNat_succ]
        by_cases hend : start + Fin.ofNat n (j + 1) = start
        · rw [if_pos hend]
          refine .inr ⟨rfl, fun i => ?_⟩
          have hmod : (j + 1) % n = 0 := by
            have h := congrArg Fin.val (add_eq_left.mp hend)
            simpa using h
          have hall : j + 1 = n := by
            have hle := Nat.le_of_dvd (Nat.succ_pos j) (Nat.dvd_of_mod_eq_zero hmod)
            omega
          have hi : start + Fin.ofNat n (i - start).val = i := by
            rw [Fin.ofNat_val_eq_self, add_sub_cancel]
          rw [← hi]
          exact hused' _ (by rw [hall]; exact (i - start).isLt)
        · rw [if_neg hend]
          have hpos : 0 < fuel := by
            by_contra hz
            refine hend ?_
            have hall : j + 1 = n := by omega
            rw [hall]
            exact add_eq_left.mpr (Fin.ext (by simp))
          exact cyclicSearch_from fuel (j + 1) (by omega) hpos hused'
      · rw [if_neg hu]
        refine .inl ⟨_, rfl, by simpa using hu, fun i hi => hused i ?_⟩
        have hlt : j < n := by omega
        rw [add_sub_cancel_left, Fin.val_ofNat, Nat.mod_eq_of_lt hlt] at hi
        exact hi

/-- The search ends, with the first entry that is not in use if there is
one. -/
theorem cyclicSearch_finds (used : Fin n → Bool) (start : Fin n) :
    (∃ i, cyclicSearch used start n start = some (some i) ∧ FirstFree used start i)
    ∨ cyclicSearch used start n start = some none ∧ ∀ i, used i = true := by
  have hfirst : start + Fin.ofNat n 0 = start := add_zero start
  have h : (∃ i, cyclicSearch used start n (start + Fin.ofNat n 0) = some (some i)
        ∧ FirstFree used start i)
      ∨ cyclicSearch used start n (start + Fin.ofNat n 0) = some none ∧ ∀ i, used i = true :=
    cyclicSearch_from n 0 (Nat.add_zero n) (Nat.pos_of_neZero n) (by simp)
  rwa [hfirst] at h

theorem cyclicSearch_ends (used : Fin n → Bool) (start : Fin n) :
    (∃ i, cyclicSearch used start n start = some (some i) ∧ used i = false)
    ∨ cyclicSearch used start n start = some none ∧ ∀ i, used i = true := by
  rcases cyclicSearch_finds used start with ⟨i, hs, hi⟩ | h
  · exact .inl ⟨i, hs, hi.1⟩
  · exact .inr h

theorem FirstFree.unique {i i' : Fin n} (h : FirstFree used start i)
    (h' : FirstFree used start i') : i = i' := by
  have hback : ∀ k : Fin n, start + Fin.ofNat n (k - start).val = k := by
    intro k
    rw [Fin.ofNat_val_eq_self, add_sub_cancel]
  rcases Nat.lt_trichotomy (i - start).val (i' - start).val with hlt | heq | hlt
  · have hu := h'.2 _ hlt
    rw [hback, h.1] at hu
    cases hu
  · rw [← hback i, ← hback i', heq]
  · have hu := h.2 _ hlt
    rw [hback, h'.1] at hu
    cases hu

theorem cyclicSearch_first {fuel : Nat} {cursor : Fin n} (h : used cursor = false) :
    cyclicSearch used start (fuel + 1) cursor = some (some cursor) := by
  rw [cyclicSearch, if_neg (by simp [h])]

end SpKernel.Lib
