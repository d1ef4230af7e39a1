import Mathlib

/-!
# Numerals

The numeral of a number in a base, most significant digit first. A digit
string is `Canonical` if it does not begin with a zero it could do
without; each number has one canonical string (`eq_numeral`), and it is
as long as the number needs (`length_numeral_le_iff`).

There are two ways to compute it, and a rule for each.

- A conversion that divides produces the numeral from the end: the last
  digit is the remainder, and what is in front of it the numeral of the
  quotient (`numeral_div`).
- One that looks at fixed groups of digits produces it from the front.
  `fixedDigits` are all of them, leading zeros included
  (`numeralValue_fixedDigits`); `front_digit` is the first group of what
  is left. Dropping zeros from the front of any string gives the
  canonical one (`suppress_eq`), so a loop that leaves out leading zeros
  ends with the numeral (`suppress_fixedDigits`).
-/

namespace SpKernel.Lib

variable {b n k d : Nat} {ds : List Nat}

/-- The digits of a number, most significant first. -/
def numeral (b n : Nat) : List Nat := if n = 0 then [0] else (Nat.digits b n).reverse

/-- The number a digit string stands for. -/
def numeralValue (b : Nat) (ds : List Nat) : Nat := Nat.ofDigits b ds.reverse

/-- A digit string without a leading zero, but for zero itself. -/
structure Canonical (b : Nat) (ds : List Nat) : Prop where
  nonempty : ds ≠ []
  digit : ∀ d ∈ ds, d < b
  head : ds.head? = some 0 → ds = [0]

theorem numeralValue_cons (b d : Nat) (ds : List Nat) :
    numeralValue b (d :: ds) = d * b ^ ds.length + numeralValue b ds := by
  rw [numeralValue, Nat.ofDigits_reverse_cons, Nat.add_comm, Nat.mul_comm]
  rfl

theorem numeralValue_zero_cons (b : Nat) (ds : List Nat) :
    numeralValue b (0 :: ds) = numeralValue b ds := by
  rw [numeralValue_cons, Nat.zero_mul, Nat.zero_add]

/-! ## Canonical strings -/

theorem numeral_of_lt (h : n < b) : numeral b n = [n] := by
  rw [numeral]
  split
  · next hz => rw [hz]
  · next hz => rw [Nat.digits_of_lt b n hz h, List.reverse_singleton]

theorem numeral_div (hb : 1 < b) (h : b ≤ n) :
    numeral b n = numeral b (n / b) ++ [n % b] := by
  have hpos : 0 < n := by omega
  have hdiv : n / b ≠ 0 := (Nat.div_pos h (by omega)).ne'
  rw [numeral, numeral, if_neg hpos.ne', if_neg hdiv, Nat.digits_def' hb hpos,
    List.reverse_cons]

theorem canonical_numeral (hb : 1 < b) (n : Nat) : Canonical b (numeral b n) := by
  rw [numeral]
  split
  · exact ⟨List.cons_ne_nil _ _, by simpa using Nat.zero_lt_of_lt hb, fun _ => rfl⟩
  · next hz =>
      refine ⟨?_, fun d hd => ?_, fun hhead => ?_⟩
      · exact List.reverse_ne_nil_iff.mpr (Nat.digits_ne_nil_iff_ne_zero.mpr hz)
      · exact Nat.digits_lt_base hb (List.mem_reverse.mp hd)
      · rw [List.head?_reverse] at hhead
        exact absurd (List.getLast_of_getLast?_eq_some hhead)
          (Nat.getLast_digit_ne_zero b hz)

theorem numeralValue_numeral (b n : Nat) : numeralValue b (numeral b n) = n := by
  rw [numeral]
  split
  · next hz =>
      rw [hz]
      simp [numeralValue]
  · rw [numeralValue, List.reverse_reverse, Nat.ofDigits_digits]

theorem eq_numeral (hb : 1 < b) (h : Canonical b ds) : ds = numeral b (numeralValue b ds) := by
  by_cases hz : ds.head? = some 0
  · rw [h.head hz, numeralValue]
    simp [numeral]
  · have hdigits : Nat.digits b (numeralValue b ds) = ds.reverse := by
      refine Nat.digits_ofDigits b hb _ (fun d hd => h.digit d (List.mem_reverse.mp hd)) ?_
      intro hne hlast
      rw [List.getLast_reverse] at hlast
      exact hz (by rw [List.head?_eq_some_head h.nonempty, hlast])
    have hpos : numeralValue b ds ≠ 0 := by
      intro h0
      rw [h0, Nat.digits_zero, eq_comm, List.reverse_eq_nil_iff] at hdigits
      exact h.nonempty hdigits
    rw [numeral, if_neg hpos, hdigits, List.reverse_reverse]

theorem length_numeral_le_iff (hb : 1 < b) (hk : 0 < k) :
    (numeral b n).length ≤ k ↔ n < b ^ k := by
  rw [numeral]
  split
  · next hz => exact iff_of_true hk (hz ▸ Nat.pow_pos (Nat.zero_lt_of_lt hb))
  · rw [List.length_reverse]
    exact Nat.digits_length_le_iff hb n

theorem length_numeral_le (hb : 1 < b) (hk : 0 < k) (h : n < b ^ k) :
    (numeral b n).length ≤ k :=
  (length_numeral_le_iff hb hk).mpr h

/-! ## Leading zeros -/

/-- The digits without leading zeros, except for the last digit. After the
first that is stored, all are. -/
def suppress : Bool → List Nat → List Nat
  | _, [] => []
  | stored, d :: ds =>
      if ds = [] ∨ d ≠ 0 ∨ stored then d :: suppress true ds else suppress stored ds

theorem suppress_true (ds : List Nat) : suppress true ds = ds := by
  induction ds with
  | nil => rfl
  | cons d ds ih => rw [suppress, if_pos (.inr (.inr rfl)), ih]

theorem numeralValue_suppress (b : Nat) (ds : List Nat) :
    numeralValue b (suppress false ds) = numeralValue b ds := by
  induction ds with
  | nil => rfl
  | cons d ds ih =>
      rw [suppress]
      split
      · rw [suppress_true]
      · next h =>
          obtain ⟨-, hd⟩ := not_or.mp h
          rw [ih, not_not.mp (not_or.mp hd).1, numeralValue_zero_cons]

theorem canonical_suppress : ∀ {ds : List Nat}, ds ≠ [] → (∀ d ∈ ds, d < b) →
    Canonical b (suppress false ds)
  | [], h, _ => absurd rfl h
  | d :: ds, _, hds => by
      rw [suppress]
      split
      · next h =>
          rw [suppress_true]
          refine ⟨List.cons_ne_nil _ _, hds, fun hz => ?_⟩
          obtain rfl := Option.some.inj hz
          rcases h with rfl | h | h
          · rfl
          · exact absurd rfl h
          · cases h
      · next h =>
          exact canonical_suppress (fun hnil => h (.inl hnil))
            fun d' hd' => hds d' (List.mem_cons_of_mem _ hd')

theorem suppress_eq (hb : 1 < b) (hne : ds ≠ []) (hds : ∀ d ∈ ds, d < b) :
    suppress false ds = numeral b (numeralValue b ds) := by
  rw [eq_numeral hb (canonical_suppress hne hds), numeralValue_suppress]

/-! ## Fixed groups of digits -/

/-- The last `k` digits of a number, leading zeros included. -/
def fixedDigits (b n : Nat) : Nat → List Nat
  | 0 => []
  | k + 1 => n / b ^ k % b :: fixedDigits b n k

@[simp] theorem fixedDigits_length (b n k : Nat) : (fixedDigits b n k).length = k := by
  induction k with
  | zero => rfl
  | succ k ih => rw [fixedDigits, List.length_cons, ih]

theorem fixedDigits_lt (hb : 0 < b) (n k : Nat) : ∀ d ∈ fixedDigits b n k, d < b := by
  induction k with
  | zero => exact List.forall_mem_nil _
  | succ k ih => exact List.forall_mem_cons.mpr ⟨Nat.mod_lt _ hb, ih⟩

theorem numeralValue_fixedDigits (b n k : Nat) :
    numeralValue b (fixedDigits b n k) = n % b ^ k := by
  induction k with
  | zero => rw [Nat.pow_zero, Nat.mod_one]; rfl
  | succ k ih =>
      rw [fixedDigits, numeralValue_cons, fixedDigits_length, ih, Nat.mod_pow_succ, Nat.add_comm,
        Nat.mul_comm]

theorem suppress_fixedDigits (hb : 1 < b) (hk : 0 < k) (h : n < b ^ k) :
    suppress false (fixedDigits b n k) = numeral b n := by
  have hne : fixedDigits b n k ≠ [] := by
    rw [← List.length_pos_iff, fixedDigits_length]
    exact hk
  rw [suppress_eq hb hne (fixedDigits_lt (Nat.zero_lt_of_lt hb) n k), numeralValue_fixedDigits,
    Nat.mod_eq_of_lt h]

/-- The digit at the front of a register of `k + j + 1` digits, after the
number has been moved `j` digits to the front. -/
theorem front_digit (hb : 0 < b) (n j k : Nat) :
    n * b ^ j % b ^ (k + j + 1) / b ^ (k + j) = n / b ^ k % b := by
  have hj : 0 < b ^ j := Nat.pow_pos hb
  have h1 : b ^ (k + j + 1) = b ^ j * (b ^ k * b) := by ring
  have h2 : b ^ (k + j) = b ^ j * b ^ k := by ring
  rw [Nat.mul_comm n, h1, h2, Nat.mul_mod_mul_left, Nat.mul_div_mul_left _ _ hj,
    Nat.mod_mul_right_div_self]

end SpKernel.Lib
