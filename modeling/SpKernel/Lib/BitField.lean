import Mathlib

/-!
# Fields of bits

A field has a size and a position in a word. `place` masks a value and
moves it to the field, and `extract` moves it back and masks it; the
shift back may be the signed one, since the copies of the sign are masked
off. The bits of both are given one by one (`place_bit`, `extract_bit`),
and everything else follows from that.

What has been placed is extracted, modulo the size of the field
(`extract_place`, `and_mask_toNat`). Fields that have no bit in common do
not disturb each other: what is extracted from a word put together with
`or` is what is extracted from its parts (`extract_or`), and of another
field that is zero (`extract_place_other`).
-/

namespace SpKernel.Lib

/-- A field of bits. -/
structure BitField where
  size : Nat
  position : Nat

namespace BitField

variable {w : Nat} {f g : BitField} {mask x y : BitVec w}

/-- The bit `i` of the word is one of the field. -/
def Has (f : BitField) (i : Nat) : Prop := f.position ≤ i ∧ i < f.position + f.size

/-- The low bits, as many as the field has. -/
def IsMask (f : BitField) (mask : BitVec w) : Prop :=
  ∀ i < w, mask.getLsbD i = decide (i < f.size)

def place (f : BitField) (mask x : BitVec w) : BitVec w := (x &&& mask) <<< f.position

def extract (f : BitField) (mask x : BitVec w) : BitVec w := x.sshiftRight f.position &&& mask

theorem place_bit (hm : f.IsMask mask) {i : Nat} (hi : i < w) :
    (f.place mask x).getLsbD i = true ↔ f.Has i ∧ x.getLsbD (i - f.position) = true := by
  rw [place, BitVec.getLsbD_shiftLeft, BitVec.getLsbD_and, hm _ (by omega)]
  simp only [hi, decide_true, Bool.true_and, Bool.and_eq_true, Bool.not_eq_true',
    decide_eq_false_iff_not, decide_eq_true_eq, Has]
  constructor
  · rintro ⟨hlow, hx, hsize⟩
    exact ⟨⟨by omega, by omega⟩, hx⟩
  · rintro ⟨⟨hlow, hhigh⟩, hx⟩
    exact ⟨by omega, hx, by omega⟩

theorem extract_bit (hm : f.IsMask mask) (hfit : f.position + f.size ≤ w) {i : Nat} (hi : i < w) :
    (f.extract mask x).getLsbD i = true ↔ i < f.size ∧ x.getLsbD (f.position + i) = true := by
  rw [extract, BitVec.getLsbD_and, hm i hi, BitVec.getLsbD_sshiftRight, Bool.and_eq_true,
    decide_eq_true_eq]
  by_cases hsize : i < f.size
  · have hin : f.position + i < w := by omega
    simp [hsize, hin, hi]
  · simp [hsize]

theorem extract_or (f : BitField) (mask x y : BitVec w) (hm : f.IsMask mask)
    (hfit : f.position + f.size ≤ w) :
    f.extract mask (x ||| y) = f.extract mask x ||| f.extract mask y := by
  apply BitVec.eq_of_getLsbD_eq
  intro i hi
  rw [Bool.eq_iff_iff, extract_bit hm hfit hi, BitVec.getLsbD_or, BitVec.getLsbD_or,
    Bool.or_eq_true, Bool.or_eq_true, extract_bit hm hfit hi, extract_bit hm hfit hi,
    and_or_left]

theorem extract_place (hm : f.IsMask mask) (hfit : f.position + f.size ≤ w) :
    f.extract mask (f.place mask x) = x &&& mask := by
  apply BitVec.eq_of_getLsbD_eq
  intro i hi
  rw [Bool.eq_iff_iff, extract_bit hm hfit hi, BitVec.getLsbD_and, hm i hi, Bool.and_eq_true,
    decide_eq_true_eq, and_comm]
  refine and_congr_left fun hsize => ?_
  rw [place_bit hm (by omega), Nat.add_sub_cancel_left]
  exact and_iff_right ⟨Nat.le_add_right .., Nat.add_lt_add_left hsize _⟩

theorem extract_place_other {other : BitVec w} (hm : f.IsMask mask) (hg : g.IsMask other)
    (hfit : f.position + f.size ≤ w) (hdisjoint : ∀ i, f.Has i → ¬g.Has i) :
    f.extract mask (g.place other x) = 0#w := by
  apply BitVec.eq_of_getLsbD_eq
  intro i hi
  rw [Bool.eq_iff_iff, extract_bit hm hfit hi, BitVec.getLsbD_zero]
  refine iff_of_false ?_ (by simp)
  rintro ⟨hsize, hbit⟩
  rw [place_bit hg (by omega)] at hbit
  exact hdisjoint _ ⟨Nat.le_add_right .., Nat.add_lt_add_left hsize _⟩ hbit.1

theorem and_mask_toNat (hm : f.IsMask mask) : (x &&& mask).toNat = x.toNat % 2 ^ f.size := by
  apply Nat.eq_of_testBit_eq
  intro i
  rw [Nat.testBit_mod_two_pow]
  by_cases hi : i < w
  · rw [BitVec.testBit_toNat, BitVec.getLsbD_and, hm i hi, BitVec.testBit_toNat, Bool.and_comm]
  · have hx := BitVec.getLsbD_of_ge x i (Nat.le_of_not_lt hi)
    have hand := BitVec.getLsbD_of_ge (x &&& mask) i (Nat.le_of_not_lt hi)
    rw [BitVec.testBit_toNat, BitVec.testBit_toNat, hx, hand, Bool.and_false]

end BitField

end SpKernel.Lib
