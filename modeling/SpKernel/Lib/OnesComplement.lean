import Mathlib

/-!
# One's-complement sums

A one's-complement sum takes each carry out of the top of a word in again
at the bottom (`endAround`). Of a total only two things show in it: what
it is modulo `2 ^ w - 1`, and whether it is zero (`SameSum`); the two
words that are zero modulo `2 ^ w - 1` are told apart by the second. A
word with both is determined (`SameSum.eq_of_lt`), and so is the sum of a
list (`eq_onesSum`).

So the carries of a long sum can be taken in at any time
(`sameSum_foldCarry`), in whichever order the bytes of the words are read
(`SameSum.exchange`), and a list of words that holds the complement of
the sum of the others sums to all ones (`onesSum_complement`).

`SameSum` is compatible with sums and with multiplication on the left,
and a summand that is less than all ones can be cancelled
(`SameSum.add_left_cancel`). The word of all ones cannot: it is a zero
that does not show.
-/

namespace SpKernel.Lib

variable {w k m n : Nat}

/-- The carries out of `w` bits, taken in at the bottom. -/
def foldCarry (w n : Nat) : Nat := n % 2 ^ w + n / 2 ^ w

/-- Two totals with the same one's-complement sum. -/
structure SameSum (w m n : Nat) : Prop where
  modEq : m ≡ n [MOD 2 ^ w - 1]
  zero : m = 0 ↔ n = 0

theorem SameSum.refl (w n : Nat) : SameSum w n n := ⟨.rfl, .rfl⟩

theorem SameSum.symm (h : SameSum w m n) : SameSum w n m := ⟨h.modEq.symm, h.zero.symm⟩

theorem SameSum.trans (h : SameSum w m n) (h' : SameSum w n k) : SameSum w m k :=
  ⟨h.modEq.trans h'.modEq, h.zero.trans h'.zero⟩

theorem SameSum.add (h : SameSum w m n) {m' n' : Nat} (h' : SameSum w m' n') :
    SameSum w (m + m') (n + n') := by
  refine ⟨h.modEq.add h'.modEq, ?_⟩
  rw [Nat.add_eq_zero_iff, Nat.add_eq_zero_iff, h.zero, h'.zero]

theorem SameSum.mul_left (h : SameSum w m n) (k : Nat) : SameSum w (k * m) (k * n) := by
  refine ⟨h.modEq.mul_left k, ?_⟩
  rw [Nat.mul_eq_zero, Nat.mul_eq_zero, h.zero]

/-- A carry counts as much at the bottom as at the top. -/
theorem modEq_carry (w n : Nat) : 2 ^ w * n ≡ n [MOD 2 ^ w - 1] := by
  have hpow : 2 ^ w ≡ 1 [MOD 2 ^ w - 1] := by
    have h := Nat.ModEq.add_right 1 (Nat.modEq_zero_iff_dvd.mpr (dvd_refl (2 ^ w - 1)))
    rwa [Nat.sub_add_cancel Nat.one_le_two_pow, Nat.zero_add] at h
  simpa using hpow.mul_right n

theorem sameSum_foldCarry (w n : Nat) : SameSum w (foldCarry w n) n := by
  have hdiv := Nat.mod_add_div n (2 ^ w)
  refine ⟨?_, ?_⟩
  · calc foldCarry w n ≡ n % 2 ^ w + 2 ^ w * (n / 2 ^ w) [MOD 2 ^ w - 1] :=
          (modEq_carry w (n / 2 ^ w)).symm.add_left _
      _ = n := hdiv
  · rw [foldCarry, Nat.add_eq_zero_iff]
    constructor
    · rintro ⟨hmod, hquot⟩
      rw [← hdiv, hmod, hquot, Nat.mul_zero]
    · rintro rfl
      exact ⟨Nat.zero_mod _, Nat.zero_div _⟩

/-- A word with its halves exchanged is the word shifted by one half. -/
theorem SameSum.exchange (k a b : Nat) :
    SameSum (k + k) (2 ^ k * (2 ^ k * a + b)) (2 ^ k * b + a) := by
  have he : 2 ^ k * (2 ^ k * a + b) = 2 ^ k * b + 2 ^ (k + k) * a := by
    rw [pow_add]
    ring
  rw [he]
  refine ⟨(modEq_carry (k + k) a).add_left _, ?_⟩
  simp

theorem SameSum.eq_of_lt (h : SameSum w m n) (hm : m < 2 ^ w) (hn : n < 2 ^ w) : m = n := by
  rcases Nat.eq_zero_or_pos m with h0 | hpos
  · rw [h0, h.zero.mp h0]
  · have hpos' : 0 < n := Nat.pos_of_ne_zero fun h0 => hpos.ne' (h.zero.mpr h0)
    -- both are among `1 .. 2 ^ w - 1`, so their predecessors are residues
    have hpred : m - 1 ≡ n - 1 [MOD 2 ^ w - 1] := by
      refine Nat.ModEq.add_right_cancel' 1 ?_
      rw [Nat.sub_add_cancel hpos, Nat.sub_add_cancel hpos']
      exact h.modEq
    have := hpred.eq_of_lt_of_lt (by omega) (by omega)
    omega

/-- What is less than all ones shows in every total that it is added to. -/
theorem SameSum.add_left_cancel (h : SameSum w (k + m) (k + n)) (hm : m < 2 ^ w - 1)
    (hn : n < 2 ^ w - 1) : m = n :=
  (Nat.ModEq.add_left_cancel' k h.modEq).eq_of_lt_of_lt hm hn

theorem SameSum.allOnes (hw : 0 < w) (hk : 0 < k) (h : SameSum w (k * m) n)
    (hm : SameSum w m (2 ^ w - 1)) : SameSum w n (2 ^ w - 1) := by
  have hone : 2 ^ w - 1 ≠ 0 := by
    have := Nat.one_lt_two_pow hw.ne'
    omega
  have hmul : SameSum w (k * (2 ^ w - 1)) (2 ^ w - 1) := by
    refine ⟨?_, by simp [hone, hk.ne']⟩
    exact (Nat.modEq_zero_iff_dvd.mpr (Dvd.intro_left k rfl)).trans
      (Nat.modEq_zero_iff_dvd.mpr dvd_rfl).symm
  exact h.symm.trans ((hm.mul_left k).trans hmul)

/-! ## Folding -/

theorem foldCarry_lt (hw : 0 < w) (h : 2 ^ w ≤ n) : foldCarry w n < n := by
  have hdiv := Nat.mod_add_div n (2 ^ w)
  have hq : 0 < n / 2 ^ w := Nat.div_pos h (by positivity)
  have htwo : 2 ≤ 2 ^ w := by
    have := Nat.one_lt_two_pow hw.ne'
    omega
  have := Nat.mul_le_mul_right (n / 2 ^ w) htwo
  rw [foldCarry]
  omega

/-! ## Sums of words -/

/-- Addition with end-around carry. -/
def endAround (x y : BitVec w) : BitVec w := BitVec.ofNat w (foldCarry w (x.toNat + y.toNat))

/-- The one's-complement sum. -/
def onesSum (ws : List (BitVec w)) : BitVec w := ws.foldl endAround 0

/-- The sum, without a bound. -/
def total (ws : List (BitVec w)) : Nat := (ws.map BitVec.toNat).sum

@[simp] theorem total_nil : total ([] : List (BitVec w)) = 0 := rfl

@[simp] theorem total_cons (x : BitVec w) (ws : List (BitVec w)) :
    total (x :: ws) = x.toNat + total ws := by
  rw [total, List.map_cons, List.sum_cons]
  rfl

@[simp] theorem total_append (ws ws' : List (BitVec w)) :
    total (ws ++ ws') = total ws + total ws' := by
  rw [total, List.map_append, List.sum_append]
  rfl

theorem toNat_endAround (x y : BitVec w) :
    (endAround x y).toNat = foldCarry w (x.toNat + y.toNat) := by
  rw [endAround, BitVec.toNat_ofNat]
  refine Nat.mod_eq_of_lt ?_
  have hx := x.isLt
  have hy := y.isLt
  rcases Nat.lt_or_ge (x.toNat + y.toNat) (2 ^ w) with h | h
  · rw [foldCarry, Nat.mod_eq_of_lt h, Nat.div_eq_of_lt h]
    exact h
  · have hquot : (x.toNat + y.toNat) / 2 ^ w = 1 := Nat.div_eq_of_lt_le (by omega) (by omega)
    rw [foldCarry, Nat.mod_eq_sub_mod h, Nat.mod_eq_of_lt (by omega), hquot]
    omega

theorem sameSum_foldl (ws : List (BitVec w)) (x : BitVec w) :
    SameSum w (ws.foldl endAround x).toNat (x.toNat + total ws) := by
  induction ws generalizing x with
  | nil => exact .refl w _
  | cons y ws ih =>
      rw [List.foldl_cons, total_cons, ← Nat.add_assoc]
      refine (ih (endAround x y)).trans (.add ?_ (.refl w _))
      rw [toNat_endAround]
      exact sameSum_foldCarry w _

theorem sameSum_onesSum (ws : List (BitVec w)) : SameSum w (onesSum ws).toNat (total ws) := by
  have h := sameSum_foldl ws 0
  rwa [BitVec.ofNat_eq_ofNat, BitVec.toNat_zero, Nat.zero_add] at h

/-- Whatever word has the residue and the zero of the total is the sum. -/
theorem eq_onesSum {x : BitVec w} {ws : List (BitVec w)} (h : SameSum w x.toNat (total ws)) :
    x = onesSum ws :=
  BitVec.eq_of_toNat_eq ((h.trans (sameSum_onesSum ws).symm).eq_of_lt x.isLt (onesSum ws).isLt)

theorem onesSum_eq_onesSum {ws ws' : List (BitVec w)} :
    onesSum ws = onesSum ws' ↔ SameSum w (total ws) (total ws') := by
  constructor
  · intro h
    exact (sameSum_onesSum ws).symm.trans (h ▸ sameSum_onesSum ws')
  · exact fun h => eq_onesSum ((sameSum_onesSum ws).trans h)

theorem onesSum_eq_allOnes {ws : List (BitVec w)} :
    onesSum ws = BitVec.allOnes w ↔ SameSum w (total ws) (2 ^ w - 1) := by
  rw [← BitVec.toNat_allOnes]
  constructor
  · intro h
    rw [← h]
    exact (sameSum_onesSum ws).symm
  · exact fun h => (eq_onesSum h.symm).symm

/-- With the complement of its sum in the place of a zero, a list sums to all
ones. -/
theorem onesSum_complement (front rest : List (BitVec w)) :
    onesSum (front ++ ~~~onesSum (front ++ 0 :: rest) :: rest) = BitVec.allOnes w := by
  have hsum := sameSum_onesSum (front ++ 0 :: rest)
  generalize onesSum (front ++ 0 :: rest) = s at hsum ⊢
  have hadd : s.toNat + (~~~s).toNat = 2 ^ w - 1 := by
    rw [BitVec.toNat_not]
    have := s.isLt
    omega
  rw [onesSum_eq_allOnes, ← hadd]
  have htotal : total (front ++ ~~~s :: rest)
      = total (front ++ (0 : BitVec w) :: rest) + (~~~s).toNat := by
    simp only [total_append, total_cons, BitVec.ofNat_eq_ofNat, BitVec.toNat_zero]
    omega
  rw [htotal]
  exact hsum.symm.add (.refl w _)

end SpKernel.Lib
