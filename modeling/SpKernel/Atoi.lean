import SpKernel.NumberFormats
import SpKernel.RawFs

/-!
# `atoi`

The `switch` of `atoi` has no case for `'0'`, and what has been read so
far is multiplied by ten for each digit read, not by ten (`misread`).
Numbers of two digits that are not zero come out right; of those with
more digits none does (`atoi_inverts_iff`), though from five digits on
the product overflows.

That none comes out right by overflow is seen from the end: the last
three digits determine the number up to a few candidates, since all
digits before them are multiplied by a power of ten that is large enough
to vanish modulo a power of two (`misread_front`, `ReadsRight.modEq`).
The candidates are all those that `candidate` lists
(`ReadsRight.is_candidate`), and each of them is refuted by its size
(`none_fits`). Numbers of three and four digits do not overflow and are
compared directly (`misread_ne_of_length`).

`atoi` reads memory, and `cvt_dec` writes it. `cvtDec_string` says that
the one leaves the string that the other reads, and `atoi_string` that
what `atoi` makes of a string is a function of its characters
(`atoiValue`). A character that is no digit from 1 to 9 makes the whole
string no number (`atoiCall_other`).
-/

namespace SpKernel

open Lib

/-- `atoi`: the result, and memory. -/
def atoiCall (m : Mem) (str value : Word) : Except Fault (Int × Mem) := do
  match ← atoi m str with
  | none => .ok (-1, m)
  | some accumulator => .ok (0, store 4 m value accumulator)

/-- `atoi` reads the number that `cvt_dec` has printed. -/
def AtoiInverts (m : Mem) (buf value n : Word) : Prop :=
  atoiCall (cvtDec m buf n).1 buf value = .ok (0, store 4 (cvtDec m buf n).1 value n)

/-! ## Strings -/

/-- What the loop makes of a string; none if a character has no case. -/
def atoiValue : Word → Word → List Byte → Option Word
  | _, accumulator, [] => some accumulator
  | multiplier, accumulator, c :: s =>
      (digitValue c).bind fun toAdd =>
        atoiValue (multiplier * 10) (accumulator * multiplier + toAdd) s

variable {m : Mem}

theorem atoiLoop_string : ∀ {s : List Byte} {a multiplier accumulator : Word} {fuel : Nat},
    IsString m a s → s.length < fuel →
    atoiLoop m fuel a multiplier accumulator = .ok (atoiValue multiplier accumulator s)
  | _, _, _, _, 0, _, hf => absurd hf (Nat.not_lt_zero _)
  | [], a, _, _, fuel + 1, hs, _ => by
      have hend : m a = 0 := hs
      rw [atoiLoop, if_neg (not_not.mpr hend), atoiValue]
  | c :: s, a, multiplier, accumulator, fuel + 1, hs, hf => by
      have hne : m a ≠ 0 := hs.1 ▸ hs.2.1
      rw [atoiLoop, if_pos hne, hs.1, atoiValue]
      cases digitValue c with
      | none => rfl
      | some toAdd => exact atoiLoop_string hs.2.2 (Nat.lt_of_succ_lt_succ hf)

theorem atoi_string {str : Word} {s : List Byte} (hs : IsString m str s) :
    atoi m str = .ok (atoiValue 1 0 s) :=
  atoiLoop_string hs hs.length_lt

theorem atoiValue_snoc (c : Byte) : ∀ (s : List Byte) (multiplier accumulator : Word),
    atoiValue multiplier accumulator (s ++ [c])
      = (atoiValue multiplier accumulator s).bind fun front =>
          (digitValue c).map fun toAdd => front * (multiplier * 10 ^ s.length) + toAdd
  | [], multiplier, accumulator => by
      rw [List.nil_append, atoiValue, atoiValue, Option.bind_some, List.length_nil, pow_zero,
        mul_one]
      cases digitValue c <;> rfl
  | b :: s, multiplier, accumulator => by
      have hpow : multiplier * 10 * 10 ^ s.length = multiplier * 10 ^ (s.length + 1) := by
        rw [mul_assoc, ← pow_succ']
      rw [List.cons_append, atoiValue, atoiValue, List.length_cons, Option.bind_assoc]
      refine congrArg _ (funext fun toAdd => ?_)
      rw [atoiValue_snoc c s, hpow]

/-! ## Digits -/

/-- What `atoi` makes of digits, of which the last is first here. -/
def misread : List Nat → Nat
  | [] => 0
  | d :: ds => misread ds * 10 ^ ds.length + d

theorem digitValue_hexDigit {d : Nat} (hd : d < 10) :
    digitValue (hexDigit d) = if d = 0 then none else some (BitVec.ofNat 32 d) := by
  have hall : ∀ d < 10,
      digitValue (hexDigit d) = if d = 0 then none else some (BitVec.ofNat 32 d) := by decide
  exact hall d hd

theorem atoiValue_digits : ∀ {ds : List Nat}, (∀ d ∈ ds, d < 10) →
    atoiValue 1 0 (digitChars ds.reverse)
      = if 0 ∈ ds then none else some (BitVec.ofNat 32 (misread ds))
  | [], _ => rfl
  | d :: ds, hds => by
      obtain ⟨hd, hds⟩ := List.forall_mem_cons.mp hds
      have hlast : digitChars (d :: ds).reverse = digitChars ds.reverse ++ [hexDigit d] := by
        rw [List.reverse_cons, digitChars, List.map_append]
        rfl
      have hlen : (digitChars ds.reverse).length = ds.length := by
        rw [digitChars, List.length_map, List.length_reverse]
      have hsum : BitVec.ofNat 32 (misread ds) * (1 * 10 ^ ds.length) + BitVec.ofNat 32 d
          = BitVec.ofNat 32 (misread (d :: ds)) := by
        rw [misread, BitVec.ofNat_add, BitVec.ofNat_mul, BitVec.ofNat_pow, one_mul]
        rfl
      rw [hlast, atoiValue_snoc, atoiValue_digits hds, hlen, digitValue_hexDigit hd]
      by_cases h0 : d = 0
      · simp [h0]
      · by_cases hmem : 0 ∈ ds
        · simp [hmem]
        · have hnone : 0 ∉ d :: ds := by simp [hmem, Ne.symm h0]
          rw [if_neg hmem, if_neg h0, if_neg hnone, Option.bind_some, Option.map_some, hsum]

/-! ## What is misread -/

/-- The last `k` digits of a number, the last one first. -/
def lowDigits : Nat → Nat → List Nat
  | 0, _ => []
  | k + 1, n => n % 10 :: lowDigits k (n / 10)

theorem lowDigits_ofDigits : ∀ {ds : List Nat}, (∀ d ∈ ds, d < 10) →
    lowDigits ds.length (Nat.ofDigits 10 ds) = ds
  | [], _ => rfl
  | d :: ds, hds => by
      obtain ⟨hd, hds⟩ := List.forall_mem_cons.mp hds
      have hmod : (d + 10 * Nat.ofDigits 10 ds) % 10 = d := by omega
      have hdiv : (d + 10 * Nat.ofDigits 10 ds) / 10 = Nat.ofDigits 10 ds := by omega
      rw [List.length_cons, lowDigits, Nat.ofDigits_cons, hmod, hdiv, lowDigits_ofDigits hds]

/-- What the last three digits contribute to a tenth of `misread`, when there are
`k` digits in front of them and one behind. -/
def contribution (k l : Nat) : Nat :=
  l / 100 * 10 ^ (3 * k + 5) + l / 10 % 10 * 10 ^ (2 * k + 4) + l % 10 * 10 ^ (k + 2)

/-- The numbers that agree with it as far as the digits in front do not matter. -/
def candidate (k l t : Nat) : Nat :=
  contribution k l % 2 ^ (4 * k + 5) + t * 2 ^ (4 * k + 5)

/-- The number `q`, of `k + 3` digits of which the last three are `l`, comes out right
with any further digit. -/
structure ReadsRight (k l q : Nat) : Prop where
  last : q % 1000 = l
  digits : q < 10 ^ (k + 3)
  bound : q ≤ 214748364
  nonzero : 0 ∉ lowDigits (k + 3) q
  right : misread (lowDigits (k + 3) q) * 10 ^ (k + 3) % 2 ^ 32 = 10 * q % 2 ^ 32

instance (k l q : Nat) : Decidable (ReadsRight k l q) :=
  decidable_of_iff (q % 1000 = l ∧ q < 10 ^ (k + 3) ∧ q ≤ 214748364 ∧ 0 ∉ lowDigits (k + 3) q
      ∧ misread (lowDigits (k + 3) q) * 10 ^ (k + 3) % 2 ^ 32 = 10 * q % 2 ^ 32)
    ⟨fun h => ⟨h.1, h.2.1, h.2.2.1, h.2.2.2.1, h.2.2.2.2⟩, fun h => ⟨h.1, h.2, h.3, h.4, h.5⟩⟩

theorem none_fits : ∀ k < 7, 0 < k → ∀ j < 125, ∀ t ≤ 10 ^ (k + 3) / 2 ^ (4 * k + 5),
    ¬ReadsRight k (8 * j) (candidate k (8 * j) t) := by
  decide +kernel

section Candidates

variable {k d e f : Nat} {ds : List Nat}

theorem lowDigits_eq (hlen : ds.length = k) (hds : ∀ x ∈ d :: e :: f :: ds, x < 10) :
    lowDigits (k + 3) (Nat.ofDigits 10 (d :: e :: f :: ds)) = d :: e :: f :: ds := by
  have hcount : (d :: e :: f :: ds).length = k + 3 := by
    rw [List.length_cons, List.length_cons, List.length_cons, hlen]
  rw [← hcount]
  exact lowDigits_ofDigits hds

/-- All but the last three digits are multiplied by more tens than fit. -/
theorem misread_front (hlen : ds.length = k) (hd : d < 10) (he : e < 10) :
    misread (d :: e :: f :: ds) * 10 ^ (k + 3)
      = misread ds * 10 ^ (4 * k + 6) + 10 * contribution k (d + 10 * e + 100 * f) := by
  have hl2 : (d + 10 * e + 100 * f) / 100 = f := by omega
  have hl1 : (d + 10 * e + 100 * f) / 10 % 10 = e := by omega
  have hl0 : (d + 10 * e + 100 * f) % 10 = d := by omega
  rw [contribution, hl2, hl1, hl0]
  simp only [misread, List.length_cons, hlen]
  ring

/-- So modulo a power of two the number is what the last three digits say. -/
theorem ReadsRight.modEq {l : Nat} (hlen : ds.length = k)
    (hds : ∀ x ∈ d :: e :: f :: ds, x < 10) (hk : 0 < k) (hk7 : k < 7)
    (hl : l = d + 10 * e + 100 * f)
    (h : ReadsRight k l (Nat.ofDigits 10 (d :: e :: f :: ds))) :
    contribution k l ≡ Nat.ofDigits 10 (d :: e :: f :: ds) [MOD 2 ^ (4 * k + 5)] := by
  obtain ⟨hd, hds'⟩ := List.forall_mem_cons.mp hds
  obtain ⟨he, -⟩ := List.forall_mem_cons.mp hds'
  have hright := h.right
  rw [lowDigits_eq hlen hds, misread_front hlen hd he, ← hl] at hright
  have hdvd : 2 ^ (4 * k + 6) ∣ 2 ^ 32 := Nat.pow_dvd_pow 2 (by omega)
  have hfront : misread ds * 10 ^ (4 * k + 6) ≡ 0 [MOD 2 ^ (4 * k + 6)] :=
    (Nat.modEq_zero_iff_dvd).mpr ((pow_dvd_pow_of_dvd (by decide) _).mul_left _)
  have hten : 10 * contribution k l ≡ 10 * Nat.ofDigits 10 (d :: e :: f :: ds)
      [MOD 2 ^ (4 * k + 6)] := by
    have hall := Nat.ModEq.of_dvd hdvd hright
    have hzero := (hfront.add_right (10 * contribution k l)).symm.trans hall
    rwa [Nat.zero_add] at hzero
  have htwo : 2 ^ (4 * k + 6) = 2 * 2 ^ (4 * k + 5) := by rw [← pow_succ']
  rw [htwo, show 10 = 2 * 5 from rfl, Nat.mul_assoc, Nat.mul_assoc] at hten
  refine Nat.ModEq.cancel_left_of_coprime ?_ (Nat.ModEq.mul_left_cancel' (by decide) hten)
  exact Nat.Coprime.pow_left _ (by decide)

theorem eight_dvd_contribution (hk : 0 < k) (l : Nat) : 8 ∣ contribution k l := by
  have hpow : ∀ j, 3 ≤ j → 8 ∣ 10 ^ j := fun j hj =>
    Dvd.dvd.trans (by decide : 8 ∣ 10 ^ 3) (pow_dvd_pow 10 hj)
  refine Nat.dvd_add (Nat.dvd_add ?_ ?_) ?_
  · exact (hpow _ (by omega)).mul_left _
  · exact (hpow _ (by omega)).mul_left _
  · exact (hpow _ (by omega)).mul_left _

theorem ReadsRight.is_candidate {l : Nat} (hlen : ds.length = k)
    (hds : ∀ x ∈ d :: e :: f :: ds, x < 10) (hk : 0 < k) (hk7 : k < 7)
    (hl : l = d + 10 * e + 100 * f)
    (h : ReadsRight k l (Nat.ofDigits 10 (d :: e :: f :: ds))) :
    8 ∣ l ∧ ∃ t ≤ 10 ^ (k + 3) / 2 ^ (4 * k + 5),
      Nat.ofDigits 10 (d :: e :: f :: ds) = candidate k l t := by
  have hmod := h.modEq hlen hds hk hk7 hl
  have hlast := h.last
  have hdigits := h.digits
  generalize Nat.ofDigits 10 (d :: e :: f :: ds) = q at hmod hlast hdigits ⊢
  constructor
  · have h8 : 2 ^ 3 ∣ 2 ^ (4 * k + 5) := Nat.pow_dvd_pow 2 (by omega)
    have hq : 8 ∣ q :=
      (Nat.ModEq.dvd_iff (Nat.ModEq.of_dvd h8 hmod) (Nat.dvd_refl _)).mp
        (eight_dvd_contribution hk l)
    omega
  · refine ⟨q / 2 ^ (4 * k + 5), Nat.div_le_div_right hdigits.le, ?_⟩
    rw [candidate, hmod]
    exact (Nat.mod_add_div' q _).symm

theorem pow_le_ofDigits {ds : List Nat} (h : 0 ∉ ds) (hne : ds ≠ []) :
    10 ^ (ds.length - 1) ≤ Nat.ofDigits 10 ds := by
  induction ds with
  | nil => exact absurd rfl hne
  | cons d ds ih =>
      cases ds with
      | nil =>
          rw [List.mem_singleton] at h
          rw [Nat.ofDigits_singleton]
          exact Nat.pos_of_ne_zero (Ne.symm h)
      | cons e ds =>
          have hrest := ih (fun hmem => h (List.mem_cons_of_mem _ hmem)) (List.cons_ne_nil _ _)
          rw [List.length_cons, Nat.add_sub_cancel] at hrest ⊢
          rw [Nat.ofDigits_cons, List.length_cons, pow_succ]
          omega

theorem misread_ne_of_length {r : Nat} (hlen : ds.length = k)
    (hds : ∀ x ∈ r :: d :: e :: f :: ds, x < 10) (hne : 0 ∉ r :: d :: e :: f :: ds) (hk : 0 < k)
    (hlt : Nat.ofDigits 10 (r :: d :: e :: f :: ds) < 2 ^ 31) :
    misread (r :: d :: e :: f :: ds) % 2 ^ 32 ≠ Nat.ofDigits 10 (r :: d :: e :: f :: ds) := by
  intro heq
  have hds' : ∀ x ∈ d :: e :: f :: ds, x < 10 := fun x hx => hds x (List.mem_cons_of_mem _ hx)
  have hcount : (d :: e :: f :: ds).length = k + 3 := by
    rw [List.length_cons, List.length_cons, List.length_cons, hlen]
  have hk7 : k < 7 := by
    have hge := (pow_le_ofDigits hne (List.cons_ne_nil _ _)).trans_lt hlt
    rw [List.length_cons, Nat.add_sub_cancel, hcount] at hge
    by_contra hbig
    have hmono : 10 ^ 10 ≤ 10 ^ (k + 3) := Nat.pow_le_pow_right (by decide) (by omega)
    omega
  have hlow := lowDigits_eq hlen hds'
  have hpow := Nat.ofDigits_lt_base_pow_length (by decide : 1 < 10) hds'
  rw [Nat.ofDigits_cons] at heq hlt
  rw [misread, hcount] at heq
  rw [hcount] at hpow
  have hright : ReadsRight k (d + 10 * e + 100 * f) (Nat.ofDigits 10 (d :: e :: f :: ds)) := by
    refine ⟨?_, hpow, ?_, ?_, ?_⟩
    · have hd := hds d (by simp)
      have he := hds e (by simp)
      have hf := hds f (by simp)
      rw [Nat.ofDigits_cons, Nat.ofDigits_cons, Nat.ofDigits_cons]
      omega
    · omega
    · rw [hlow]
      exact fun hmem => hne (List.mem_cons_of_mem _ hmem)
    · rw [hlow]
      omega
  obtain ⟨⟨j, hj⟩, t, ht, hcand⟩ := hright.is_candidate hlen hds' hk hk7 rfl
  have hd := hds d (by simp)
  have he := hds e (by simp)
  have hf := hds f (by simp)
  rw [hcand, hj] at hright
  exact none_fits k hk7 hk j (by omega) t ht hright

end Candidates

theorem misread_eq_iff : ∀ {ds : List Nat}, (∀ d ∈ ds, d < 10) → 0 ∉ ds → ds ≠ [] →
    Nat.ofDigits 10 ds < 2 ^ 31 →
    (misread ds % 2 ^ 32 = Nat.ofDigits 10 ds ↔ ds.length ≤ 2)
  | [], _, _, h, _ => absurd rfl h
  | [a], _, _, _, hlt => by
      rw [Nat.ofDigits_singleton] at hlt ⊢
      simp [misread]
      omega
  | [a, b], hds, _, _, hlt => by
      have ha := hds a (by simp)
      have hb := hds b (by simp)
      simp [misread, Nat.ofDigits_cons]
      omega
  | [a, b, c], hds, h0, _, _ => by
      have ha := hds a (by simp)
      have hb := hds b (by simp)
      have hc := hds c (by simp)
      have hc0 : c ≠ 0 := fun h => h0 (by simp [h])
      have hlt : misread [a, b, c] < 2 ^ 32 := by
        simp [misread]
        omega
      rw [Nat.mod_eq_of_lt hlt]
      simp [misread, Nat.ofDigits_cons]
      omega
  | [a, b, c, d], hds, h0, _, _ => by
      have ha := hds a (by simp)
      have hb := hds b (by simp)
      have hc := hds c (by simp)
      have hd := hds d (by simp)
      have hd0 : d ≠ 0 := fun h => h0 (by simp [h])
      have hlt : misread [a, b, c, d] < 2 ^ 32 := by
        simp [misread]
        omega
      rw [Nat.mod_eq_of_lt hlt]
      simp [misread, Nat.ofDigits_cons]
      omega
  | r :: d :: e :: f :: g :: ds, hds, h0, _, hlt => by
      refine iff_of_false (misread_ne_of_length rfl hds h0 (Nat.succ_pos _) hlt) ?_
      simp

/-! ## Numerals in memory -/

/-- The characters of a numeral are none of them a NUL. -/
theorem digitChars_ne_zero {ds : List Nat} (hds : ∀ d ∈ ds, d < 10) :
    ∀ c ∈ digitChars ds, c ≠ 0 := by
  have hall : ∀ d < 10, hexDigit d ≠ 0 := by decide
  intro c hc
  obtain ⟨d, hd, rfl⟩ := List.mem_map.mp hc
  exact hall d (hds d hd)

theorem cvtDec_string (m : Mem) (buf : Word) {n : Word} (hn : n.toNat < 2 ^ 31) :
    IsString (cvtDec m buf n).1 buf (digitChars (numeral 10 n.toNat)) := by
  have hval : n.toInt = n.toNat := by
    rw [BitVec.toInt_eq_toNat_cond]
    omega
  have hneg : ¬n.slt 0 := by
    rw [BitVec.slt_iff_toInt_lt, hval]
    exact not_lt.mpr (Int.natCast_nonneg _)
  have hstored : (cvtDec m buf n).1
      = storeBytes m buf (digitChars (numeral 10 n.toNat) ++ [0]) := by
    have hspec := cvtdec_spec m buf n
    rw [StoresText, decimal, if_neg hneg, List.nil_append, hval, Int.natAbs_natCast] at hspec
    rw [cvtDec_eq, hspec]
  have hcan := canonical_numeral (by decide : 1 < 10) n.toNat
  have hlen : (digitChars (numeral 10 n.toNat)).length ≤ 10 := by
    rw [digitChars, List.length_map]
    exact length_numeral_le (by decide) (by decide) (by omega)
  rw [hstored]
  exact IsString.of_stored (digitChars_ne_zero hcan.digit) (by omega)

/-! ## The result -/

/-- A decimal digit. -/
def IsDecimal (c : Byte) : Prop := 0x30 ≤ c ∧ c ≤ 0x39

theorem digitValue_of_not_decimal {c : Byte} (h : ¬IsDecimal c) : digitValue c = none := by
  refine if_neg fun hc => h ⟨?_, hc.2⟩
  exact BitVec.le_trans (by decide : (0x30 : Byte) ≤ 0x31) hc.1

theorem atoiCall_other {s : List Byte} {str : Word} (value : Word) (hs : IsString m str s)
    (hc : ∃ c ∈ s, ¬IsDecimal c) : atoiCall m str value = .ok (-1, m) := by
  obtain ⟨c, hmem, hc⟩ := hc
  have hnone : atoi m str = .ok none :=
    atoiLoop_none s (fun i hi => (hs.get i hi).1) hs.ne_zero
      ⟨c, hmem, digitValue_of_not_decimal hc⟩ hs.length_lt
  rw [atoiCall, hnone, ok_bind]

theorem atoiCall_zero {buf value n : Word} (h0 : n.toNat = 0) :
    atoiCall (cvtDec m buf n).1 buf value = .ok (-1, (cvtDec m buf n).1) := by
  have hs := cvtDec_string m buf (n := n) (by omega)
  have hnum : numeral 10 n.toNat = [0] := if_pos h0
  rw [hnum] at hs
  rw [atoiCall, atoi_string hs, ok_bind]
  rfl

theorem atoiCall_numeral {buf value n : Word} (hn : n.toNat < 2 ^ 31) (h0 : n.toNat ≠ 0) :
    atoiCall (cvtDec m buf n).1 buf value
      = if 0 ∈ Nat.digits 10 n.toNat then .ok (-1, (cvtDec m buf n).1)
        else .ok (0, store 4 (cvtDec m buf n).1 value
          (BitVec.ofNat 32 (misread (Nat.digits 10 n.toNat)))) := by
  have hds : ∀ d ∈ Nat.digits 10 n.toNat, d < 10 := fun d hd =>
    Nat.digits_lt_base (by decide) hd
  have hnum : numeral 10 n.toNat = (Nat.digits 10 n.toNat).reverse := if_neg h0
  rw [atoiCall, atoi_string (cvtDec_string m buf hn), ok_bind, hnum, atoiValue_digits hds]
  by_cases hz : 0 ∈ Nat.digits 10 n.toNat
  · rw [if_pos hz, if_pos hz]
  · rw [if_neg hz, if_neg hz]

theorem digits_short_iff {n : Nat} (h0 : n ≠ 0) :
    0 ∉ Nat.digits 10 n ∧ (Nat.digits 10 n).length ≤ 2 ↔ n < 100 ∧ n % 10 ≠ 0 := by
  rw [Nat.digits_length_le_iff (by decide : 1 < 10) n, and_comm]
  refine and_congr_right fun hn => ?_
  by_cases h10 : n < 10
  · rw [Nat.digits_of_lt 10 n h0 h10, List.mem_singleton, Nat.mod_eq_of_lt h10]
    exact not_congr eq_comm
  · rw [Nat.digits_def' (by decide) (Nat.pos_of_ne_zero h0),
      Nat.digits_of_lt 10 (n / 10) (by omega) (by omega)]
    simp only [List.mem_cons, List.not_mem_nil, or_false]
    omega

theorem atoiInverts_iff_short {buf value n : Word} (hn : n.toNat < 2 ^ 31) :
    AtoiInverts m buf value n ↔ n.toNat < 100 ∧ n.toNat % 10 ≠ 0 := by
  have hfail : ∀ {x : Except Fault (Int × Mem)} {m' : Mem}, x = .ok (-1, m') →
      x ≠ .ok (0, store 4 m' value n) := by
    intro x m' hx he
    have hresult : (-1 : Int) = 0 := (Prod.mk.inj (Except.ok.inj (hx.symm.trans he))).1
    exact absurd hresult (by decide)
  rw [AtoiInverts]
  by_cases h0 : n.toNat = 0
  · refine iff_of_false (hfail (atoiCall_zero h0)) fun h => h.2 (by rw [h0])
  · rw [← digits_short_iff h0, atoiCall_numeral hn h0]
    by_cases hz : 0 ∈ Nat.digits 10 n.toNat
    · rw [if_pos hz]
      exact iff_of_false (hfail rfl) fun h => h.1 hz
    · have hds : ∀ d ∈ Nat.digits 10 n.toNat, d < 10 := fun d hd =>
        Nat.digits_lt_base (by decide) hd
      have hvalue := Nat.ofDigits_digits 10 n.toNat
      have hshort := misread_eq_iff hds hz (Nat.digits_ne_nil_iff_ne_zero.mpr h0)
        (by rw [hvalue]; exact hn)
      rw [if_neg hz, and_iff_right hz, ← hshort, hvalue]
      constructor
      · intro h
        have hmem := (Prod.mk.inj (Except.ok.inj h)).2
        have hload := congrArg (load32 · value) hmem
        simp only [load32_store] at hload
        have hnat := congrArg BitVec.toNat hload
        rwa [BitVec.toNat_ofNat] at hnat
      · intro h
        have hsame : BitVec.ofNat 32 (misread (Nat.digits 10 n.toNat)) = n :=
          BitVec.eq_of_toNat_eq (by rw [BitVec.toNat_ofNat, h])
        rw [hsame]

/-- `atoi` reads back what `cvt_dec` has printed exactly if these are one or
two digits of which none is zero. What is no number is refused, and nothing
is stored then. -/
theorem atoi_inverts_iff (m : Mem) (value : Word) :
    (∀ buf n : Word, n.toNat < 2 ^ 31 →
      (AtoiInverts m buf value n ↔ n.toNat < 100 ∧ n.toNat % 10 ≠ 0))
    ∧ ∀ (str : Word) (s : List Byte), IsString m str s →
      (∃ c ∈ s, ¬IsDecimal c) → atoiCall m str value = .ok (-1, m) :=
  ⟨fun _ _ hn => atoiInverts_iff_short hn, fun _ _ hs hc => atoiCall_other value hs hc⟩

/-- 42 comes out right, and `*` does not. -/
theorem atoi_inverts_two : AtoiInverts (fun _ => 0) 0x1000 0x2000 42
    ∧ atoiCall (fun a => if a = 0x1000 then 0x2A else 0) 0x1000 0x2000
      = .ok (-1, fun a => if a = 0x1000 then 0x2A else 0) :=
  ⟨((atoi_inverts_iff _ _).1 _ 42 (by decide)).mpr (by decide),
    (atoi_inverts_iff _ _).2 _ [0x2A] (by decide) ⟨0x2A, by simp, by unfold IsDecimal; decide⟩⟩

/-- 123 does not come out right. -/
theorem atoi_inverts_three : ¬AtoiInverts (fun _ => 0) 0x1000 0x2000 123 := by
  rw [atoiInverts_iff_short (by decide)]
  decide

end SpKernel
