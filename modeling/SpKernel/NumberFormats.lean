import SpKernel.Lib.Numeral
import SpKernel.Strings

/-!
# Numbers as text (`c_io.c`, `ulibc.c`)

The conversions store the characters of a number and a NUL at `buf` and
return the number of characters. Decimal ones divide (`cvtdec0_spec`),
and patch the quotient of the one integer that has no negative.
Hexadecimal and octal ones move the value to the front and look at the
bits there, without the leading zeros (`hexLoop_spec`, `octLoop_spec`).

`StoresText m buf chars r` is what all of them do: the result `r` is the
length of `chars` and the memory in which `chars` and a NUL are stored at
`buf`, and no other byte is changed. Which characters these are is stated
without the code, as the canonical numeral of the value in the base, by
the library on numerals. `SignedNumeral` and `UnsignedNumeral` say it
once more from the reader's side: the characters are read back as the
value, and there is no zero in front.

- `number_formats_canonical` has the decimal and hexadecimal conversions
  of the kernel, and those of the user library, which are copies and do
  the same (`cvtDec_eq`, `cvtHex_spec`).
- 32 bits are not a number of groups of three: `cvtoct` takes two bits
  first, and then moves by three all the same. `octShown` is the number
  whose numeral it stores (`cvtoct_spec`), and `octal_format_iff` says
  that this is the value for two values only.
-/

namespace SpKernel

open Lib

/-! ## Decimal -/

/-- `value / 10`, and what becomes of it for the smallest integer. -/
def decQuotient (value : Word) : Word :=
  if (value.sdiv 10).slt 0 then 214748364 else value.sdiv 10

/-- `value`, and what becomes of it for the smallest integer. -/
def decValue (value : Word) : Word := if (value.sdiv 10).slt 0 then 8 else value

theorem toInt_sdiv_ten (value : Word) : (value.sdiv 10).toInt = value.toInt.tdiv 10 :=
  BitVec.toInt_sdiv_of_ne_or_ne value 10 (.inr (by decide))

/-- The recursion ends: a quotient that is not zero is smaller. -/
theorem decQuotient_lt {value : Word} (h : decQuotient value ≠ 0) :
    (decQuotient value).toNat < value.toNat := by
  have hdiv := toInt_sdiv_ten value
  have hval := BitVec.toInt_eq_toNat_cond value
  have hquot := BitVec.toInt_eq_toNat_cond (value.sdiv 10)
  have hlt := value.isLt
  have hzero : (0 : Word).toInt = 0 := rfl
  have hnonneg : 0 ≤ value.toInt → value.toInt.tdiv 10 = value.toInt / 10 :=
    Int.tdiv_eq_ediv_of_nonneg
  unfold decQuotient at h ⊢
  by_cases hneg : (value.sdiv 10).slt 0
  · rw [if_pos hneg]
    rw [BitVec.slt_iff_toInt_lt, hdiv, hzero] at hneg
    have hquotient : (214748364 : Word).toNat = 214748364 := rfl
    omega
  · rw [if_neg hneg] at h ⊢
    rw [BitVec.slt_iff_toInt_lt, hzero] at hneg
    have hne : (value.sdiv 10).toInt ≠ 0 := fun he => h (BitVec.eq_of_toInt_eq he)
    have hpos : ¬value.toInt < 0 := by
      intro hv
      have hminus : 0 ≤ (-value.toInt).tdiv 10 := Int.tdiv_nonneg (by omega) (by decide)
      rw [Int.neg_tdiv] at hminus
      omega
    omega

/-- `*buf++ = value % 10 + '0'` -/
def putDigit (value : Word) (r : Mem × Word) : Mem × Word :=
  (store 1 r.1 r.2 ((value.srem 10 + 0x30).setWidth 8), r.2 + 1)

/-- `cvtdec0`: memory, and the place behind the last digit. -/
def cvtdec0 (m : Mem) (buf value : Word) : Mem × Word :=
  putDigit (decValue value)
    (if _h : decQuotient value ≠ 0 then cvtdec0 m buf (decQuotient value) else (m, buf))
termination_by value.toNat
decreasing_by exact decQuotient_lt _h

def cvtdec (m : Mem) (buf value : Word) : Mem × Word :=
  let (m, bp, value) :=
    if value.slt 0 then (store 1 m buf (0x2D : Byte), buf + 1, -value) else (m, buf, value)
  let (m, bp) := cvtdec0 m bp value
  (store 1 m bp (0 : Byte), bp - buf)

def cvtDec0 (m : Mem) (buf value : Word) : Mem × Word := cvtdec0 m buf value

def cvtDec (m : Mem) (buf value : Word) : Mem × Word :=
  let (m, bp, value) :=
    if value.slt 0 then (store 1 m buf (0x2D : Byte), buf + 1, -value) else (m, buf, value)
  let (m, bp) := cvtDec0 m bp value
  (store 1 m bp (0 : Byte), bp - buf)

/-! ## Hexadecimal and octal -/

def hexdigits : List Byte :=
  [0x30, 0x31, 0x32, 0x33, 0x34, 0x35, 0x36, 0x37, 0x38, 0x39, 0x41, 0x42, 0x43, 0x44, 0x45, 0x46]

/-- `hexdigits[ val ]` -/
def hexDigit (val : Nat) : Byte := hexdigits.getD val 0

/-- The loop of `cvthex` and `cvt_hex`, by the rounds left; `stored` is what
becomes of `chars_stored` when a character is. -/
def hexLoop (stored : Word → Word) : Nat → Mem → Word → Word → Word → Mem × Word × Word
  | 0, m, bp, _, charsStored => (m, bp, charsStored)
  | rounds + 1, m, bp, value, charsStored =>
      let val := value &&& 0xF0000000
      if rounds = 0 ∨ val ≠ 0 ∨ charsStored ≠ 0 then
        let val := val.sshiftRight 28 &&& 0xF
        hexLoop stored rounds (store 1 m bp (hexDigit val.toNat)) (bp + 1) (value <<< 4)
          (stored charsStored)
      else hexLoop stored rounds m bp (value <<< 4) charsStored

def cvthex (m : Mem) (buf value : Word) : Mem × Word :=
  let (m, bp, _) := hexLoop (fun _ => 1) 8 m buf value 0
  (store 1 m bp (0 : Byte), bp - buf)

def cvtHex (m : Mem) (buf value : Word) : Mem × Word :=
  let (m, bp, charsStored) := hexLoop (· + 1) 8 m buf value 0
  (store 1 m bp (0 : Byte), charsStored)

/-- The loop of `cvtoct`, by the rounds left. -/
def octLoop : Nat → Mem → Word → Word → Word → Bool → Mem × Word
  | 0, m, bp, _, _, _ => (m, bp)
  | rounds + 1, m, bp, value, val, charsStored =>
      let next := (value <<< 3 &&& 0xE0000000).sshiftRight 29
      if rounds = 0 ∨ val ≠ 0 ∨ charsStored then
        octLoop rounds (store 1 m bp (hexDigit (val &&& 7).toNat)) (bp + 1) (value <<< 3) next true
      else octLoop rounds m bp (value <<< 3) next charsStored

/-- `cvtoct`. The first group has two bits; the shift after it is by three. -/
def cvtoct (m : Mem) (buf value : Word) : Mem × Word :=
  let (m, bp) := octLoop 11 m buf value ((value &&& 0xC0000000).sshiftRight 30) false
  (store 1 m bp (0 : Byte), bp - buf)

/-! ## Numerals in memory -/

/-- The characters of digits. -/
def digitChars (ds : List Nat) : List Byte := ds.map hexDigit

/-- The decimal numeral of a signed value. -/
def decimal (value : Word) : List Byte :=
  (if value.slt 0 then [0x2D] else []) ++ digitChars (numeral 10 value.toInt.natAbs)

/-- The numeral of an unsigned value. -/
def unsigned (b : Nat) (value : Word) : List Byte := digitChars (numeral b value.toNat)

/-- The value of a digit, if it is one in the base. -/
def valueOfDigit (b : Nat) (c : Byte) : Option Nat :=
  if hexdigits.idxOf c < b then some (hexdigits.idxOf c) else none

/-- The number that a numeral without sign stands for. -/
def parseNat (b : Nat) (chars : List Byte) : Option Nat :=
  if chars = [] then none else (chars.mapM (valueOfDigit b)).map (numeralValue b)

/-- The number that a decimal numeral stands for. -/
def parseInt (chars : List Byte) : Option Int :=
  if chars.head? = some 0x2D then (parseNat 10 chars.tail).map (-Int.ofNat ·)
  else (parseNat 10 chars).map Int.ofNat

/-- The characters and a NUL are stored, and their number is returned. -/
def StoresText (m : Mem) (buf : Word) (chars : List Byte) (r : Mem × Word) : Prop :=
  r = (storeBytes m buf (chars ++ [0]), BitVec.ofNat 32 chars.length)

/-- The characters are the canonical numeral of the number: no leading zero,
and a sign if it is negative. -/
structure SignedNumeral (chars : List Byte) (n : Int) : Prop where
  digits : ∃ ds, Canonical 10 ds ∧ chars = (if n < 0 then [0x2D] else []) ++ digitChars ds
  parse : parseInt chars = some n

structure UnsignedNumeral (b : Nat) (chars : List Byte) (n : Nat) : Prop where
  digits : ∃ ds, Canonical b ds ∧ chars = digitChars ds
  parse : parseNat b chars = some n

variable {m : Mem} {buf value : Word}

theorem storeBytes_append : ∀ (xs ys : List Byte) (m : Mem) (a : Word),
    storeBytes m a (xs ++ ys)
      = storeBytes (storeBytes m a xs) (a + BitVec.ofNat 32 xs.length) ys
  | [], _, _, a => by
      rw [List.nil_append, List.length_nil, BitVec.add_zero]
      rfl
  | x :: xs, ys, m, a => by
      rw [List.cons_append, storeBytes, storeBytes_append xs, storeBytes, List.length_cons,
        add_ofNat_succ]

/-- What is stored behind `xs`, at the place behind it. -/
theorem storeBytes_snoc (m : Mem) (a : Word) (xs : List Byte) (x : Byte) :
    store 1 (storeBytes m a xs) (a + BitVec.ofNat 32 xs.length) x = storeBytes m a (xs ++ [x]) :=
  (storeBytes_append xs [x] m a).symm

/-! ## Decimal numerals -/

theorem toNat_sdiv_ten (h : value.toNat < 2 ^ 31) : (value.sdiv 10).toNat = value.toNat / 10 := by
  have hdiv := toInt_sdiv_ten value
  have hval := BitVec.toInt_eq_toNat_cond value
  have hquot := BitVec.toInt_eq_toNat_cond (value.sdiv 10)
  have hnonneg : 0 ≤ value.toInt → value.toInt.tdiv 10 = value.toInt / 10 :=
    Int.tdiv_eq_ediv_of_nonneg
  have := (value.sdiv 10).isLt
  omega

theorem toNat_srem_ten (h : value.toNat < 2 ^ 31) : (value.srem 10).toNat = value.toNat % 10 := by
  have hrem : (value.srem 10).toInt = value.toInt.tmod 10 := BitVec.toInt_srem value 10
  have hval := BitVec.toInt_eq_toNat_cond value
  have hrest := BitVec.toInt_eq_toNat_cond (value.srem 10)
  have hnonneg : 0 ≤ value.toInt → value.toInt.tmod 10 = value.toInt % 10 :=
    Int.tmod_eq_emod_of_nonneg
  have := (value.srem 10).isLt
  omega

/-- The last digit is that of the value, for the smallest integer too. -/
theorem dec_digit (h : value.toNat ≤ 2 ^ 31) : (decQuotient value).toNat = value.toNat / 10
    ∧ ((decValue value).srem 10).toNat = value.toNat % 10 := by
  rcases Nat.lt_or_eq_of_le h with hlt | heq
  · have hquot := toNat_sdiv_ten hlt
    have hneg : ¬(value.sdiv 10).slt 0 := by
      rw [BitVec.slt_iff_toInt_lt, BitVec.toInt_eq_toNat_cond]
      have hzero : (0 : Word).toInt = 0 := rfl
      omega
    rw [decQuotient, decValue, if_neg hneg, if_neg hneg]
    exact ⟨hquot, toNat_srem_ten hlt⟩
  · obtain rfl : value = 0x80000000 := BitVec.eq_of_toNat_eq heq
    decide

theorem putDigit_spec {r : Nat} {xs : List Byte} (h : value.srem 10 = BitVec.ofNat 32 r)
    (hr : r < 10) : putDigit value (storeBytes m buf xs, buf + BitVec.ofNat 32 xs.length)
      = (storeBytes m buf (xs ++ [hexDigit r]),
        buf + BitVec.ofNat 32 (xs ++ [hexDigit r]).length) := by
  have hchar : ∀ r < 10, (BitVec.ofNat 32 r + 0x30 : Word).setWidth 8 = hexDigit r := by decide
  rw [putDigit, h, hchar r hr, storeBytes_snoc, List.length_append, List.length_singleton,
    BitVec.ofNat_add, ← BitVec.add_assoc]
  rfl

theorem cvtdec0_spec {value : Word} (h : value.toNat ≤ 2 ^ 31) : cvtdec0 m buf value
    = (storeBytes m buf (digitChars (numeral 10 value.toNat)),
      buf + BitVec.ofNat 32 (digitChars (numeral 10 value.toNat)).length) := by
  obtain ⟨hquot, hrem⟩ := dec_digit h
  have hlast : (decValue value).srem 10 = BitVec.ofNat 32 (value.toNat % 10) := by
    rw [← hrem, BitVec.ofNat_toNat, BitVec.setWidth_eq]
  have hr : value.toNat % 10 < 10 := Nat.mod_lt _ (by decide)
  rw [cvtdec0]
  by_cases hlt : value.toNat < 10
  · have hz : decQuotient value = 0 := BitVec.eq_of_toNat_eq (by
      rw [hquot, Nat.div_eq_of_lt hlt]
      rfl)
    have hstart : (m, buf) = (storeBytes m buf [], buf + BitVec.ofNat 32 ([] : List Byte).length) :=
      Prod.ext rfl (BitVec.add_zero buf).symm
    rw [dif_neg (not_not_intro hz), numeral_of_lt hlt, hstart, putDigit_spec hlast hr,
      Nat.mod_eq_of_lt hlt]
    rfl
  · have hne : decQuotient value ≠ 0 := by
      intro hz
      rw [hz] at hquot
      have hzero : (0 : Word).toNat = 0 := rfl
      omega
    have hnum : digitChars (numeral 10 value.toNat)
        = digitChars (numeral 10 (value.toNat / 10)) ++ [hexDigit (value.toNat % 10)] := by
      rw [numeral_div (by decide) (by omega), digitChars, List.map_append]
      rfl
    rw [dif_pos hne, cvtdec0_spec (by omega), hquot, putDigit_spec hlast hr, hnum]
termination_by value.toNat
decreasing_by exact decQuotient_lt hne

theorem storesText_end (m : Mem) (buf : Word) (chars : List Byte) :
    StoresText m buf chars (store 1 (storeBytes m buf chars) (buf + BitVec.ofNat 32 chars.length)
      (0 : Byte), buf + BitVec.ofNat 32 chars.length - buf) := by
  rw [StoresText, storeBytes_snoc, BitVec.add_comm, BitVec.add_sub_cancel]

theorem cvtdec0_behind (xs : List Byte) {value : Word} (h : value.toNat ≤ 2 ^ 31) :
    cvtdec0 (storeBytes m buf xs) (buf + BitVec.ofNat 32 xs.length) value
      = (storeBytes m buf (xs ++ digitChars (numeral 10 value.toNat)),
        buf + BitVec.ofNat 32 (xs ++ digitChars (numeral 10 value.toNat)).length) := by
  rw [cvtdec0_spec h, storeBytes_append, List.length_append, BitVec.ofNat_add, BitVec.add_assoc]

theorem cvtdec_spec (m : Mem) (buf value : Word) :
    StoresText m buf (decimal value) (cvtdec m buf value) := by
  have hval := BitVec.toInt_eq_toNat_cond value
  have hlt := value.isLt
  have hzero : (0 : Word).toInt = 0 := rfl
  rw [cvtdec, decimal]
  by_cases hneg : value.slt 0
  · rw [if_pos hneg, if_pos hneg]
    rw [BitVec.slt_iff_toInt_lt, hzero] at hneg
    have hminus : (-value).toNat = value.toInt.natAbs := by
      rw [BitVec.toNat_neg]
      omega
    have hle : (-value).toNat ≤ 2 ^ 31 := by omega
    have hloop : cvtdec0 (store 1 m buf (0x2D : Byte)) (buf + 1) (-value) = _ :=
      cvtdec0_behind [0x2D] hle
    simp only
    rw [hloop, hminus]
    exact storesText_end ..
  · rw [if_neg hneg, if_neg hneg]
    rw [BitVec.slt_iff_toInt_lt, hzero] at hneg
    have hsame : value.toNat = value.toInt.natAbs := by omega
    simp only
    rw [cvtdec0_spec (by omega), hsame]
    exact storesText_end ..

theorem cvtDec_eq (m : Mem) (buf value : Word) : cvtDec m buf value = cvtdec m buf value := rfl

/-! ## Hexadecimal numerals -/

theorem toNat_mask (value : Word) {s : Nat} (hs : s < 32) :
    (value &&& BitVec.allOnes 32 <<< s).toNat = value.toNat / 2 ^ s * 2 ^ s := by
  have hmask : value &&& BitVec.allOnes 32 <<< s = (value >>> s) <<< s := by
    apply BitVec.eq_of_getLsbD_eq
    intro i hi
    simp only [BitVec.getLsbD_and, BitVec.getLsbD_shiftLeft, BitVec.getLsbD_allOnes,
      BitVec.getLsbD_ushiftRight, hi]
    by_cases h : i < s
    · simp [h]
    · have hlt : i - s < 32 := by omega
      simp [h, hlt, Nat.add_sub_cancel' (Nat.le_of_not_lt h)]
  rw [hmask, BitVec.toNat_shiftLeft, BitVec.toNat_ushiftRight, Nat.shiftLeft_eq,
    Nat.shiftRight_eq_div_pow]
  exact Nat.mod_eq_of_lt (Nat.lt_of_le_of_lt (Nat.div_mul_le_self ..) value.isLt)

/-- The bits below a group do not count once it has been moved to the end. -/
theorem front_toInt (value : Word) {s : Nat} (hs : s < 32) {mask : Word}
    (hmask : mask = BitVec.allOnes 32 <<< s) :
    ((value &&& mask).sshiftRight s).toInt = value.toInt / 2 ^ s := by
  have htop : (BitVec.allOnes 32 <<< s).getLsbD 31 = true := by
    rw [BitVec.getLsbD_shiftLeft, BitVec.getLsbD_allOnes]
    simp
    omega
  have hmsb : (value &&& BitVec.allOnes 32 <<< s).msb = value.msb := by
    rw [BitVec.msb_and, BitVec.msb_eq_getLsbD_last (BitVec.allOnes 32 <<< s), htop, Bool.and_true]
  have hshift : (value &&& BitVec.allOnes 32 <<< s).sshiftRight s = value.sshiftRight s := by
    apply BitVec.eq_of_getLsbD_eq
    intro i hi
    simp only [BitVec.getLsbD_sshiftRight, hmsb, BitVec.getLsbD_and, BitVec.getLsbD_shiftLeft,
      BitVec.getLsbD_allOnes]
    by_cases h : s + i < 32
    · simp [h, hi]
    · simp [h]
  rw [hmask, hshift, BitVec.toInt_sshiftRight, Int.shiftRight_eq_div_pow]
  exact congrArg _ (Nat.cast_pow 2 s)

/-- A group of `k` bits that has been moved to the end, with the sign above it. -/
theorem front_group (value : Word) {s k : Nat} (hs : s < 32) (hk : k ≤ 32) {mask low : Word}
    (hmask : mask = BitVec.allOnes 32 <<< s) (hlow : low.toNat = 2 ^ k - 1) :
    (((value &&& mask).sshiftRight s &&& low).toNat : Int) = value.toInt / 2 ^ s % 2 ^ k
      ∧ ((value &&& mask).sshiftRight s ≠ 0 ↔ value.toInt / 2 ^ s ≠ 0) := by
  rw [← front_toInt value hs hmask]
  generalize (value &&& mask).sshiftRight s = x
  refine ⟨?_, not_congr (BitVec.toInt_inj (y := 0)).symm⟩
  have hdvd : (4294967296 : Int) = 2 ^ k * 2 ^ (32 - k) := by
    rw [← pow_add, Nat.add_sub_cancel' hk]
    rfl
  rw [BitVec.toNat_and, hlow, Nat.and_two_pow_sub_one_eq_mod, BitVec.toInt_eq_toNat_cond]
  push_cast
  split
  · rfl
  · rw [hdvd, Int.sub_mul_emod_self_left]

theorem hex_front (value : Word) :
    ((value &&& 0xF0000000).sshiftRight 28 &&& 0xF).toNat = value.toNat / 2 ^ 28
      ∧ (value &&& 0xF0000000 ≠ 0 ↔ value.toNat / 2 ^ 28 ≠ 0) := by
  have hlt := value.isLt
  have hval := BitVec.toInt_eq_toNat_cond value
  have hmask : (value &&& 0xF0000000).toNat = value.toNat / 2 ^ 28 * 2 ^ 28 :=
    toNat_mask value (by decide : 28 < 32)
  constructor
  · have hdigit := (front_group value (by decide : 28 < 32) (by decide : 4 ≤ 32)
      (by decide : (0xF0000000 : Word) = _) (by decide : (0xF : Word).toNat = _)).1
    omega
  · refine not_congr ⟨fun hz => ?_, fun hz => BitVec.eq_of_toNat_eq ?_⟩
    · rw [hz] at hmask
      have hzero : (0 : Word).toNat = 0 := rfl
      omega
    · rw [hmask, hz]
      rfl

/-- The value has been moved to the front: the digits that are left are
those that the loop gets to. -/
theorem hexLoop_spec {stored : Word → Word} (hstored : ∀ i ≤ 8, stored^[i] 0 = 0 ↔ i = 0)
    {n : Nat} : ∀ {rounds j : Nat} (m : Mem) (bp : Word) {value : Word}, j + rounds ≤ 8 →
    value.toNat = n * 16 ^ (8 - rounds) % 16 ^ 8 →
    hexLoop stored rounds m bp value (stored^[j] 0)
      = (storeBytes m bp (digitChars (suppress (decide (j ≠ 0)) (fixedDigits 16 n rounds))),
        bp + BitVec.ofNat 32 (suppress (decide (j ≠ 0)) (fixedDigits 16 n rounds)).length,
        stored^[j + (suppress (decide (j ≠ 0)) (fixedDigits 16 n rounds)).length] 0)
  | 0, j, m, bp, value, _, _ => by
      rw [fixedDigits, suppress, List.length_nil, BitVec.add_zero]
      rfl
  | rounds + 1, j, m, bp, value, hj, hvalue => by
      obtain ⟨hdigit, hne⟩ := hex_front value
      have hpow : 16 ^ (8 - rounds) = 16 ^ (8 - (rounds + 1)) * 16 := by
        rw [← Nat.pow_succ]
        congr 1
        omega
      have hnext : (value <<< 4).toNat = n * 16 ^ (8 - rounds) % 16 ^ 8 := by
        rw [BitVec.toNat_shiftLeft, Nat.shiftLeft_eq, hvalue, hpow, ← Nat.mul_assoc]
        exact Nat.mod_mul_mod ..
      have hfront := front_digit (by decide : 0 < 16) n (7 - rounds) rounds
      have hd : value.toNat / 2 ^ 28 = n / 16 ^ rounds % 16 := by
        rw [hvalue, ← hfront, show 8 - (rounds + 1) = 7 - rounds by omega,
          show rounds + (7 - rounds) = 7 by omega]
        rfl
      rw [hd] at hdigit hne
      have hcond : (fixedDigits 16 n rounds = [] ∨ n / 16 ^ rounds % 16 ≠ 0
          ∨ decide (j ≠ 0) = true)
          ↔ (rounds = 0 ∨ value &&& 0xF0000000 ≠ 0 ∨ stored^[j] 0 ≠ 0) := by
        rw [← List.length_eq_zero_iff, fixedDigits_length, decide_eq_true_iff, hne]
        exact or_congr_right (or_congr_right (not_congr (hstored j (by omega)).symm))
      rw [hexLoop, fixedDigits, suppress]
      simp only
      by_cases hstore : rounds = 0 ∨ value &&& 0xF0000000 ≠ 0 ∨ stored^[j] 0 ≠ 0
      · have ih := hexLoop_spec hstored (j := j + 1)
          (store 1 m bp (hexDigit (n / 16 ^ rounds % 16))) (bp + 1) (by omega) hnext
        rw [decide_eq_true (Nat.succ_ne_zero j), Function.iterate_succ_apply'] at ih
        rw [if_pos hstore, if_pos (hcond.mpr hstore), hdigit, ih, List.length_cons,
          ← add_ofNat_succ, Nat.add_right_comm, Nat.add_assoc]
        rfl
      · have ih := hexLoop_spec hstored (j := j) m bp (by omega) hnext
        rw [if_neg hstore, if_neg (mt hcond.mp hstore), ih]

theorem hexLoop_all {stored : Word → Word} (hstored : ∀ i ≤ 8, stored^[i] 0 = 0 ↔ i = 0)
    (m : Mem) (buf value : Word) : hexLoop stored 8 m buf value 0
      = (storeBytes m buf (unsigned 16 value),
        buf + BitVec.ofNat 32 (unsigned 16 value).length,
        stored^[(unsigned 16 value).length] 0) := by
  have hlt : value.toNat < 16 ^ 8 := value.isLt
  have hvalue : value.toNat = value.toNat * 16 ^ (8 - 8) % 16 ^ 8 := by
    rw [Nat.sub_self, Nat.pow_zero, Nat.mul_one, Nat.mod_eq_of_lt hlt]
  have hdigits : suppress false (fixedDigits 16 value.toNat 8) = numeral 16 value.toNat :=
    suppress_fixedDigits (by decide) (by decide) hlt
  have hloop := hexLoop_spec hstored (j := 0) m buf (Nat.le_refl 8) hvalue
  rw [show decide (0 ≠ 0) = false from rfl, hdigits, Nat.zero_add] at hloop
  rw [unsigned, digitChars, List.length_map]
  exact hloop

theorem cvthex_spec (m : Mem) (buf value : Word) :
    StoresText m buf (unsigned 16 value) (cvthex m buf value) := by
  have hstored : ∀ i ≤ 8, (fun _ : Word => (1 : Word))^[i] 0 = 0 ↔ i = 0 := by decide
  rw [cvthex, hexLoop_all hstored]
  exact storesText_end ..

theorem cvtHex_spec (m : Mem) (buf value : Word) :
    StoresText m buf (unsigned 16 value) (cvtHex m buf value) := by
  have hcount : ∀ i, (· + 1 : Word → Word)^[i] 0 = BitVec.ofNat 32 i := by
    intro i
    induction i with
    | zero => rfl
    | succ i ih =>
        rw [Function.iterate_succ_apply', ih, BitVec.ofNat_add]
        rfl
  have hstored : ∀ i ≤ 8, (· + 1 : Word → Word)^[i] 0 = 0 ↔ i = 0 := by decide
  rw [cvtHex, hexLoop_all hstored, hcount]
  simp only
  rw [storeBytes_snoc]
  rfl

/-! ## Reading numerals back -/

theorem valueOfDigit_hexDigit {b d : Nat} (hb : b ≤ 16) (hd : d < b) :
    valueOfDigit b (hexDigit d) = some d := by
  have hidx : ∀ d < 16, hexdigits.idxOf (hexDigit d) = d := by decide
  rw [valueOfDigit, hidx d (by omega), if_pos hd]

theorem parseNat_digitChars {b : Nat} {ds : List Nat} (hb : b ≤ 16) (hne : ds ≠ [])
    (hds : ∀ d ∈ ds, d < b) : parseNat b (digitChars ds) = some (numeralValue b ds) := by
  have hmap : (digitChars ds).mapM (valueOfDigit b) = some ds := by
    clear hne
    induction ds with
    | nil => rfl
    | cons d ds ih =>
        obtain ⟨hd, hds⟩ := List.forall_mem_cons.mp hds
        have hrest : (ds.map hexDigit).mapM (valueOfDigit b) = some ds := ih hds
        rw [digitChars, List.map_cons, List.mapM_cons, valueOfDigit_hexDigit hb hd, hrest]
        rfl
  rw [parseNat, if_neg (by simpa [digitChars] using hne), hmap]
  rfl

theorem unsignedNumeral {b : Nat} (hb : 1 < b) (hb' : b ≤ 16) (n : Nat) :
    UnsignedNumeral b (digitChars (numeral b n)) n := by
  have hcan := canonical_numeral hb n
  refine ⟨⟨_, hcan, rfl⟩, ?_⟩
  rw [parseNat_digitChars hb' hcan.nonempty hcan.digit, numeralValue_numeral]

theorem head_digitChars {b : Nat} {ds : List Nat} (hb : b ≤ 16) (h : Canonical b ds) :
    (digitChars ds).head? ≠ some 0x2D := by
  have hsign : ∀ d < 16, hexDigit d ≠ 0x2D := by decide
  obtain ⟨d, ds, rfl⟩ := List.exists_cons_of_ne_nil h.nonempty
  intro he
  exact hsign d (Nat.lt_of_lt_of_le (h.digit d List.mem_cons_self) hb) (Option.some.inj he)

theorem signedNumeral (value : Word) : SignedNumeral (decimal value) value.toInt := by
  have hcan := canonical_numeral (by decide : 1 < 10) value.toInt.natAbs
  have hnat := (unsignedNumeral (by decide : 1 < 10) (by decide) value.toInt.natAbs).parse
  have hslt : value.slt 0 ↔ value.toInt < 0 := BitVec.slt_iff_toInt_lt
  rw [decimal]
  by_cases hneg : value.slt 0
  · rw [if_pos hneg]
    rw [hslt] at hneg
    refine ⟨⟨_, hcan, by rw [if_pos hneg]⟩, ?_⟩
    rw [parseInt, List.singleton_append, List.head?_cons, if_pos rfl, List.tail_cons, hnat,
      Option.map_some]
    congr 1
    show -(value.toInt.natAbs : Int) = value.toInt
    omega
  · rw [if_neg hneg]
    rw [hslt] at hneg
    refine ⟨⟨_, hcan, by rw [if_neg hneg]⟩, ?_⟩
    rw [List.nil_append, parseInt, if_neg (head_digitChars (by decide) hcan), hnat,
      Option.map_some]
    congr 1
    show (value.toInt.natAbs : Int) = value.toInt
    omega

theorem length_unsigned_le {b k : Nat} (hb : 1 < b) (hk : 0 < k) (h : 2 ^ 32 ≤ b ^ k)
    (value : Word) : (unsigned b value).length ≤ k := by
  rw [unsigned, digitChars, List.length_map]
  exact length_numeral_le hb hk (Nat.lt_of_lt_of_le value.isLt h)

theorem length_decimal_le (value : Word) : (decimal value).length ≤ 11 := by
  have hval := BitVec.toInt_eq_toNat_cond value
  have hlt := value.isLt
  have hdigits : (numeral 10 value.toInt.natAbs).length ≤ 10 :=
    length_numeral_le (by decide) (by decide) (by omega)
  rw [decimal, List.length_append, digitChars, List.length_map]
  split
  · rw [List.length_singleton]
    omega
  · rw [List.length_nil]
    omega

/-- Every value is stored as its canonical numeral, in at most 11 or 8
characters, and the copies in the user library do the same. -/
theorem number_formats_canonical (m : Mem) (buf value : Word) :
    (SignedNumeral (decimal value) value.toInt ∧ (decimal value).length ≤ 11
      ∧ StoresText m buf (decimal value) (cvtdec m buf value)
      ∧ cvtDec m buf value = cvtdec m buf value)
    ∧ UnsignedNumeral 16 (unsigned 16 value) value.toNat ∧ (unsigned 16 value).length ≤ 8
      ∧ StoresText m buf (unsigned 16 value) (cvthex m buf value)
      ∧ cvtHex m buf value = cvthex m buf value :=
  ⟨⟨signedNumeral value, length_decimal_le value, cvtdec_spec m buf value, cvtDec_eq m buf value⟩,
    unsignedNumeral (by decide) (by decide) _,
    length_unsigned_le (by decide) (by decide) (by decide) value,
    cvthex_spec m buf value, (cvtHex_spec m buf value).trans (cvthex_spec m buf value).symm⟩

/-! ## Octal numerals -/

theorem oct_front (value : Word) :
    ((value &&& 0xE0000000).sshiftRight 29 &&& 7).toNat = value.toNat / 2 ^ 29
      ∧ ((value &&& 0xE0000000).sshiftRight 29 ≠ 0 ↔ value.toNat / 2 ^ 29 ≠ 0) := by
  have hlt := value.isLt
  have hval := BitVec.toInt_eq_toNat_cond value
  obtain ⟨hdigit, hne⟩ := front_group value (by decide : 29 < 32) (by decide : 3 ≤ 32)
    (by decide : (0xE0000000 : Word) = _) (by decide : (7 : Word).toNat = _)
  rw [hne]
  constructor
  · omega
  · omega

/-- The digit that the two bits at the front become, with the sign. -/
def octFirst (value : Word) : Nat :=
  value.toNat / 2 ^ 30 + if value.toNat / 2 ^ 30 < 2 then 0 else 4

theorem oct_first (value : Word) :
    ((value &&& 0xC0000000).sshiftRight 30 &&& 7).toNat = octFirst value
      ∧ ((value &&& 0xC0000000).sshiftRight 30 ≠ 0 ↔ octFirst value ≠ 0) := by
  have hlt := value.isLt
  have hval := BitVec.toInt_eq_toNat_cond value
  obtain ⟨hdigit, hne⟩ := front_group value (by decide : 30 < 32) (by decide : 3 ≤ 32)
    (by decide : (0xC0000000 : Word) = _) (by decide : (7 : Word).toNat = _)
  rw [hne, octFirst]
  split
  · constructor
    · omega
    · omega
  · constructor
    · omega
    · omega

/-- A round stores its digit unless it is a leading zero. -/
theorem octLoop_round {rounds d : Nat} {ds : List Nat} {value val : Word}
    (hdigit : (val &&& 7).toNat = d) (hne : val ≠ 0 ↔ d ≠ 0) (hlen : ds.length = rounds)
    (hrest : ∀ m bp stored, octLoop rounds m bp (value <<< 3)
      ((value <<< 3 &&& 0xE0000000).sshiftRight 29) stored
        = (storeBytes m bp (digitChars (suppress stored ds)),
          bp + BitVec.ofNat 32 (suppress stored ds).length))
    (m : Mem) (bp : Word) (stored : Bool) :
    octLoop (rounds + 1) m bp value val stored
      = (storeBytes m bp (digitChars (suppress stored (d :: ds))),
        bp + BitVec.ofNat 32 (suppress stored (d :: ds)).length) := by
  have hcond : (ds = [] ∨ d ≠ 0 ∨ stored = true) ↔ (rounds = 0 ∨ val ≠ 0 ∨ stored = true) := by
    rw [← List.length_eq_zero_iff, hlen, hne]
  rw [octLoop, suppress]
  by_cases hstore : rounds = 0 ∨ val ≠ 0 ∨ stored = true
  · rw [if_pos hstore, if_pos (hcond.mpr hstore), hdigit, hrest, List.length_cons,
      ← add_ofNat_succ]
    rfl
  · rw [if_neg hstore, if_neg (mt hcond.mp hstore), hrest]

theorem octLoop_spec {n : Nat} : ∀ {rounds : Nat} {value : Word}, rounds ≤ 10 →
    value.toNat * 2 = n * 8 ^ (11 - rounds) % 8 ^ 11 → ∀ (m : Mem) (bp : Word) (stored : Bool),
    octLoop rounds m bp value ((value &&& 0xE0000000).sshiftRight 29) stored
      = (storeBytes m bp (digitChars (suppress stored (fixedDigits 8 n rounds))),
        bp + BitVec.ofNat 32 (suppress stored (fixedDigits 8 n rounds)).length)
  | 0, _, _, _, m, bp, stored => by
      rw [fixedDigits, suppress, List.length_nil, BitVec.add_zero]
      rfl
  | rounds + 1, value, hr, hvalue, m, bp, stored => by
      obtain ⟨hdigit, hne⟩ := oct_front value
      have hpow : 8 ^ (11 - rounds) = 8 ^ (11 - (rounds + 1)) * 8 := by
        rw [← Nat.pow_succ]
        congr 1
        omega
      have hnext : (value <<< 3).toNat * 2 = n * 8 ^ (11 - rounds) % 8 ^ 11 := by
        rw [hpow, ← Nat.mul_assoc, ← Nat.mod_mul_mod, ← hvalue, BitVec.toNat_shiftLeft,
          Nat.shiftLeft_eq]
        omega
      have hfront := front_digit (by decide : 0 < 8) n (10 - rounds) rounds
      have hd : value.toNat / 2 ^ 29 = n / 8 ^ rounds % 8 := by
        rw [show rounds + (10 - rounds) = 10 by omega,
          show 10 - rounds = 11 - (rounds + 1) by omega, ← hvalue] at hfront
        omega
      rw [hd] at hdigit hne
      exact octLoop_round hdigit hne (fixedDigits_length 8 n rounds)
        (octLoop_spec (by omega) hnext) m bp stored

/-- The number whose numeral `cvtoct` stores. -/
def octShown (value : Word) : Nat := octFirst value * 8 ^ 10 + value.toNat * 2 % 8 ^ 10

theorem octShown_lt (value : Word) : octShown value < 8 ^ 11 := by
  have hlt := value.isLt
  rw [octShown, octFirst]
  split
  · omega
  · omega

theorem length_octShown_le (value : Word) :
    (digitChars (numeral 8 (octShown value))).length ≤ 11 := by
  rw [digitChars, List.length_map]
  exact length_numeral_le (by decide) (by decide) (octShown_lt value)

theorem cvtoct_spec (m : Mem) (buf value : Word) :
    StoresText m buf (digitChars (numeral 8 (octShown value))) (cvtoct m buf value) := by
  obtain ⟨hdigit, hne⟩ := oct_first value
  have hmoved : (value <<< 3).toNat * 2 = value.toNat * 2 * 8 ^ (11 - 10) % 8 ^ 11 := by
    rw [BitVec.toNat_shiftLeft, Nat.shiftLeft_eq]
    omega
  have hloop := octLoop_round hdigit hne (fixedDigits_length 8 (value.toNat * 2) 10)
    (octLoop_spec (by decide) hmoved) m buf false
  have hdigits : suppress false (octFirst value :: fixedDigits 8 (value.toNat * 2) 10)
      = numeral 8 (octShown value) := by
    have hfirst : octFirst value < 8 := by
      have hlt := octShown_lt value
      rw [octShown] at hlt
      omega
    rw [suppress_eq (by decide) (List.cons_ne_nil _ _)
        (List.forall_mem_cons.mpr ⟨hfirst, fixedDigits_lt (by decide) _ _⟩),
      numeralValue_cons, numeralValue_fixedDigits, fixedDigits_length, octShown]
  rw [hdigits] at hloop
  rw [cvtoct, hloop, ← List.length_map (f := hexDigit)]
  exact storesText_end ..

theorem StoresText.unique {chars chars' : List Byte} {r : Mem × Word} (h : StoresText m buf chars r)
    (h' : StoresText m buf chars' r) (hlen : chars.length ≤ 11) (hlen' : chars'.length ≤ 11) :
    chars = chars' := by
  obtain ⟨hmem, hcount⟩ := Prod.mk.inj (h.symm.trans h')
  have heq : (chars ++ [0]).length = (chars' ++ [0]).length := by
    have hnat := congrArg BitVec.toNat hcount
    simp only [BitVec.toNat_ofNat] at hnat
    rw [List.length_append, List.length_append, List.length_singleton]
    omega
  have hbytes : ∀ {cs : List Byte}, cs.length ≤ 11 →
      bytes (storeBytes m buf (cs ++ [0])) buf (cs ++ [0]).length = cs ++ [0] := by
    intro cs hcs
    refine bytes_storeBytes ?_
    rw [List.length_append, List.length_singleton]
    omega
  have hsame := hbytes hlen
  rw [hmem, heq, hbytes hlen'] at hsame
  exact (List.append_cancel_right hsame).symm

/-- The octal numeral of the value is stored, in at most 11 characters. -/
def FormatsOctal (m : Mem) (buf value : Word) : Prop :=
  ∃ chars, UnsignedNumeral 8 chars value.toNat ∧ chars.length ≤ 11
    ∧ StoresText m buf chars (cvtoct m buf value)

theorem octShown_eq_iff (value : Word) :
    octShown value = value.toNat ↔ value = 0 ∨ value = 0x40000000 := by
  have hlt := value.isLt
  rw [octShown, octFirst, BitVec.toNat_inj.symm, BitVec.toNat_inj.symm]
  have hzero : (0 : Word).toNat = 0 := rfl
  have hone : (0x40000000 : Word).toNat = 2 ^ 30 := rfl
  split
  · omega
  · omega

/-- The numeral stored is that of the value only for 0 and `0x40000000`: bit
29 is lost between the first group and the second, and the sign is in the
first digit. There are never more than 11 digits. -/
theorem octal_format_iff (m : Mem) (buf value : Word) :
    (FormatsOctal m buf value ↔ value = 0 ∨ value = 0x40000000)
      ∧ ∃ chars, chars.length ≤ 11 ∧ StoresText m buf chars (cvtoct m buf value) := by
  have hspec := cvtoct_spec m buf value
  have hlen := length_octShown_le value
  have hshown := unsignedNumeral (by decide : 1 < 8) (by decide) (octShown value)
  refine ⟨?_, _, hlen, hspec⟩
  rw [← octShown_eq_iff]
  constructor
  · rintro ⟨chars, hchars, hle, hstored⟩
    have hparse := hchars.parse
    rw [hstored.unique hspec hle hlen, hshown.parse] at hparse
    exact Option.some.inj hparse
  · intro he
    rw [he] at hshown hspec hlen
    exact ⟨_, hshown, hlen, hspec⟩

/-- `cvtoct` of 1 stores `2`. -/
theorem octal_format_one : ¬FormatsOctal (fun _ => 0) 0x1000 1 := by
  rintro ⟨chars, hchars, hle, hstored⟩
  have hspec := cvtoct_spec (fun _ => 0) 0x1000 1
  have htwo : digitChars (numeral 8 (octShown 1)) = [0x32] := by
    rw [show octShown 1 = 2 from rfl, numeral_of_lt (by decide)]
    rfl
  rw [htwo] at hspec
  have hparse := hchars.parse
  rw [hstored.unique hspec hle (by decide)] at hparse
  exact absurd hparse (by decide)

end SpKernel
