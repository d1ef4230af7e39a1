import SpKernel.Readprog

/-!
# Load addresses (`process_file`)

The usage message of the tool gives two notations for the address that a
program is loaded to: a number, or a segment and an offset of four
hexadecimal digits each with a colon between.

A number is taken as it is meant: the program fits, and the segment and
offset that are stored are the number (`processFile_number`). Of a pair
the half before the colon should be read up to the colon, and
`process_file` asks for the end of the text there: no pair is ever taken
(`processFile_pair`).

`LoadsAsDocumented` is what the message promises of a pair, and of a
number that means the same. `load_address_iff` says that it is kept
exactly if the program does not fit, since the pair is then rightly
refused. The proof for a pair needs nothing but the colon in it, at which
`strtol` stops and which is not the end.
-/

namespace SpKernel

/-! ## What the usage message says -/

/-- Four hexadecimal digits, and their number. -/
structure Hex4 where
  text : List Char
  value : Nat
  length_eq : text.length = 4
  digits_eq : digits 16 0 text = (value, [])

/-- A pair of a segment and an offset. -/
structure AddressPair where
  segment : Hex4
  offset : Hex4

def AddressPair.text (p : AddressPair) : List Char := p.segment.text ++ ':' :: p.offset.text

def AddressPair.address (p : AddressPair) : Nat := 16 * p.segment.value + p.offset.value

/-- A number in hexadecimal, decimal or octal. -/
structure IsNumber (text : List Char) (n : Nat) : Prop where
  eq : strtol text 0 = ((n : Int), [])

/-- The program fits in memory, and its words in the table. -/
structure ProgramFits (b : Build) (contents : List Byte) (address : Nat) : Prop where
  memory : address + 512 * sectorsOf contents ≤ 0x9ffff
  table : 3 ≤ nInfo - b.info.length

/-- The words that are stored for a program. -/
def Build.Stores (b : Build) (contents : List Byte) (segment offset : Half) (b' : Build) : Prop :=
  b'.info = offset :: segment :: BitVec.ofNat 16 (sectorsOf contents) :: b.info

/-- A pair, and a number that means the same. -/
structure LoadsAsDocumented (b : Build) (contents : List Byte) (p : AddressPair) : Prop where
  pair : (processFile b contents p.text).isSome ↔ ProgramFits b contents p.address
  pairStored : ∀ b', processFile b contents p.text = some b' →
    b.Stores contents (BitVec.ofNat 16 p.segment.value) (BitVec.ofNat 16 p.offset.value) b'
  number : ∀ text, IsNumber text p.address →
    ((processFile b contents text).isSome ↔ ProgramFits b contents p.address)
  numberStored : ∀ text, IsNumber text p.address → ∀ b', processFile b contents text = some b' →
    ∃ segment offset, b.Stores contents segment offset b' ∧ physical segment offset = p.address

section Address

variable {b b' : Build} {contents : List Byte} {text : List Char} {n : Nat}

/-- What is taken fits, and the number is what is stored. -/
theorem processFile_number (h : IsNumber text n) (hb : processFile b contents text = some b') :
    ProgramFits b contents n
    ∧ ∃ segment offset, b.Stores contents segment offset b' ∧ physical segment offset = n := by
  obtain ⟨address, block, hinfo, -, hwords, hroom⟩ := processFile_cases hb
  obtain rfl : address = n := by
    unfold programInfo at hinfo
    split at hinfo
    · cases hinfo
    · next address' segment offset haddr =>
        have hnumber := (decodeAddress_number haddr).1
        rw [h.eq, Prod.mk.injEq] at hnumber
        split at hinfo
        · simp only [Option.some.injEq, Prod.mk.injEq] at hinfo
          rw [← hinfo.1, ← hnumber.1]
        · cases hinfo
  obtain ⟨-, hmemory, hseg, hoff⟩ := programInfo_cases hinfo (Int.natCast_nonneg n)
  refine ⟨⟨by omega, ?_⟩, block.segment, block.offset, ?_, ?_⟩
  · rw [hwords, List.length_append] at hroom
    have hroom' : 3 + b.info.length ≤ 256 := hroom
    show 3 ≤ 256 - b.info.length
    omega
  · rw [Build.Stores, hwords, ← programInfo_count hinfo]
    rfl
  · rw [physical]
    omega

theorem processFile_pair (b : Build) (contents : List Byte) (p : AddressPair) :
    processFile b contents p.text = none := by
  have hmem : ':' ∈ p.text := List.mem_append_right _ List.mem_cons_self
  have hnone : decodeAddress p.text = none := by
    refine Option.eq_none_iff_forall_ne_some.mpr fun ⟨address, segment, offset⟩ h => ?_
    have hrest : ':' ∈ (strtol p.text 0).2 := mem_strtol hmem
    rw [(decodeAddress_number h).1] at hrest
    exact absurd hrest List.not_mem_nil
  unfold processFile programInfo
  simp only [hnone]

/-- The notations are read as the usage message has it exactly if the program
does not fit: then the pair is rightly refused. -/
theorem load_address_iff (b : Build) (contents : List Byte) (p : AddressPair) :
    LoadsAsDocumented b contents p ↔ ¬ProgramFits b contents p.address := by
  constructor
  · intro h hfits
    have hsome := h.pair.mpr hfits
    rw [processFile_pair] at hsome
    cases hsome
  · intro hfits
    have hnumber : ∀ text, IsNumber text p.address → processFile b contents text = none := by
      intro text htext
      refine Option.eq_none_iff_forall_ne_some.mpr fun b' hb => hfits ?_
      exact (processFile_number htext hb).1
    refine ⟨?_, ?_, fun text htext => ?_, fun text htext b' hb => ?_⟩
    · rw [processFile_pair]
      exact iff_of_false nofun hfits
    · rw [processFile_pair]
      exact nofun
    · rw [hnumber text htext]
      exact iff_of_false nofun hfits
    · exact (processFile_number htext hb).2

end Address

/-- `10c0:0000` -/
def usagePair : AddressPair where
  segment := ⟨['1', '0', 'c', '0'], 0x10c0, rfl, by decide⟩
  offset := ⟨['0', '0', '0', '0'], 0, rfl, by decide⟩

/-- `0x10c00`, which is said to be equivalent. -/
example : IsNumber ['0', 'x', '1', '0', 'c', '0', '0'] usagePair.address := ⟨by decide⟩

/-- The first pair of the usage message, and a file of one byte. -/
theorem usagePair_refused : ¬LoadsAsDocumented ⟨[], []⟩ [0] usagePair := by
  intro h
  have hsome := h.pair.mpr ⟨by decide, by decide⟩
  rw [processFile_pair] at hsome
  cases hsome

end SpKernel
