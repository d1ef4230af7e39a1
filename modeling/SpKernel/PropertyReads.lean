import SpKernel.Properties

/-!
# Property reads and the caller's buffer

`*plength` is the size of the buffer before a call of `_io_*_getprop`,
and the size of the value after it. `Respects` is the protocol of
`E_MORE_DATA`: nothing is written behind the buffer, and if the value has
no room the caller learns how much it needs.

The cases for words never compare sizes, and those for strings compare
without the terminator and return a length without it. So the protocol is
kept exactly if the value has room to begin with
(`getprop_respects_iff`), and if `strcpy`, which copies the path for the
name of a mount and goes on behind an empty string, does not write more
than that.

What is written is a string of bytes in every case, and where such a
string ends is all that the protocol asks (`storeBytes_within_iff`).
`Overhang` is the length of what `strcpy` makes of a string, its own
characters or, for an empty one, those behind it. The cases are
`respects_word_iff` and `respects_string_iff`, one for all kinds of
objects each; `getprop_oversteps` has a buffer that is overrun.
-/

namespace SpKernel

open Lib

/-! ## Values -/

/-- The properties of the size of a word. -/
def IoAny.word : IoAny → IoProp → Option Word
  | .filesystem fs, .execute => some fs.execute
  | .filesystem fs, .init => some fs.init
  | .filesystem fs, .finalize => some fs.finalize
  | .device dv, .read => some dv.read
  | .device dv, .write => some dv.write
  | .device dv, .finalize => some dv.finalize
  | .middleware md, .execute => some md.execute
  | .message msg, .buffer => some msg.buffer
  | .message msg, .cursorPosition => some msg.offsetProp
  | .message msg, .prop => some msg.offsetProp
  | .mount mp, .filesystem => some (BitVec.ofInt 32 mp.filesystem)
  | .mount mp, .device => some (BitVec.ofInt 32 mp.device)
  | _, _ => none

/-- The property can be read, and this is the size of its value: of a
string with its terminator, or of a word. -/
inductive ValueSize (mm : MemMgr) (o : IoAny) (which : IoProp) : Nat → Prop
  | string {p : Word} {s : List Byte} :
      o.string which = some p → IsString mm.mem p s → ValueSize mm o which (s.length + 1)
  | word {v : Word} : o.word which = some v → ValueSize mm o which 4

/-- The bytes behind the first `plength` at `buffer` are not changed by
these bytes. -/
def Overhang (m : Mem) (buffer : Word) (plength : Int) (bs : List Byte) : Prop :=
  ∀ (i : Nat) b, plength ≤ (i : Int) → bs[i]? = some b → m (buffer + BitVec.ofNat 32 i) = b

/-- A value of size `n` is read into a buffer of `plength` bytes. -/
structure Respects (mm : MemMgr) (o : IoAny) (which : IoProp) (buffer : Word) (plength : Int)
    (n : Nat) : Prop where
  within : ∃ st length mm', o.getprop mm which buffer plength = .ok (st, length, mm')
    ∧ ∀ x, (∀ i < plength.toNat, x ≠ buffer + BitVec.ofNat 32 i) → mm'.mem x = mm.mem x
  more : plength < n → o.getprop mm which buffer plength = .ok (.moreData, n, mm)
  again : plength < n → ∃ length mm', o.getprop mm which buffer n = .ok (.success, length, mm')

/-- The value has room in the buffer, and the bytes that are copied for a
string have as well, or are there already. -/
structure HasRoom (mm : MemMgr) (o : IoAny) (which : IoProp) (buffer : Word) (plength : Int)
    (n : Nat) : Prop where
  value : (n : Int) ≤ plength
  copied : ∀ src bs, o.string (o.copied which) = some src → Copies mm.mem src bs →
    Overhang mm.mem buffer plength bs

variable {mm : MemMgr} {o : IoAny} {which : IoProp} {buffer p src v : Word} {plength : Int}
  {bs s : List Byte} {n : Nat}

/-! ## Bytes in a buffer -/

/-- Bytes stored at `buffer` stay within it exactly if those that do not
fit are there already. -/
theorem storeBytes_within_iff {m : Mem} (hlen : bs.length ≤ 2 ^ 32) (hl : 0 ≤ plength) :
    (∀ x, (∀ i < plength.toNat, x ≠ buffer + BitVec.ofNat 32 i) →
      storeBytes m buffer bs x = m x) ↔ Overhang m buffer plength bs := by
  constructor
  · intro hall i b hi hb
    have hlt : i < bs.length := by
      by_contra hge
      rw [List.getElem?_eq_none (not_lt.mp hge)] at hb
      cases hb
    have hout : ∀ k < plength.toNat, buffer + BitVec.ofNat 32 i ≠ buffer + BitVec.ofNat 32 k := by
      intro k hk he
      have := offset_inj (by omega) (by omega) he
      omega
    rw [← hall _ hout, storeBytes_apply hlen, toNat_offset buffer (by omega), hb]
    rfl
  · intro hover x hx
    rw [storeBytes_apply hlen]
    cases hb : bs[(x - buffer).toNat]? with
    | none => rfl
    | some b =>
        have hge : plength ≤ ((x - buffer).toNat : Int) := by
          by_contra hlt
          exact hx (x - buffer).toNat (by omega) (add_offset buffer x).symm
        have := hover _ b hge hb
        rw [add_offset] at this
        exact this.symm

/-- Bytes that have room do not reach behind the buffer. -/
theorem overhang_of_le {m : Mem} (h : (bs.length : Int) ≤ plength) :
    Overhang m buffer plength bs := by
  intro i b hi hb
  rw [List.getElem?_eq_none (by omega)] at hb
  cases hb

theorem Copies.length_le {m : Mem} (h : Copies m src bs) : bs.length ≤ 2 ^ 32 := by
  obtain ⟨t, ht, rfl⟩ := h
  have := ht.length_lt
  rw [List.length_cons]
  omega

/-- Where there is a string, there are characters to copy from anywhere:
memory wraps around. -/
theorem copies_of_string {m : Mem} (hs : IsString m p s) (src : Word) : ∃ bs, Copies m src bs := by
  have hz : m (src + 1#32 + BitVec.ofNat 32 (p + BitVec.ofNat 32 s.length - (src + 1#32)).toNat)
      = 0 := by
    rw [add_offset]
    exact hs.nul
  obtain ⟨t, ht, -⟩ := IsString.exists_of_nul hz
  exact ⟨_, t, ht, rfl⟩

/-! ## The cases -/

theorem IoAny.getprop_word (ho : o.word which = some v) (hh : 0 ≤ o.handle) (hl : 0 ≤ plength) :
    o.getprop mm which buffer plength = getWord mm buffer v := by
  have hl' : ¬plength < 0 := not_lt.mpr hl
  have hh' : ¬o.handle < 0 := not_lt.mpr hh
  unfold IoAny.word at ho
  split at ho
  all_goals cases ho
  all_goals
    simp only [IoAny.handle] at hh'
    simp only [IoAny.getprop, ioFsGetprop, ioDvGetprop, ioMdGetprop, ioMsgGetprop, ioMpGetprop,
      checked, hl', hh', ↓reduceIte]

/-- A property of the size of a word is not a string. -/
theorem IoAny.word_string (ho : o.word which = some v) : o.string (o.copied which) = none := by
  unfold IoAny.word at ho
  split at ho
  all_goals cases ho
  all_goals rfl

theorem getString_copies (hs : IsString mm.mem p s) (hle : (s.length : Int) ≤ plength)
    (hc : Copies mm.mem src bs) (hap : Apart buffer bs.length src (bs.length + 1)) :
    getString mm p src buffer plength
      = .ok (.success, s.length, { mm with mem := storeBytes mm.mem buffer bs }) := by
  simp only [getString, strlen_spec hs, ok_bind, if_neg (not_lt.mpr hle), strcpy_copies hc hap]

/-- A string is never refused with its size: the terminator is missing in
the length that is returned. -/
theorem getString_more (hs : IsString mm.mem p s) :
    getString mm p src buffer plength ≠ .ok (.moreData, ((s.length + 1 : Nat) : Int), mm) := by
  intro h
  simp only [getString, strlen_spec hs, ok_bind] at h
  split at h
  · simp only [Except.ok.injEq, Prod.mk.injEq, true_and, and_true] at h
    omega
  · obtain ⟨m, -, h⟩ := bind_eq_ok.mp h
    cases h

theorem respects_string_iff (ho : o.string which = some p) (hs : IsString mm.mem p s)
    (hh : 0 ≤ o.handle) (hl : 0 ≤ plength)
    (hap : ∀ src bs, o.string (o.copied which) = some src → Copies mm.mem src bs →
      Apart buffer bs.length src (bs.length + 1)) :
    Respects mm o which buffer plength (s.length + 1)
      ↔ HasRoom mm o which buffer plength (s.length + 1) := by
  obtain ⟨src, hsrc⟩ := IoAny.copied_string ho
  have hget : o.getprop mm which buffer plength = getString mm p src buffer plength :=
    IoAny.getprop_string ho hsrc hh hl
  constructor
  · intro hr
    have hroom : ((s.length + 1 : Nat) : Int) ≤ plength := by
      by_contra hlt
      have hmore := hr.more (not_le.mp hlt)
      rw [hget] at hmore
      exact getString_more hs hmore
    refine ⟨hroom, fun src' bs hsrc' hc => ?_⟩
    rw [hsrc] at hsrc'
    cases hsrc'
    obtain ⟨st, length, mm', hok, hsame⟩ := hr.within
    rw [hget, getString_copies hs (by omega) hc (hap src bs hsrc hc)] at hok
    cases hok
    exact (storeBytes_within_iff hc.length_le hl).mp hsame
  · intro hroom
    have hle := hroom.value
    obtain ⟨bs, hc⟩ := copies_of_string hs src
    refine ⟨⟨_, _, _, hget.trans (getString_copies hs (by omega) hc (hap src bs hsrc hc)), ?_⟩,
      fun hlt => absurd hle (not_le.mpr hlt), fun hlt => absurd hle (not_le.mpr hlt)⟩
    exact (storeBytes_within_iff hc.length_le hl).mpr (hroom.copied src bs hsrc hc)

theorem respects_word_iff (ho : o.word which = some v) (hh : 0 ≤ o.handle) (hl : 0 ≤ plength) :
    Respects mm o which buffer plength 4 ↔ HasRoom mm o which buffer plength 4 := by
  have hget : o.getprop mm which buffer plength = getWord mm buffer v :=
    IoAny.getprop_word ho hh hl
  constructor
  · intro hr
    refine ⟨?_, fun src bs hsrc => ?_⟩
    · by_contra hlt
      have hmore := hr.more (not_le.mp hlt)
      rw [hget] at hmore
      cases hmore
    · rw [IoAny.word_string ho] at hsrc
      cases hsrc
  · intro hroom
    have hle : (4 : Int) ≤ plength := hroom.value
    refine ⟨⟨_, _, _, hget, ?_⟩, fun hlt => absurd hroom.value (not_le.mpr hlt),
      fun hlt => absurd hroom.value (not_le.mpr hlt)⟩
    rw [store_eq_storeBytes _ _ _ (by decide)]
    refine (storeBytes_within_iff ?_ hl).mpr (overhang_of_le ?_)
    · rw [wordBytes_length]
      decide
    · rw [wordBytes_length]
      exact hle

/-- The protocol is kept exactly if the value has room in the buffer to
begin with, and what is copied does not reach further. The buffer and the
characters that are copied must not overlap, as `strcpy` demands. -/
theorem getprop_respects_iff (hh : 0 ≤ o.handle) (hl : 0 ≤ plength) (hn : ValueSize mm o which n)
    (hap : ∀ src bs, o.string (o.copied which) = some src → Copies mm.mem src bs →
      Apart buffer bs.length src (bs.length + 1)) :
    Respects mm o which buffer plength n ↔ HasRoom mm o which buffer plength n := by
  cases hn with
  | string ho hs => exact respects_string_iff ho hs hh hl hap
  | word ho => exact respects_word_iff ho hh hl

/-- A filesystem with the name `fat`. -/
def namedFat : IoAny := .filesystem ⟨1, 0x200000, 0x30000, 0, 0⟩

theorem namedFat_copies (hsrc : namedFat.string (namedFat.copied .name) = some src)
    (hc : Copies twoNames.mem src bs) : src = 0x200000 ∧ bs = [0x66, 0x61, 0x74] := by
  cases hsrc
  have hfat : IsString twoNames.mem 0x200000 [0x66, 0x61, 0x74] := by decide
  exact ⟨rfl, hc.eq_of_ne hfat (List.cons_ne_nil _ _)⟩

/-- The name has room in four bytes. -/
theorem getprop_respects_fat : Respects twoNames namedFat .name 0x201000 4 4 := by
  have hfat : IsString twoNames.mem 0x200000 [0x66, 0x61, 0x74] := by decide
  refine (getprop_respects_iff (by decide) (by decide) (.string (p := 0x200000) rfl hfat)
    fun src bs hsrc hc => ?_).mpr ⟨by decide, fun src bs hsrc hc => ?_⟩
  · obtain ⟨rfl, rfl⟩ := namedFat_copies hsrc hc
    unfold Apart
    decide
  · obtain ⟨rfl, rfl⟩ := namedFat_copies hsrc hc
    exact overhang_of_le (by decide)

/-- In three bytes it has no room for the terminator, and the call is a
success. The routine of a device is written to a buffer of no bytes. -/
theorem getprop_oversteps :
    (∃ mm, namedFat.getprop twoNames .name 0x201000 3 = .ok (.success, 3, mm))
    ∧ ¬Respects twoNames namedFat .name 0x201000 3 4
    ∧ (∃ mm, (IoAny.device ⟨1, 0, 0x12345678, 0, 0⟩).getprop twoNames .read 0x201000 0
        = .ok (.success, 4, mm) ∧ mm.mem 0x201000 = 0x78)
    ∧ ¬Respects twoNames (.device ⟨1, 0, 0x12345678, 0, 0⟩) .read 0x201000 0 4 := by
  have hfat : IsString twoNames.mem 0x200000 [0x66, 0x61, 0x74] := by decide
  have hname : ∃ mm, namedFat.getprop twoNames .name 0x201000 3 = .ok (.success, 3, mm) := by
    have hget : namedFat.getprop twoNames .name 0x201000 3
        = getString twoNames 0x200000 0x200000 0x201000 3 := rfl
    rw [hget]
    refine ⟨_, getString_copies hfat (by decide) ⟨[0x61, 0x74], by decide, rfl⟩ ?_⟩
    unfold Apart
    decide
  refine ⟨hname, fun hr => ?_, ⟨_, rfl, by decide⟩, fun hr => ?_⟩
  · obtain ⟨mm, hget⟩ := hname
    have hmore := hr.more (by decide)
    rw [hget] at hmore
    cases hmore
  · have hmore := hr.more (by decide)
    cases hmore

end SpKernel
