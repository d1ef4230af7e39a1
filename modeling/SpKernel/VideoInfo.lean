import SpKernel.Strings

/-!
# The block of video information (`video.c`)

`video_convertVBEInfo` puts the mode list and four strings of the BIOS
into a block of 512 bytes, one behind the other. One counter is for all
of them, the bytes that are still free, and where something is put is
computed from it.

What is copied is not bounded by the counter. The mode list is cut one
mode too late, and the counter wraps; a string is cut after all of it has
been copied; and `strcpy` copies the NUL of an empty string and goes on
with what is behind it. `StringsFit` says when the strings have room
nevertheless. Then the counter is the room there is (`BlockReady`), from
one string to the next (`copyStrings_fit`); otherwise a write leaves the
block, or a pointer is to no string in it (`copyStrings_unfit`).

The memory has a log of its writes, so that leaving the block is a
property of the call and not of what was there before. One string is a
pointer that is stored in the header, a copy and a NUL (`copyString_eq`);
`FieldOrFree` is where these writes go, and so what a later string cannot
disturb of an earlier one. A string that has no room is written all the
same, up to the byte behind the block and further (`copyString_overrun`).

This module has the strings. The mode list, the header and the function
as a whole are in `VideoBlock`.
-/

namespace SpKernel

open Lib

/-! ## The source -/

/-- `VBEInfo`; what is not used here is left out. -/
structure VBEInfo where
  version : Half
  oem : Word
  capabilities : Word
  videoModes : Word
  videoMemory : Half
  softwareRev : Half
  vendor : Word
  productName : Word
  productRev : Word

/-- `E_VIDEO_SUCCESS`, `E_VIDEO_ARGNULL`, `E_VIDEO_INFO_TRUNCATED` -/
inductive VideoError where
  | success
  | argNull
  | infoTruncated
deriving DecidableEq

def vbePtr (ptr : Word) : Word := (ptr >>> 16) * 0x10 + (ptr &&& 0xFFFF)

/-- The 16-bit number at an address. -/
def readHalf (m : Mem) (a : Word) : Half := m (a + 1#32) ++ m a

/-- `VBE_MODELIST_TERMINATOR` -/
def modelistTerminator : Half := 0xFFFF

/-- `sizeof(struct VideoInfo_s)` -/
def videoInfoHeader : Nat := 40

def modesMax : Nat := (512 - 1 - videoInfoHeader) / 2

/-- The loop over the mode list. -/
def copyModes (modes modePtr freebytes : Word) (modeCount : Nat) (t : Logged) :
    Word × Nat × Logged :=
  let mode := readHalf t.mem modePtr
  if mode = modelistTerminator then (freebytes, modeCount, t)
  else
    let t := t.store 2 (modes + BitVec.ofNat 32 (2 * modeCount)) mode
    if modeCount + 1 ≤ modesMax then
      copyModes modes (modePtr + 2#32) (freebytes - 2#32) (modeCount + 1) t
    else (freebytes - 2#32, modeCount + 1, t)
termination_by modesMax - modeCount

/-- A round of the loop over the strings. -/
def copyString (videoInfo sptr source freebytes : Word) (t : Logged) :
    Except Fault (Word × Logged) := do
  let t := t.store 4 sptr (videoInfo + (512#32 - freebytes))
  let len ← strlen t.mem source
  let slen := if freebytes < BitVec.ofNat 32 len then freebytes - 1#32 else BitVec.ofNat 32 len
  let t ← strcpyLogged (2 ^ 32) t (load32 t.mem sptr) source
  let t := t.store 1 (load32 t.mem sptr + slen) (0 : Byte)
  return (freebytes - (slen + 1#32), t)

/-- The loop over the strings, each with the place of its pointer. -/
def copyStrings (videoInfo : Word) :
    List (Word × Word) → Word → Logged → Except Fault (VideoError × Logged)
  | [], _, t => .ok (.success, t)
  | (sptr, source) :: strings, freebytes, t =>
      if freebytes = 1#32 then .ok (.infoTruncated, t)
      else do
        let (freebytes, t) ← copyString videoInfo sptr source freebytes t
        copyStrings videoInfo strings freebytes t

/-- What is stored in front of the loops. -/
def convertHeader (vbeInfo : VBEInfo) (videoInfo : Word) (t : Logged) : Logged :=
  let t := t.store 2 (videoInfo + 4#32) vbeInfo.version
  let t := t.store 2 (videoInfo + 6#32) vbeInfo.softwareRev
  let t := t.store 2 (videoInfo + 8#32) vbeInfo.videoMemory
  let t := t.store 4 (videoInfo + 12#32) vbeInfo.capabilities
  let t := t.store 4 (videoInfo + 20#32) (videoInfo + BitVec.ofNat 32 videoInfoHeader)
  let emptystr := videoInfo + 511#32
  let t := t.store 1 emptystr (0 : Byte)
  let t := t.store 4 (videoInfo + 24#32) emptystr
  let t := t.store 4 (videoInfo + 28#32) emptystr
  let t := t.store 4 (videoInfo + 32#32) emptystr
  t.store 4 (videoInfo + 36#32) emptystr

def videoConvertVBEInfo (vbeInfo : Option VBEInfo) (videoInfo : Word) (t : Logged) :
    Except Fault (VideoError × Logged) :=
  match vbeInfo with
  | none => .ok (.argNull, t)
  | some vbeInfo =>
      if videoInfo = 0 then .ok (.argNull, t)
      else
        let t := convertHeader vbeInfo videoInfo t
        let freebytes := BitVec.ofNat 32 (512 - 1 - videoInfoHeader)
        let (freebytes, modeCount, t) := copyModes (videoInfo + BitVec.ofNat 32 videoInfoHeader)
          (vbePtr vbeInfo.videoModes) freebytes 0 t
        let t := t.store 4 (videoInfo + 16#32) (BitVec.ofNat 32 modeCount)
        copyStrings videoInfo
          [(videoInfo + 24#32, vbePtr vbeInfo.oem), (videoInfo + 28#32, vbePtr vbeInfo.vendor),
            (videoInfo + 32#32, vbePtr vbeInfo.productName),
            (videoInfo + 36#32, vbePtr vbeInfo.productRev)] freebytes t

/-! ## The block as it should be -/

/-- The modes are at an address, and the terminator behind them. -/
def IsModeList (m : Mem) : Word → List Half → Prop
  | a, [] => readHalf m a = modelistTerminator
  | a, mode :: modes =>
      readHalf m a = mode ∧ mode ≠ modelistTerminator ∧ IsModeList m (a + 2#32) modes

/-- A source string, and the string that starts at its second byte: that is
what `strcpy` goes through. -/
structure Source where
  addr : Word
  text : List Byte
  behind : List Byte

/-- The source is in memory, and not in the block. -/
structure Source.At (videoInfo : Word) (m : Mem) (src : Source) : Prop where
  text : IsString m src.addr src.text
  behind : IsString m (src.addr + 1#32) src.behind
  apart : Apart videoInfo 512 src.addr (src.behind.length + 2)

/-- The bytes `strcpy` copies. -/
def Source.copied (src : Source) : Nat := src.behind.length + 1

/-- The pointer at `videoInfo + field` is to a string in the block, a
beginning of the source. -/
def StringInBlock (videoInfo : Word) (m : Mem) (field : Nat) (src : Source) : Prop :=
  ∃ p s, load32 m (videoInfo + BitVec.ofNat 32 field) = p ∧ IsString m p s ∧ s <+: src.text
    ∧ (p - videoInfo).toNat + s.length < 512

/-- All that is written is in the block, and the modes and the strings are
there. -/
structure BlockRight (videoInfo : Word) (modes : List Half) (srcs : List Source) (t : Logged) :
    Prop where
  inside : ∀ x, t.written x = true → (x - videoInfo).toNat < 512
  count : (load32 t.mem (videoInfo + 16#32)).toNat ≤ modes.length
  modes : ∀ i (h : i < modes.length), i < (load32 t.mem (videoInfo + 16#32)).toNat →
    readHalf t.mem (load32 t.mem (videoInfo + 20#32) + BitVec.ofNat 32 (2 * i)) = modes[i]
  strings : ∀ i src, srcs[i]? = some src → StringInBlock videoInfo t.mem (24 + 4 * i) src

/-- The mode list and the strings are where the BIOS says, and not in the
block. -/
structure SourcesAt (info : VBEInfo) (videoInfo : Word) (m : Mem) (modes : List Half)
    (srcs : List Source) : Prop where
  block : videoInfo ≠ 0
  list : IsModeList m (vbePtr info.videoModes) modes
  apart : Apart videoInfo 512 (vbePtr info.videoModes) (2 * (modes.length + 1))
  addrs : srcs.map Source.addr
    = [vbePtr info.oem, vbePtr info.vendor, vbePtr info.productName, vbePtr info.productRev]
  sources : ∀ src ∈ srcs, src.At videoInfo m

/-- The function returns, with the block as it should be. -/
def ConvertedRight (info : VBEInfo) (videoInfo : Word) (m : Mem) (modes : List Half)
    (srcs : List Source) : Prop :=
  ∃ error t, videoConvertVBEInfo (some info) videoInfo (.start m) = .ok (error, t)
    ∧ BlockRight videoInfo modes srcs t

/-- There is room for the strings in `f` bytes. A string is shorter than what
is free, and only the last one may leave nothing. What is copied of an empty
one is not longer than that; if it gets to the last byte of the block, there is
no empty string for the sources that are left (`clean`). -/
def StringsFit : Prop → Nat → List Source → Prop
  | _, _, [] => True
  | _, 0, _ :: _ => False
  | clean, 1, _ :: _ => clean
  | clean, f + 2, src :: srcs => src.copied ≤ f + 2 ∧ src.text.length < f + 2
      ∧ StringsFit (clean ∧ (src.text = [] → src.copied < f + 2))
        (f + 2 - (src.text.length + 1)) srcs

section VideoInfo

variable {videoInfo : Word} {t t' : Logged} {src : Source} {srcs : List Source}
  {modes : List Half} {f k : Nat} {clean : Prop} {a : Word}

/-! ## Bytes of the block -/

theorem readHalf_within {S : Word → Prop} (h : WritesWithin S t t') {j : Nat}
    (hS : ∀ i, j ≤ i → i < j + 2 → ¬S (videoInfo + BitVec.ofNat 32 i)) :
    readHalf t'.mem (videoInfo + BitVec.ofNat 32 j)
      = readHalf t.mem (videoInfo + BitVec.ofNat 32 j) := by
  have hone := h.mem _ (hS (j + 1) (by omega) (by omega))
  rw [BitVec.ofNat_add, ← BitVec.add_assoc] at hone
  rw [readHalf, readHalf, hone, h.mem _ (hS j (by omega) (by omega))]

theorem Apart.outside {n j : Nat} (hap : Apart videoInfo 512 a n) (hj : j < n) {lo hi : Nat}
    (hhi : hi ≤ 512) : ¬Between videoInfo lo hi (a + BitVec.ofNat 32 j) := fun h =>
  hap (a + BitVec.ofNat 32 j - videoInfo).toNat (h.2.trans_le hhi) j hj (add_offset ..)

/-! ## The sources -/

/-- The source is empty, or it is the first byte and what is behind it. -/
theorem Source.At.text_cases {m : Mem} (hat : src.At videoInfo m) :
    src.text = [] ∧ m src.addr = 0
      ∨ src.text = m src.addr :: src.behind ∧ m src.addr ≠ 0 := by
  have htext := hat.text
  cases h : src.text with
  | nil =>
      rw [h] at htext
      exact .inl ⟨rfl, htext⟩
  | cons c s =>
      rw [h] at htext
      obtain ⟨rfl, hne, hs⟩ := htext
      exact .inr ⟨by rw [hs.unique hat.behind], hne⟩

theorem Source.At.length_le {m : Mem} (hat : src.At videoInfo m) :
    src.text.length ≤ src.copied := by
  rcases hat.text_cases with ⟨h, -⟩ | ⟨h, -⟩ <;> rw [h, Source.copied]
  · exact Nat.zero_le _
  · rw [List.length_cons]

theorem Source.At.within (hat : src.At videoInfo t.mem) {lo hi : Nat} (hhi : hi ≤ 512)
    (h : WritesWithin (Between videoInfo lo hi) t t') : src.At videoInfo t'.mem where
  text := hat.text.congr fun i hi => by
    have hlen := hat.length_le
    unfold Source.copied at hlen
    exact h.mem _ (hat.apart.outside (by omega) hhi)
  behind := hat.behind.congr fun i hi => by
    rw [add_ofNat_succ]
    exact h.mem _ (hat.apart.outside (by omega) hhi)
  apart := hat.apart

/-! ## One string -/

/-- The pointer is set, to the first byte that is free. -/
def withPointer (videoInfo : Word) (k f : Nat) (t : Logged) : Logged :=
  t.store 4 (videoInfo + BitVec.ofNat 32 k) (videoInfo + BitVec.ofNat 32 (512 - f))

/-- The string is copied, and ended. -/
def withString (videoInfo : Word) (k f : Nat) (src : Source) (t : Logged) : Logged :=
  ((withPointer videoInfo k f t).storeBytes (videoInfo + BitVec.ofNat 32 (512 - f))
    (t.mem src.addr :: src.behind)).store 1
      (videoInfo + BitVec.ofNat 32 (512 - f + src.text.length)) (0 : Byte)

/-- There is room for a pointer in the header, and for strings behind it. -/
structure FieldRoom (k f : Nat) : Prop where
  field : 24 ≤ k ∧ k + 4 ≤ 40
  free : f ≤ 471

theorem withPointer_within (videoInfo : Word) (t : Logged) (hroom : FieldRoom k f) :
    WritesWithin (Between videoInfo k (k + 4)) t (withPointer videoInfo k f t) :=
  store_between (by have := hroom.field; omega) (by omega)

theorem withPointer_load32 (videoInfo : Word) (k f : Nat) (t : Logged) :
    load32 (withPointer videoInfo k f t).mem (videoInfo + BitVec.ofNat 32 k)
      = videoInfo + BitVec.ofNat 32 (512 - f) :=
  load32_store ..

theorem copied_within (hroom : FieldRoom k f) (hcopied : src.copied ≤ f) (b : Byte) :
    WritesWithin (Between videoInfo (512 - f) (512 - f + src.copied)) t
      (t.storeBytes (videoInfo + BitVec.ofNat 32 (512 - f)) (b :: src.behind)) := by
  have hfree := hroom.free
  unfold Source.copied at hcopied ⊢
  refine (t.storeBytes_within _ ?_).mono fun x hx => ?_
  · rw [List.length_cons]
    omega
  · rw [List.length_cons] at hx
    exact (sub_add_ofNat (by omega) (by omega)).mp hx

theorem freebytes_sub (hf : f ≤ 471) :
    videoInfo + (512#32 - BitVec.ofNat 32 f) = videoInfo + BitVec.ofNat 32 (512 - f) := by
  refine congrArg (videoInfo + ·) (BitVec.eq_of_toNat_eq ?_)
  simp only [BitVec.toNat_sub, BitVec.toNat_ofNat]
  omega

theorem freebytes_ne_one (hf : f + 2 ≤ 471) : BitVec.ofNat 32 (f + 2) ≠ 1#32 := fun he => by
  have hval := congrArg BitVec.toNat he
  simp only [BitVec.toNat_ofNat] at hval
  omega

/-- A string that has room is copied, and cut nowhere. -/
theorem copyString_eq (hroom : FieldRoom k f) (hat : src.At videoInfo t.mem)
    (hcopied : src.copied ≤ f) :
    copyString videoInfo (videoInfo + BitVec.ofNat 32 k) src.addr (BitVec.ofNat 32 f) t
      = .ok (BitVec.ofNat 32 f - (BitVec.ofNat 32 src.text.length + 1#32),
          withString videoInfo k f src t) := by
  have hfree := hroom.free
  have hfield := hroom.field
  have hlen := hat.length_le
  have hpointer := withPointer_within videoInfo t hroom
  have hat' := hat.within (by omega) hpointer
  have hfirst : (withPointer videoInfo k f t).mem src.addr = t.mem src.addr := by
    have hout : ¬Between videoInfo k (k + 4) (src.addr + BitVec.ofNat 32 0) :=
      hat.apart.outside (by omega) (by omega)
    rw [BitVec.add_zero] at hout
    exact hpointer.mem _ hout
  have hap : Apart (videoInfo + BitVec.ofNat 32 (512 - f)) (src.behind.length + 1) src.addr
      (src.behind.length + 2) := fun i hi j hj => by
    unfold Source.copied at hcopied
    rw [add_ofNat_ofNat]
    exact hat.apart _ (by omega) j hj
  have hcopy := strcpyLogged_spec hat'.behind
    (show src.behind.length < 2 ^ 32 from hat'.behind.length_lt) hap
  rw [hfirst] at hcopy
  -- the pointer is read again behind the copy
  have hagain : load32 ((withPointer videoInfo k f t).storeBytes
      (videoInfo + BitVec.ofNat 32 (512 - f)) (t.mem src.addr :: src.behind)).mem
        (videoInfo + BitVec.ofNat 32 k) = videoInfo + BitVec.ofNat 32 (512 - f) :=
    (load32_within (copied_within hroom hcopied _) fun i hi hi' => by
      rw [between_offset (by omega)]
      omega).trans (withPointer_load32 ..)
  have hslen : ¬BitVec.ofNat 32 f < BitVec.ofNat 32 src.text.length := by
    simp only [BitVec.lt_def, BitVec.toNat_ofNat]
    omega
  unfold copyString
  rw [freebytes_sub hfree]
  show (strlen (withPointer videoInfo k f t).mem src.addr >>= _) = _
  rw [strlen_spec hat'.text, ok_bind]
  show (strcpyLogged (2 ^ 32) (withPointer videoInfo k f t)
    (load32 (withPointer videoInfo k f t).mem _) src.addr >>= _) = _
  rw [withPointer_load32, hcopy, ok_bind, hagain, if_neg hslen, add_ofNat_ofNat]
  rfl

/-- The pointer, or the bytes that were free. -/
def FieldOrFree (videoInfo : Word) (k f : Nat) (x : Word) : Prop :=
  Between videoInfo k (k + 4) x ∨ Between videoInfo (512 - f) 512 x

theorem withString_within (videoInfo : Word) (t : Logged) (hroom : FieldRoom k f)
    (hcopied : src.copied ≤ f) (hlen : src.text.length < f) :
    WritesWithin (FieldOrFree videoInfo k f) t (withString videoInfo k f src t) := by
  have hfree := hroom.free
  refine ((withPointer_within videoInfo t hroom).mono fun x hx => .inl hx).trans (.trans
    ((copied_within hroom hcopied _).mono fun x hx => .inr ?_)
    ((store_between (by omega) (by omega)).mono fun x hx => .inr ?_))
  · exact ⟨hx.1, hx.2.trans_le (by omega)⟩
  · exact ⟨le_trans (by omega) hx.1, hx.2.trans_le (by omega)⟩

theorem withString_load32 (hroom : FieldRoom k f) (hcopied : src.copied ≤ f)
    (hlen : src.text.length < f) :
    load32 (withString videoInfo k f src t).mem (videoInfo + BitVec.ofNat 32 k)
      = videoInfo + BitVec.ofNat 32 (512 - f) := by
  have hfree := hroom.free
  have hfield := hroom.field
  have hout : ∀ i, k ≤ i → i < k + 4 → ∀ hi,
      ¬Between videoInfo (512 - f) hi (videoInfo + BitVec.ofNat 32 i) := fun i hi hi' h => by
    rw [between_offset (by omega)]
    omega
  refine (load32_within (store_between (by omega) (by omega)) fun i hi hi' h => ?_).trans
    ((load32_within (copied_within hroom hcopied _) fun i hi hi' => hout i hi hi' _).trans
      (withPointer_load32 ..))
  exact hout i hi hi' _ ⟨le_trans (by omega) h.1, h.2⟩

theorem withString_apply (videoInfo : Word) (hroom : FieldRoom k f) (hcopied : src.copied ≤ f)
    (hlen : src.text.length < f) {j : Nat} (hj : j < f) :
    (withString videoInfo k f src t).mem (videoInfo + BitVec.ofNat 32 (512 - f + j))
      = if j = src.text.length then 0
        else ((t.mem src.addr :: src.behind)[j]?).getD
          (t.mem (videoInfo + BitVec.ofNat 32 (512 - f + j))) := by
  have hfree := hroom.free
  have hfield := hroom.field
  unfold Source.copied at hcopied
  have hsame : videoInfo + BitVec.ofNat 32 (512 - f + j)
      = videoInfo + BitVec.ofNat 32 (512 - f + src.text.length) ↔ j = src.text.length :=
    ⟨fun h => by have := offset_inj (by omega) (by omega) h; omega, fun h => by rw [h]⟩
  rw [withString, Logged.store_mem, store_byte, Logged.storeBytes_mem,
    storeBytes_apply (by rw [List.length_cons]; omega), ← add_ofNat_ofNat,
    toNat_offset _ (by omega), add_ofNat_ofNat, (withPointer_within videoInfo t hroom).mem]
  · exact if_congr hsame rfl rfl
  · rw [between_offset (by omega)]
    omega

theorem withString_text (hroom : FieldRoom k f) (hat : src.At videoInfo t.mem)
    (hcopied : src.copied ≤ f) (hlen : src.text.length < f) :
    IsString (withString videoInfo k f src t).mem (videoInfo + BitVec.ofNat 32 (512 - f))
      src.text := by
  refine .of_bytes (fun i hi => ⟨?_, (hat.text.get i hi).2⟩) ?_
  · rw [add_ofNat_ofNat, withString_apply _ hroom hcopied hlen (by omega), if_neg (by omega)]
    rcases hat.text_cases with ⟨h, -⟩ | ⟨h, -⟩
    · rw [h] at hi
      exact absurd hi (Nat.not_lt_zero _)
    · rw [← h, List.getElem?_eq_getElem hi]
      rfl
  · rw [add_ofNat_ofNat, withString_apply _ hroom hcopied hlen hlen, if_pos rfl]

/-- The last byte of the block is kept, but for the end of a copy that is
longer than its source. -/
theorem withString_last (hroom : FieldRoom k f) (hat : src.At videoInfo t.mem)
    (hcopied : src.copied ≤ f) (hlen : src.text.length + 1 < f) :
    (withString videoInfo k f src t).mem (videoInfo + 511#32) = 0
      ↔ t.mem (videoInfo + 511#32) = 0 ∧ (src.text = [] → src.copied < f) := by
  have hfree := hroom.free
  have hlast : 512 - f + (f - 1) = 511 := by omega
  have happly := withString_apply (t := t) (j := f - 1) videoInfo hroom hcopied (by omega)
    (by omega)
  rw [hlast, if_neg (by omega)] at happly
  rw [happly]
  unfold Source.copied at hcopied ⊢
  by_cases hshort : src.behind.length + 1 < f
  · rw [List.getElem?_eq_none (by rw [List.length_cons]; omega)]
    exact (and_iff_left fun _ => hshort).symm
  · obtain ⟨n, rfl⟩ : ∃ n, f = n + 2 := ⟨f - 2, by omega⟩
    have hn : n < src.behind.length := by omega
    rcases hat.text_cases with ⟨h, -⟩ | ⟨h, -⟩
    · have hne := (hat.behind.get n hn).2
      rw [show n + 2 - 1 = n + 1 by omega, List.getElem?_cons_succ, List.getElem?_eq_getElem hn]
      exact iff_of_false hne fun hc => hshort (hc.2 h)
    · rw [h, List.length_cons] at hlen
      omega

/-! ## A string without room -/

theorem copyString_cases {sptr source freebytes : Word} {result : Word × Logged}
    (h : copyString videoInfo sptr source freebytes t = .ok result) :
    ∃ copy, strcpyLogged (2 ^ 32) (t.store 4 sptr (videoInfo + (512#32 - freebytes)))
        (videoInfo + (512#32 - freebytes)) source = .ok copy ∧ Extends copy result.2 := by
  obtain ⟨len, -, h⟩ := bind_eq_ok.mp h
  obtain ⟨copy, hcopy, h⟩ := bind_eq_ok.mp h
  cases h
  rw [Logged.store_mem, load32_store] at hcopy
  exact ⟨copy, hcopy, copy.store_extends _ _ _⟩

theorem copyString_extends {sptr source freebytes : Word} {result : Word × Logged}
    (h : copyString videoInfo sptr source freebytes t = .ok result) : Extends t result.2 := by
  obtain ⟨copy, hcopy, hext⟩ := copyString_cases h
  exact (t.store_extends _ _ _).trans ((strcpyLogged_extends hcopy).trans hext)

theorem copyStrings_extends : ∀ {strings : List (Word × Word)} {freebytes : Word} {t : Logged}
    {result : VideoError × Logged}, copyStrings videoInfo strings freebytes t = .ok result →
    Extends t result.2
  | [], _, _, _, h => by
      cases h
      exact fun _ hx => hx
  | (sptr, source) :: strings, freebytes, t, result, h => by
      rw [copyStrings] at h
      split at h
      · cases h
        exact fun _ hx => hx
      · obtain ⟨_, hcopy, hrest⟩ := bind_eq_ok.mp h
        exact (copyString_extends hcopy).trans (copyStrings_extends hrest)

/-- The first byte of a source is copied, whatever the counter is. -/
theorem copyStrings_first {sptr source freebytes : Word} {strings : List (Word × Word)}
    {result : VideoError × Logged} (hfree : freebytes ≠ 1#32)
    (h : copyStrings videoInfo ((sptr, source) :: strings) freebytes t = .ok result) :
    result.2.written (videoInfo + (512#32 - freebytes)) = true := by
  rw [copyStrings, if_neg hfree] at h
  obtain ⟨_, hcopy, hrest⟩ := bind_eq_ok.mp h
  obtain ⟨copy, hcopy, hext⟩ := copyString_cases hcopy
  have hfirst := strcpyLogged_reaches (k := 0) hcopy (fun i hi => absurd hi (Nat.not_lt_zero i))
    fun i hi => absurd hi (Nat.not_lt_zero i)
  rw [BitVec.add_zero] at hfirst
  exact copyStrings_extends hrest _ (hext _ hfirst)

/-- What is copied is too long, or it leaves no byte for the NUL. -/
theorem copyString_overrun (hroom : FieldRoom k f) (hat : src.At videoInfo t.mem)
    (hlong : f < src.copied ∨ src.text.length = f) {result : Word × Logged}
    (h : copyString videoInfo (videoInfo + BitVec.ofNat 32 k) src.addr (BitVec.ofNat 32 f) t
      = .ok result) : result.2.written (videoInfo + 512#32) = true := by
  have hfree := hroom.free
  have hfield := hroom.field
  have hend : 512 - f + f = 512 := by omega
  rcases Nat.lt_or_ge f src.copied with hover | hfits
  · obtain ⟨copy, hcopy, hext⟩ := copyString_cases h
    rw [freebytes_sub hfree] at hcopy
    refine hext _ ?_
    unfold Source.copied at hover
    have hpointer := withPointer_within videoInfo t hroom
    have hreach := strcpyLogged_reaches (k := f) hcopy (fun i hi => ?_) fun i hi j hj => ?_
    · rwa [add_ofNat_ofNat, hend] at hreach
    · have hkeep := hpointer.mem _ (hat.apart.outside (j := i + 1) (by omega) (by omega))
      have hget := hat.behind.get i (by omega)
      rw [add_ofNat_succ] at hget
      exact (hkeep.trans hget.1).trans_ne hget.2
    · rw [add_ofNat_ofNat]
      exact hat.apart _ (by omega) j (by omega)
  · have hlen : src.text.length = f := hlong.resolve_left (Nat.not_lt.mpr hfits)
    rw [copyString_eq hroom hat hfits] at h
    cases h
    refine Logged.store_written.mpr (.inl ?_)
    rw [hlen, hend, BitVec.sub_self]
    exact Nat.one_pos

/-! ## One string after the other -/

/-- The sources with the places of their pointers, from `videoInfo + k` on. -/
def fieldsFrom (videoInfo : Word) : Nat → List Word → List (Word × Word)
  | _, [] => []
  | k, source :: sources =>
      (videoInfo + BitVec.ofNat 32 k, source) :: fieldsFrom videoInfo (k + 4) sources

/-- The state in front of the strings `srcs`, with `f` bytes free. The last
byte is zero as long as the block is `clean`. -/
structure BlockReady (videoInfo : Word) (k f : Nat) (clean : Prop) (srcs : List Source)
    (t : Logged) : Prop where
  fields : 24 ≤ k ∧ k + 4 * srcs.length ≤ 40
  free : f ≤ 471
  sources : ∀ src ∈ srcs, src.At videoInfo t.mem
  empty : ∀ i < srcs.length,
    load32 t.mem (videoInfo + BitVec.ofNat 32 (k + 4 * i)) = videoInfo + 511#32
  last : 1 ≤ f → (t.mem (videoInfo + 511#32) = 0 ↔ clean)

theorem BlockReady.room (h : BlockReady videoInfo k f clean (src :: srcs) t) : FieldRoom k f := by
  have hfields := h.fields
  rw [List.length_cons] at hfields
  exact ⟨by omega, h.free⟩

theorem not_fieldOrFree {i : Nat} (hi : i < 512) (hfield : i < k ∨ k + 4 ≤ i)
    (hfree : i < 512 - f) : ¬FieldOrFree videoInfo k f (videoInfo + BitVec.ofNat 32 i) := by
  rw [FieldOrFree, between_offset (by omega), between_offset (by omega)]
  omega

/-- After a string that has room, the block is ready for the next. -/
theorem BlockReady.next (h : BlockReady videoInfo k f clean (src :: srcs) t)
    (hcopied : src.copied ≤ f) (hlen : src.text.length < f) :
    BlockReady videoInfo (k + 4) (f - (src.text.length + 1))
      (clean ∧ (src.text = [] → src.copied < f)) srcs (withString videoInfo k f src t) := by
  have hroom := h.room
  have hfields := h.fields
  have hfree := h.free
  have hwithin := withString_within videoInfo t hroom hcopied hlen
  rw [List.length_cons] at hfields
  refine ⟨by omega, by omega, fun s hs => ?_, fun i hi => ?_, fun hf => ?_⟩
  · have hblock : WritesWithin (Between videoInfo 0 512) t (withString videoInfo k f src t) :=
      hwithin.mono fun x hx => hx.elim (fun hx => ⟨Nat.zero_le _, hx.2.trans_le (by omega)⟩)
        fun hx => ⟨Nat.zero_le _, hx.2⟩
    exact (h.sources s (.tail _ hs)).within (le_refl 512) hblock
  · have hkeep := h.empty (i + 1) (by rw [List.length_cons]; omega)
    rw [show k + 4 * (i + 1) = k + 4 + 4 * i by omega] at hkeep
    exact (load32_within hwithin fun j hj hj' =>
      not_fieldOrFree (by omega) (by omega) (by omega)).trans hkeep
  · rw [withString_last hroom (h.sources src (.head _)) hcopied (by omega), h.last (by omega)]

theorem copyString_next (h : BlockReady videoInfo k f clean (src :: srcs) t)
    (hcopied : src.copied ≤ f) (hlen : src.text.length < f) :
    copyString videoInfo (videoInfo + BitVec.ofNat 32 k) src.addr (BitVec.ofNat 32 f) t
      = .ok (BitVec.ofNat 32 (f - (src.text.length + 1)), withString videoInfo k f src t) := by
  have hfree := h.free
  rw [copyString_eq h.room (h.sources src (.head _)) hcopied]
  refine congrArg (fun free => Except.ok (free, _)) (BitVec.eq_of_toNat_eq ?_)
  simp only [BitVec.toNat_sub, BitVec.toNat_add, BitVec.toNat_ofNat]
  omega

/-- The pointers of the strings, or the bytes that were free. -/
def FieldsOrFree (videoInfo : Word) (k n f : Nat) (x : Word) : Prop :=
  Between videoInfo k (k + 4 * n) x ∨ Between videoInfo (512 - f) 512 x

/-- A string that is copied stays where the later ones are not written. -/
theorem stringInBlock_of_within (h : BlockReady videoInfo k f clean (src :: srcs) t)
    (hcopied : src.copied ≤ f) (hlen : src.text.length < f)
    (hrest : WritesWithin (FieldsOrFree videoInfo (k + 4) srcs.length (f - (src.text.length + 1)))
      (withString videoInfo k f src t) t') : StringInBlock videoInfo t'.mem k src := by
  have hroom := h.room
  have hfields := h.fields
  have hfree := h.free
  have hkeep : ∀ i < 512 - f + src.text.length + 1, i < k + 4 ∨ 512 - f ≤ i →
      t'.mem (videoInfo + BitVec.ofNat 32 i)
        = (withString videoInfo k f src t).mem (videoInfo + BitVec.ofNat 32 i) := by
    intro i hi hcases
    rw [List.length_cons] at hfields
    refine hrest.mem _ ?_
    rw [FieldsOrFree, between_offset (by omega), between_offset (by omega)]
    omega
  have hpointer : load32 t'.mem (videoInfo + BitVec.ofNat 32 k)
      = videoInfo + BitVec.ofNat 32 (512 - f) := by
    refine (load32_congr fun i hi => ?_).trans (withString_load32 (t := t) hroom hcopied hlen)
    rw [add_ofNat_ofNat]
    exact hkeep _ (by rw [List.length_cons] at hfields; omega) (.inl (by omega))
  refine ⟨_, src.text, hpointer, ?_, List.prefix_refl _, by rw [toNat_offset _ (by omega)]; omega⟩
  refine (withString_text hroom (h.sources src (.head _)) hcopied hlen).congr fun i hi => ?_
  rw [add_ofNat_ofNat]
  exact hkeep _ (by omega) (.inr (by omega))

/-- A pointer that is left as it was, to the last byte of the block. -/
theorem stringInBlock_empty (h : BlockReady videoInfo k f clean srcs t) (hf : 1 ≤ f) {i : Nat}
    (hi : i < srcs.length) (src : Source) :
    StringInBlock videoInfo t.mem (k + 4 * i) src ↔ clean := by
  rw [← h.last hf]
  constructor
  · rintro ⟨p, s, rfl, hs, -, hlt⟩
    rw [h.empty i hi, toNat_offset _ (by omega)] at hlt
    rw [h.empty i hi, List.eq_nil_of_length_eq_zero (show s.length = 0 by omega)] at hs
    exact hs
  · intro hzero
    exact ⟨_, [], h.empty i hi, hzero, List.nil_prefix, by
      rw [toNat_offset _ (by omega), List.length_nil]
      omega⟩

theorem copyStrings_fit : ∀ {srcs : List Source} {k f : Nat} {clean : Prop} {t : Logged},
    BlockReady videoInfo k f clean srcs t → StringsFit clean f srcs →
    ∃ error t', copyStrings videoInfo (fieldsFrom videoInfo k (srcs.map Source.addr))
        (BitVec.ofNat 32 f) t = .ok (error, t')
      ∧ WritesWithin (FieldsOrFree videoInfo k srcs.length f) t t'
      ∧ ∀ i src, srcs[i]? = some src → StringInBlock videoInfo t'.mem (k + 4 * i) src
  | [], k, f, _, t, _, _ => ⟨_, t, rfl, .refl _ t, fun _ _ h => nomatch h⟩
  | src :: srcs, k, 0, _, _, _, hfit => hfit.elim
  | src :: srcs, k, 1, clean, t, h, hfit => by
      refine ⟨.infoTruncated, t, if_pos rfl, .refl _ t, fun i s hs => ?_⟩
      have hi := (List.getElem?_eq_some_iff.mp hs).1
      exact (stringInBlock_empty h (le_refl 1) hi s).mpr hfit
  | src :: srcs, k, f + 2, clean, t, h, ⟨hcopied, hlen, hfit⟩ => by
      have hfree := h.free
      have hroom := h.room
      have hmore := freebytes_ne_one h.free
      obtain ⟨error, t', hrest, hwithin, hstrings⟩ := copyStrings_fit (h.next hcopied hlen) hfit
      have hstring := withString_within videoInfo t hroom hcopied hlen
      refine ⟨error, t', ?_, ?_, fun i s hs => ?_⟩
      · rw [List.map_cons, fieldsFrom, copyStrings, if_neg hmore, copyString_next h hcopied hlen,
          ok_bind]
        exact hrest
      · rw [List.length_cons]
        refine (hstring.mono fun x hx => ?_).trans (hwithin.mono fun x hx => ?_)
        · exact hx.imp_left fun hx => ⟨hx.1, hx.2.trans_le (by omega)⟩
        · refine hx.imp (fun hx => ?_) fun hx => ?_
          · exact ⟨le_trans (by omega) hx.1, hx.2.trans_le (by omega)⟩
          · exact ⟨le_trans (by omega) hx.1, hx.2⟩
      · cases i with
        | zero =>
            cases hs
            exact stringInBlock_of_within h hcopied hlen hwithin
        | succ i =>
            rw [show k + 4 * (i + 1) = k + 4 + 4 * i by omega]
            exact hstrings i s hs

/-- Without room something is written behind the block, or a string is not in
it. -/
theorem copyStrings_unfit : ∀ {srcs : List Source} {k f : Nat} {clean : Prop} {t : Logged}
    {result : VideoError × Logged}, BlockReady videoInfo k f clean srcs t →
    ¬StringsFit clean f srcs →
    copyStrings videoInfo (fieldsFrom videoInfo k (srcs.map Source.addr)) (BitVec.ofNat 32 f) t
      = .ok result →
    result.2.written (videoInfo + 512#32) = true
      ∨ ∃ i src, srcs[i]? = some src ∧ ¬StringInBlock videoInfo result.2.mem (k + 4 * i) src
  | [], _, _, _, _, _, _, hfit, _ => (hfit trivial).elim
  | src :: srcs, k, 0, _, _, _, _, _, hcopy => .inl (by
      have hfirst := copyStrings_first (by decide) hcopy
      rwa [show 512#32 - BitVec.ofNat 32 0 = 512#32 by decide] at hfirst)
  | src :: srcs, k, 1, clean, t, result, h, hfit, hcopy => by
      rw [List.map_cons, fieldsFrom, copyStrings, if_pos rfl] at hcopy
      cases hcopy
      exact .inr ⟨0, src, rfl, fun hs =>
        hfit ((stringInBlock_empty h (le_refl 1) (Nat.succ_pos _) src).mp hs)⟩
  | src :: srcs, k, f + 2, clean, t, result, h, hfit, hcopy => by
      have hmore := freebytes_ne_one h.free
      rw [List.map_cons, fieldsFrom, copyStrings, if_neg hmore] at hcopy
      by_cases hroom : src.copied ≤ f + 2 ∧ src.text.length < f + 2
      · obtain ⟨hcopied, hlen⟩ := hroom
        rw [copyString_next h hcopied hlen, ok_bind] at hcopy
        refine (copyStrings_unfit (h.next hcopied hlen) (fun hrest => ?_) hcopy).imp_right ?_
        · exact hfit ⟨hcopied, hlen, hrest⟩
        · rintro ⟨i, s, hs, hwrong⟩
          rw [show k + 4 + 4 * i = k + 4 * (i + 1) by omega] at hwrong
          exact ⟨i + 1, s, hs, hwrong⟩
      · obtain ⟨_, hover, hrest⟩ := bind_eq_ok.mp hcopy
        have hat := h.sources src (.head _)
        have hlen := hat.length_le
        exact .inl (copyStrings_extends hrest _
          (copyString_overrun h.room hat (by omega) hover))

end VideoInfo

end SpKernel
