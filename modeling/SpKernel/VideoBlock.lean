import SpKernel.VideoInfo

/-!
# The modes and the strings of the block (`video.c`)

The whole of `video_convertVBEInfo`: the header, the loop over the mode
list, and then the strings (`videoConvertVBEInfo_eq`). Up to 235 modes
are copied right (`copyModes_fit`), and the block is `BlockReady` for the
strings. From the 236th on, the counter wraps (`copyModes_overrun`), and
the first string is put behind the block.

`ModesCopied` is what the loop and the header leave: the modes at the
start of the data area, their number, and the pointer to them. The
sources of the strings are as they were (`SourcesAt.ready`).

`converted_right_iff` puts the two parts together: the block is right
exactly if there are at most 235 modes and the strings have room in what
these leave (`StringsFit`). `ConvertedRight.fits` is the direction from
the block to the condition.
-/

namespace SpKernel

open Lib

section VideoBlock

variable {videoInfo : Word} {t t' : Logged} {srcs : List Source} {modes : List Half} {a : Word}

/-! ## The modes -/

theorem readHalf_store (m : Mem) (a : Word) (v : Half) : readHalf (store 2 m a v) a = v := by
  have hfirst : (a + 1#32 - a).toNat = 1 := toNat_offset a (by decide)
  rw [readHalf, store, store, hfirst, BitVec.sub_self]
  refine BitVec.eq_of_getLsbD_eq fun i hi => ?_
  simp only [BitVec.getLsbD_append]
  by_cases h8 : i < 8
  · simp [h8]
  · simp only [h8]
    have hsub : 8 + (i - 8) = i := by omega
    have hlt : i - 8 < 8 := by omega
    simp [hsub, hlt]

theorem Apart.tail {n : Nat} (hap : Apart videoInfo 512 a (2 * (n + 1 + 1))) :
    Apart videoInfo 512 (a + 2#32) (2 * (n + 1)) := fun i hi j hj => by
  rw [show (2#32 : Word) = BitVec.ofNat 32 2 from rfl, add_ofNat_ofNat]
  exact hap i hi (2 + j) (by omega)

/-- What is written in the block is not in the mode list. -/
theorem IsModeList.within {lo hi : Nat} (hhi : hi ≤ 512)
    (h : WritesWithin (Between videoInfo lo hi) t t') : ∀ {modes : List Half} {a : Word},
    Apart videoInfo 512 a (2 * (modes.length + 1)) → IsModeList t.mem a modes →
      IsModeList t'.mem a modes := by
  have hread : ∀ {n : Nat} {a : Word}, 2 ≤ n → Apart videoInfo 512 a n →
      readHalf t'.mem a = readHalf t.mem a := fun hn hap => by
    have hzero := h.mem _ (hap.outside (j := 0) (by omega) hhi)
    rw [BitVec.add_zero] at hzero
    rw [readHalf, readHalf, hzero, h.mem _ (hap.outside (j := 1) (by omega) hhi)]
  intro modes
  induction modes with
  | nil => exact fun hap hlist => (hread (le_refl _) hap).trans hlist
  | cons mode modes ih =>
      intro a hap hlist
      rw [List.length_cons] at hap
      exact ⟨(hread (by omega) hap).trans hlist.1, hlist.2.1, ih hap.tail hlist.2.2⟩

theorem freebytes_mode {count : Nat} (hcount : count + 1 ≤ 235) :
    BitVec.ofNat 32 (471 - 2 * count) - 2#32 = BitVec.ofNat 32 (471 - 2 * (count + 1)) := by
  refine BitVec.eq_of_toNat_eq ?_
  simp only [BitVec.toNat_sub, BitVec.toNat_ofNat]
  omega

/-- The place of a mode in the block. -/
def storeMode (videoInfo : Word) (count : Nat) (mode : Half) (t : Logged) : Logged :=
  t.store 2 (videoInfo + BitVec.ofNat 32 (40 + 2 * count)) mode

theorem storeMode_within (videoInfo : Word) (t : Logged) {count : Nat} (mode : Half)
    (hcount : count ≤ 235) :
    WritesWithin (Between videoInfo (40 + 2 * count) (40 + 2 * count + 2)) t
      (storeMode videoInfo count mode t) :=
  store_between (by omega) (by omega)

theorem copyModes_next {mode : Half} {count : Nat} (hmode : readHalf t.mem a = mode)
    (hne : mode ≠ modelistTerminator) (hcount : count + 1 ≤ 235) :
    copyModes (videoInfo + 40#32) a (BitVec.ofNat 32 (471 - 2 * count)) count t
      = copyModes (videoInfo + 40#32) (a + 2#32) (BitVec.ofNat 32 (471 - 2 * (count + 1)))
        (count + 1) (storeMode videoInfo count mode t) := by
  rw [copyModes]
  simp only [hmode, if_neg hne]
  rw [if_pos (show count + 1 ≤ modesMax from hcount), freebytes_mode hcount,
    show (40#32 : Word) = BitVec.ofNat 32 40 from rfl, add_ofNat_ofNat]
  rfl

theorem copyModes_fit : ∀ {modes : List Half} {a : Word} {count : Nat} {t : Logged},
    IsModeList t.mem a modes → Apart videoInfo 512 a (2 * (modes.length + 1)) →
    count + modes.length ≤ 235 →
    ∃ t', copyModes (videoInfo + 40#32) a (BitVec.ofNat 32 (471 - 2 * count)) count t
        = (BitVec.ofNat 32 (471 - 2 * (count + modes.length)), count + modes.length, t')
      ∧ WritesWithin (Between videoInfo (40 + 2 * count) (40 + 2 * (count + modes.length))) t t'
      ∧ ∀ i (h : i < modes.length),
        readHalf t'.mem (videoInfo + BitVec.ofNat 32 (40 + 2 * (count + i))) = modes[i]
  | [], a, count, t, hlist, _, _ => by
      refine ⟨t, ?_, .refl _ t, fun i h => absurd h (Nat.not_lt_zero i)⟩
      rw [copyModes]
      exact if_pos hlist
  | mode :: modes, a, count, t, ⟨hmode, hne, hlist⟩, hap, hcount => by
      rw [List.length_cons] at hap hcount
      have hstore := storeMode_within videoInfo t mode (show count ≤ 235 by omega)
      obtain ⟨t', hcopy, hwithin, hmodes⟩ := copyModes_fit
        (hlist.within (by omega) hstore hap.tail) hap.tail
        (show count + 1 + modes.length ≤ 235 by omega)
      have hsum : count + 1 + modes.length = count + (modes.length + 1) := by omega
      refine ⟨t', ?_, ?_, fun i hi => ?_⟩
      · rw [copyModes_next hmode hne (by omega), List.length_cons, ← hsum]
        exact hcopy
      · rw [List.length_cons, ← hsum]
        refine (hstore.mono fun x hx => ?_).trans (hwithin.mono fun x hx => ?_)
        · exact ⟨hx.1, hx.2.trans_le (by omega)⟩
        · exact ⟨le_trans (by omega) hx.1, hx.2⟩
      · cases i with
        | zero =>
            refine (readHalf_within hwithin fun j hj hj' => ?_).trans (readHalf_store ..)
            rw [between_offset (by omega)]
            omega
        | succ i =>
            rw [show count + (i + 1) = count + 1 + i by omega]
            exact hmodes i (by rw [List.length_cons] at hi; omega)

/-- The 236th mode is copied as well, and the counter wraps. -/
theorem copyModes_overrun : ∀ {modes : List Half} {a : Word} {count : Nat} {t : Logged},
    IsModeList t.mem a modes → Apart videoInfo 512 a (2 * (modes.length + 1)) →
    count ≤ 235 → 235 < count + modes.length →
    ∃ t', copyModes (videoInfo + 40#32) a (BitVec.ofNat 32 (471 - 2 * count)) count t
      = (0xFFFFFFFF#32, 236, t')
  | [], _, _, _, _, _, hle, hlt => by
      rw [List.length_nil] at hlt
      omega
  | mode :: modes, a, count, t, ⟨hmode, hne, hlist⟩, hap, hle, hlt => by
      rw [List.length_cons] at hap hlt
      by_cases hlast : count + 1 ≤ 235
      · have hstore := storeMode_within videoInfo t mode hle
        rw [copyModes_next hmode hne hlast]
        exact copyModes_overrun (hlist.within (by omega) hstore hap.tail) hap.tail hlast
          (by omega)
      · obtain rfl : count = 235 := by omega
        rw [copyModes]
        simp only [hmode, if_neg hne]
        exact ⟨_, if_neg (show ¬235 + 1 ≤ modesMax by decide)⟩

/-! ## The header -/

/-- A number in the block that a store does not touch. -/
theorem load32_store_other {n w i j : Nat} {v : BitVec w} (h : i + 4 ≤ j ∨ j + n ≤ i)
    (hn : 0 < n) (hi : i + 4 ≤ 512) (hj : j + n ≤ 512) :
    load32 (t.store n (videoInfo + BitVec.ofNat 32 j) v).mem (videoInfo + BitVec.ofNat 32 i)
      = load32 t.mem (videoInfo + BitVec.ofNat 32 i) :=
  load32_within (store_between (by omega) hn) fun l hl hl' => by
    rw [between_offset (by omega)]
    omega

theorem convertHeader_within (info : VBEInfo) (videoInfo : Word) (t : Logged) :
    WritesWithin (Between videoInfo 4 512) t (convertHeader info videoInfo t) := by
  have hstore : ∀ {n w j : Nat} {v : BitVec w} {t : Logged}, 0 < n → 4 ≤ j → j + n ≤ 512 →
      WritesWithin (Between videoInfo 4 512) t (t.store n (videoInfo + BitVec.ofNat 32 j) v) :=
    fun hn hlo hhi => (store_between (by omega) hn).mono fun x hx =>
      ⟨hlo.trans hx.1, hx.2.trans_le hhi⟩
  unfold convertHeader videoInfoHeader
  iterate 9 refine .trans ?_ (hstore (by decide) (by decide) (by decide))
  exact hstore (by decide) (by decide) (by decide)

/-- What the header points to, before there are any strings. -/
structure HeaderReady (videoInfo : Word) (t : Logged) : Prop where
  modes : load32 t.mem (videoInfo + 20#32) = videoInfo + 40#32
  empty : ∀ i < 4, load32 t.mem (videoInfo + BitVec.ofNat 32 (24 + 4 * i)) = videoInfo + 511#32
  last : t.mem (videoInfo + 511#32) = 0

theorem convertHeader_ready (info : VBEInfo) (videoInfo : Word) (t : Logged) :
    HeaderReady videoInfo (convertHeader info videoInfo t) := by
  refine ⟨?_, fun i hi => ?_, ?_⟩ <;> unfold convertHeader videoInfoHeader
  · iterate 5 rw [load32_store_other (by decide) (by decide) (by decide) (by decide)]
    exact load32_store ..
  · interval_cases i
    · iterate 3 rw [load32_store_other (by decide) (by decide) (by decide) (by decide)]
      exact load32_store ..
    · iterate 2 rw [load32_store_other (by decide) (by decide) (by decide) (by decide)]
      exact load32_store ..
    · rw [load32_store_other (by decide) (by decide) (by decide) (by decide)]
      exact load32_store ..
    · exact load32_store ..
  · have hkeep : ∀ {j : Nat} {v : Word} {t : Logged}, j + 4 ≤ 511 →
        (t.store 4 (videoInfo + BitVec.ofNat 32 j) v).mem (videoInfo + 511#32)
          = t.mem (videoInfo + 511#32) := fun hj =>
      (store_between (by omega) (by decide)).mem _ (by rw [between_offset (by decide)]; omega)
    iterate 4 rw [hkeep (by decide)]
    rw [Logged.store_mem, store_byte, if_pos rfl]

/-! ## The whole function -/

variable {info : VBEInfo} {m : Mem}

theorem SourcesAt.length (h : SourcesAt info videoInfo m modes srcs) : srcs.length = 4 := by
  have haddrs := congrArg List.length h.addrs
  rwa [List.length_map] at haddrs

theorem videoConvertVBEInfo_eq (h : SourcesAt info videoInfo m modes srcs) {freebytes : Word}
    {modeCount : Nat} {t : Logged}
    (hmodes : copyModes (videoInfo + 40#32) (vbePtr info.videoModes) 471#32 0
      (convertHeader info videoInfo (.start m)) = (freebytes, modeCount, t)) :
    videoConvertVBEInfo (some info) videoInfo (.start m)
      = copyStrings videoInfo (fieldsFrom videoInfo 24 (srcs.map Source.addr)) freebytes
        (t.store 4 (videoInfo + 16#32) (BitVec.ofNat 32 modeCount)) := by
  have hmodes' : copyModes (videoInfo + BitVec.ofNat 32 videoInfoHeader) (vbePtr info.videoModes)
    (BitVec.ofNat 32 (512 - 1 - videoInfoHeader)) 0 (convertHeader info videoInfo (.start m))
      = (freebytes, modeCount, t) := hmodes
  rw [h.addrs]
  simp only [videoConvertVBEInfo, if_neg h.block, hmodes']
  rfl

/-- The mode list is in the block. -/
structure ModesCopied (videoInfo : Word) (modes : List Half) (t : Logged) : Prop where
  count : load32 t.mem (videoInfo + 16#32) = BitVec.ofNat 32 modes.length
  pointer : load32 t.mem (videoInfo + 20#32) = videoInfo + 40#32
  modes : ∀ i (h : i < modes.length),
    readHalf t.mem (videoInfo + BitVec.ofNat 32 (40 + 2 * i)) = modes[i]

theorem ModesCopied.within (h : ModesCopied videoInfo modes t) (hlen : modes.length ≤ 235)
    (hwithin : WritesWithin (FieldsOrFree videoInfo 24 4 (471 - 2 * modes.length)) t t') :
    ModesCopied videoInfo modes t' := by
  have hout : ∀ i < 512, i < 24 ∨ 40 ≤ i → i < 41 + 2 * modes.length →
      ¬FieldsOrFree videoInfo 24 4 (471 - 2 * modes.length) (videoInfo + BitVec.ofNat 32 i) := by
    intro i hi hfield hfree
    rw [FieldsOrFree, between_offset (by omega), between_offset (by omega)]
    omega
  refine ⟨?_, ?_, fun i hi => ?_⟩
  · exact (load32_within hwithin fun j _ _ => hout j (by omega) (by omega) (by omega)).trans h.count
  · exact (load32_within hwithin fun j _ _ => hout j (by omega) (by omega) (by omega)).trans
      h.pointer
  · exact (readHalf_within hwithin fun j _ _ => hout j (by omega) (by omega) (by omega)).trans
      (h.modes i hi)

theorem SourcesAt.ready (h : SourcesAt info videoInfo m modes srcs) (hlen : modes.length ≤ 235) :
    ∃ t, videoConvertVBEInfo (some info) videoInfo (.start m)
        = copyStrings videoInfo (fieldsFrom videoInfo 24 (srcs.map Source.addr))
          (BitVec.ofNat 32 (471 - 2 * modes.length)) t
      ∧ WritesWithin (Between videoInfo 4 512) (.start m) t ∧ ModesCopied videoInfo modes t
      ∧ BlockReady videoInfo 24 (471 - 2 * modes.length) True srcs t := by
  have hheader := convertHeader_within info videoInfo (.start m)
  have hready := convertHeader_ready info videoInfo (.start m)
  obtain ⟨t, hcopy, hwithin, hmodes⟩ := copyModes_fit
    (h.list.within (le_refl 512) hheader h.apart) h.apart (show 0 + modes.length ≤ 235 by omega)
  simp only [Nat.zero_add] at hcopy hwithin hmodes
  -- the number of the modes is stored behind the loop
  have hcount : WritesWithin (Between videoInfo 16 (16 + 4)) t
      (t.store 4 (videoInfo + 16#32) (BitVec.ofNat 32 modes.length)) :=
    store_between (by decide) (by decide)
  have hload : ∀ {i : Nat}, 20 ≤ i → i + 4 ≤ 40 →
      load32 (t.store 4 (videoInfo + 16#32) (BitVec.ofNat 32 modes.length)).mem
          (videoInfo + BitVec.ofNat 32 i)
        = load32 (convertHeader info videoInfo (.start m)).mem (videoInfo + BitVec.ofNat 32 i) := by
    intro i hi hi'
    refine (load32_within hcount fun j hj hj' => ?_).trans
      (load32_within hwithin fun j hj hj' => ?_) <;> rw [between_offset (by omega)] <;> omega
  have hall : WritesWithin (Between videoInfo 4 512) (.start m)
      (t.store 4 (videoInfo + 16#32) (BitVec.ofNat 32 modes.length)) := by
    refine hheader.trans ((hwithin.mono fun x hx => ?_).trans (hcount.mono fun x hx => ?_))
    · exact ⟨le_trans (by omega) hx.1, hx.2.trans_le (by omega)⟩
    · exact ⟨le_trans (by omega) hx.1, hx.2.trans_le (by omega)⟩
  refine ⟨_, videoConvertVBEInfo_eq h hcopy, hall, ⟨load32_store .., ?_, fun i hi => ?_⟩, ?_⟩
  · exact (hload (by decide) (by decide)).trans hready.modes
  · refine (readHalf_within hcount fun j hj hj' => ?_).trans (hmodes i hi)
    rw [between_offset (by omega)]
    omega
  · have hfour := h.length
    refine ⟨by omega, by omega, fun src hsrc => (h.sources src hsrc).within (le_refl 512) hall,
      fun i hi => ?_, fun _ => iff_true_intro ?_⟩
    · exact (hload (by omega) (by omega)).trans (hready.empty i (by omega))
    · refine (hcount.mem _ ?_).trans ((hwithin.mem _ ?_).trans hready.last)
        <;> rw [between_offset (by omega)] <;> omega

theorem SourcesAt.overrun (h : SourcesAt info videoInfo m modes srcs) (hlen : 235 < modes.length)
    {error : VideoError} {t : Logged}
    (hconvert : videoConvertVBEInfo (some info) videoInfo (.start m) = .ok (error, t)) :
    t.written (videoInfo + 513#32) = true := by
  have hheader := convertHeader_within info videoInfo (.start m)
  obtain ⟨t', hcopy⟩ := copyModes_overrun (h.list.within (le_refl 512) hheader h.apart)
    h.apart (Nat.zero_le _) (show 235 < 0 + modes.length by omega)
  rw [videoConvertVBEInfo_eq h hcopy, h.addrs] at hconvert
  exact copyStrings_first (by decide) hconvert

theorem BlockRight.not_written (h : BlockRight videoInfo modes srcs t) {i : Nat} (hi : 512 ≤ i)
    (hi32 : i < 2 ^ 32) : t.written (videoInfo + BitVec.ofNat 32 i) ≠ true := fun hw => by
  have hlt := h.inside _ hw
  rw [toNat_offset _ hi32] at hlt
  omega

theorem ConvertedRight.fits (hright : ConvertedRight info videoInfo m modes srcs)
    (h : SourcesAt info videoInfo m modes srcs) :
    modes.length ≤ 235 ∧ StringsFit True (471 - 2 * modes.length) srcs := by
  obtain ⟨error, t', hconvert, hright⟩ := hright
  have hlen : modes.length ≤ 235 := by
    by_contra hlong
    exact hright.not_written (by decide) (by decide) (h.overrun (by omega) hconvert)
  refine ⟨hlen, ?_⟩
  obtain ⟨t, hstrings, -, -, hready⟩ := h.ready hlen
  by_contra hfit
  rcases copyStrings_unfit hready hfit (hstrings.symm.trans hconvert) with hw | ⟨i, src, hi, hs⟩
  · exact hright.not_written (by decide) (by decide) hw
  · exact hs (hright.strings i src hi)

theorem SourcesAt.right (h : SourcesAt info videoInfo m modes srcs) (hlen : modes.length ≤ 235)
    (hfit : StringsFit True (471 - 2 * modes.length) srcs) :
    ConvertedRight info videoInfo m modes srcs := by
  obtain ⟨t, hstrings, hheader, hmodes, hready⟩ := h.ready hlen
  obtain ⟨error, t', hcopy, hwithin, hright⟩ := copyStrings_fit hready hfit
  rw [h.length] at hwithin
  have hmodes' := hmodes.within hlen hwithin
  have hcount : (load32 t'.mem (videoInfo + 16#32)).toNat = modes.length := by
    rw [hmodes'.count, BitVec.toNat_ofNat]
    omega
  refine ⟨error, t', hstrings.trans hcopy, ?_, hcount.le, fun i hi _ => ?_, hright⟩
  · intro x hx
    rcases hwithin.written x hx with hx | hx | hx
    · rcases hheader.written x hx with hx | hx
      · cases hx
      · exact hx.2
    · exact hx.2.trans (by decide)
    · exact hx.2
  · rw [hmodes'.pointer, show (40#32 : Word) = BitVec.ofNat 32 40 from rfl, add_ofNat_ofNat]
    exact hmodes'.modes i hi

/-- The block is right if and only if there are at most 235 modes, and room for
the strings behind them. -/
theorem converted_right_iff (h : SourcesAt info videoInfo m modes srcs) :
    ConvertedRight info videoInfo m modes srcs
      ↔ modes.length ≤ 235 ∧ StringsFit True (471 - 2 * modes.length) srcs :=
  ⟨fun hright => hright.fits h, fun hfits => h.right hfits.1 hfits.2⟩

end VideoBlock

/-- A BIOS without modes, with `n` characters in the first string. -/
def biosMem (n : Nat) : Mem := fun x =>
  if (x - 0xC0000#32).toNat < n then 0x41
  else if (x - 0xC1000#32).toNat < 2 then 0xFF else 0

def biosInfo : VBEInfo where
  version := 0x300
  oem := 0xC0000000
  capabilities := 0
  videoModes := 0xC0001000
  videoMemory := 64
  softwareRev := 0
  vendor := 0xC0002000
  productName := 0xC0002000
  productRev := 0xC0002000

/-- The first string, and three empty ones. -/
def biosSources (n : Nat) : List Source :=
  ⟨0xC0000#32, List.replicate (n + 1) 0x41, List.replicate n 0x41⟩
    :: List.replicate 3 ⟨0xC2000#32, [], []⟩

theorem apart_of_le {a b : Word} {n n' : Nat} (h : a.toNat + n ≤ b.toNat)
    (hb : b.toNat + n' ≤ 2 ^ 32) : Apart a n b n' := fun i hi j hj he => by
  have hab := congrArg BitVec.toNat he
  simp only [BitVec.toNat_add, BitVec.toNat_ofNat] at hab
  omega

theorem biosMem_char {n i : Nat} (hi : i < n) (hn : n < 0x1000) :
    biosMem n (0xC0000#32 + BitVec.ofNat 32 i) = 0x41 :=
  if_pos (by rwa [toNat_offset _ (by omega)])

theorem biosMem_zero {n : Nat} {x : Word} (h : n ≤ (x - 0xC0000#32).toNat)
    (h' : 2 ≤ (x - 0xC1000#32).toNat) : biosMem n x = 0 :=
  (if_neg (Nat.not_lt.mpr h)).trans (if_neg (Nat.not_lt.mpr h'))

theorem biosMem_terminator {n : Nat} (hn : n < 0x1000) :
    readHalf (biosMem n) 0xC1000#32 = modelistTerminator := by
  have hone : biosMem n 0xC1000#32 = 0xFF :=
    (if_neg (show ¬0x1000 < n by omega)).trans (if_pos (by decide))
  have htwo : biosMem n (0xC1000#32 + 1#32) = 0xFF :=
    (if_neg (show ¬0x1001 < n by omega)).trans (if_pos (by decide))
  rw [readHalf, hone, htwo]
  rfl

theorem biosSourcesAt {n : Nat} (hn : n < 0x800) :
    SourcesAt biosInfo 0x3800 (biosMem (n + 1)) [] (biosSources n) := by
  have hnul : biosMem (n + 1) (0xC0000#32 + BitVec.ofNat 32 (n + 1)) = 0 := by
    refine biosMem_zero (by rw [toNat_offset _ (by omega)]) ?_
    simp only [BitVec.toNat_sub, BitVec.toNat_add, BitVec.toNat_ofNat]
    omega
  refine ⟨by decide, biosMem_terminator (by omega), apart_of_le (by decide) (by decide), rfl,
    fun src hsrc => ?_⟩
  rcases List.mem_cons.mp hsrc with rfl | hsrc
  · refine ⟨.of_bytes (fun i hi => ?_) ?_, .of_bytes (fun i hi => ?_) ?_,
      apart_of_le (show 0x3800 + 512 ≤ 0xC0000 by decide) ?_⟩
    · rw [List.length_replicate] at hi
      rw [List.getElem_replicate]
      exact ⟨biosMem_char hi (by omega), by decide⟩
    · rw [List.length_replicate]
      exact hnul
    · rw [List.length_replicate] at hi
      rw [List.getElem_replicate, add_ofNat_succ]
      exact ⟨biosMem_char (by omega) (by omega), by decide⟩
    · rw [List.length_replicate, add_ofNat_succ]
      exact hnul
    · rw [List.length_replicate]
      show 0xC0000 + (n + 2) ≤ 2 ^ 32
      omega
  · obtain rfl := List.eq_of_mem_replicate hsrc
    exact ⟨biosMem_zero (show n + 1 ≤ 0x2000 by omega) (by decide),
      biosMem_zero (show n + 1 ≤ 0x2001 by omega) (by decide),
      apart_of_le (by decide) (by decide)⟩

theorem converted_right_short :
    ConvertedRight biosInfo 0x3800 (biosMem 100) [] (biosSources 99) :=
  (converted_right_iff (biosSourcesAt (by decide))).mpr
    ⟨by decide, by decide, by decide, by decide, by decide, by decide, by decide, by decide,
      by decide, trivial⟩

/-- A string that leaves no byte for its NUL. -/
theorem converted_overrun :
    ¬ConvertedRight biosInfo 0x3800 (biosMem 471) [] (biosSources 470) := fun hright => by
  have hlen : (List.replicate 471 (0x41 : Byte)).length < 471 :=
    (hright.fits (biosSourcesAt (by decide))).2.2.1
  rw [List.length_replicate] at hlen
  exact absurd hlen (lt_irrefl _)

end SpKernel
