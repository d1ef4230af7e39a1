import SpKernel.FrameBuffer
import SpKernel.Lib.Attempts

/-!
# The best video mode (`early/video.c`, `edid.c`)

`video_early_bestMode` tries one timing after the other, those the
monitor lists in its EDID record in front of those that always work, and
takes the first of the usable modes that has the size of one. Which
timings there are, and in which order, is `tryOrder`; that the loops go
through them in this order is `bestMode_eq_attempts`, and the rest is
said for one timing.

Two kinds of timings go wrong (`Faulty`). A detailed one divides by the
number of pixels of a frame, which may be zero. And a standard one is
taken for unused if its first byte is 1: the second byte is not looked
at.

`modeFor` is the mode that a timing should give, and `tryFrom` the one
that the code tries for it. They are compared timing by timing
(`tryFrom_eq_iff`): they are the same exactly if it is not `Faulty`. By
the library on attempts this is enough for the loops, with one thing to
see to: what is passed over could be found again further on
(`standard_width_ne`, `safe_width_ne` say that it is not).

`bestMode_right_iff` says that the mode is right exactly if no faulty
timing is reached. `bestMode_wrong` has one of each kind.
-/

namespace SpKernel

open Lib

/-! ## The source -/

structure VideoTiming where
  width : Half
  height : Half
  refresh : Byte

structure VideoMode where
  modeNum : Half
  fb : VideoFb
deriving DecidableEq

/-- `VBE3ModeInfo`; what is not used here is left out. -/
structure VBEModeInfo where
  modeAttributes : Half
  xResolution : Half
  yResolution : Half
  bitsPerPixel : Byte
  memoryModel : Byte
  physBasePtr : Word
  linBytesPerScanLine : Half
  linRedMaskSize : Byte
  linRedFieldPosition : Byte
  linGreenMaskSize : Byte
  linGreenFieldPosition : Byte
  linBlueMaskSize : Byte
  linBlueFieldPosition : Byte

/-- `EDIDRecord`; what is not used here is left out. -/
structure EDIDRecord where
  standardTimings : Vector (Byte × Byte) 8
  detailedTimings : Vector (Vector Byte 18) 4

/-- `VIDEO_VBE_SUPPORT` -/
def vbeSupport : Word := 0x1

/-- `VIDEO_EDID_SUPPORT` -/
def edidSupport : Word := 0x2

def safeTimings : List VideoTiming :=
  [⟨720, 480, 0⟩, ⟨640, 480, 0⟩, ⟨360, 480, 0⟩, ⟨320, 480, 0⟩,
    ⟨720, 240, 0⟩, ⟨640, 240, 0⟩, ⟨360, 240, 0⟩, ⟨320, 240, 0⟩]

/-- `MASK`; the processor shifts by the size modulo 32. -/
def colorMask (size : Byte) : Byte := ((1 : Word) <<< (size.toNat % 32) - 1).setWidth 8

def videoConvertVBEMode (vbe : VBEModeInfo) : VideoFb where
  location := vbe.physBasePtr
  width := vbe.xResolution
  height := vbe.yResolution
  pitch := vbe.linBytesPerScanLine
  bpp := vbe.bitsPerPixel
  colorspace :=
    { red := ⟨colorMask vbe.linRedMaskSize, vbe.linRedFieldPosition⟩
      green := ⟨colorMask vbe.linGreenMaskSize, vbe.linGreenFieldPosition⟩
      blue := ⟨colorMask vbe.linBlueMaskSize, vbe.linBlueFieldPosition⟩ }

def desiredAttributes : Half := 0x1 ||| 0x8 ||| 0x10 ||| 0x80

/-- The attributes, `VBE_MODEL_DIRECT` and the depth. -/
def VBEModeInfo.Usable (info : VBEModeInfo) : Prop :=
  info.modeAttributes &&& desiredAttributes = desiredAttributes
    ∧ info.memoryModel = 6 ∧ 24 ≤ info.bitsPerPixel

instance (info : VBEModeInfo) : Decidable info.Usable :=
  inferInstanceAs (Decidable (_ ∧ _ ∧ _))

/-- `modeList`, from the mode numbers and what `vbe_getModeInfo` has for each. -/
def usableModes (modes : List (Half × Option VBEModeInfo)) : List VideoMode :=
  modes.filterMap fun (curModeNum, modeInfo) => modeInfo.bind fun info =>
    if info.Usable then some ⟨curModeNum, videoConvertVBEMode info⟩ else none

/-- The ratio of width and height, from the upper two bits. -/
def aspectRatio (byte1 : Byte) : Half × Half :=
  match (byte1 >>> 6).toNat with
  | 0 => (16, 10)
  | 1 => (4, 3)
  | 2 => (5, 4)
  | _ => (16, 9)

/-- `xres` and `yres` -/
def standardSize (byte0 byte1 : Byte) : Half × Half :=
  let xres : Half := (byte0.setWidth 16 + 31) * 8
  let (h, v) := aspectRatio byte1
  (xres, xres / h * v)

/-- `edid_parseStandard`, with the test as it is made. -/
def edidParseStandard (record : EDIDRecord) (num : Nat) : Option VideoTiming :=
  match record.standardTimings[num]? with
  | none => none
  | some (byte0, byte1) =>
      if byte0 = 1 ∧ byte0 = 1 then none
      else
        let (xres, yres) := standardSize byte0 byte1
        some { width := xres, height := yres, refresh := (byte1 &&& 63) + 60 }

/-- A divide error of the processor. -/
inductive CpuException where
  | divideError
deriving DecidableEq

/-- The block is a monitor descriptor. -/
def IsDescriptor (entry : Vector Byte 18) : Prop :=
  entry[0] = 0 ∧ entry[1] = 0 ∧ entry[2] = 0 ∧ entry[4] = 0

instance (entry : Vector Byte 18) : Decidable (IsDescriptor entry) :=
  inferInstanceAs (Decidable (_ ∧ _ ∧ _ ∧ _))

/-- `hActive` and `vActive` -/
def activeBits (low high : Byte) : Half := low.setWidth 16 ||| (high.setWidth 16 &&& 0xF0) <<< 4

/-- `hBlanking` and `vBlanking` -/
def blankingBits (low high : Byte) : Half := low.setWidth 16 ||| (high.setWidth 16 &&& 0xF) <<< 8

/-- The pixels along one side of a frame, blanked ones included. -/
def totalPixels (active blanking high : Byte) : Word :=
  (activeBits active high).setWidth 32 + (blankingBits blanking high).setWidth 32

def edidParseDetailed (record : EDIDRecord) (num : Nat) :
    Except CpuException (Option VideoTiming) :=
  match record.detailedTimings[num]? with
  | none => .ok none
  | some entry =>
      if IsDescriptor entry then .ok none
      else
        let pixelClock : Half := entry[1].setWidth 16 <<< 8 ||| entry[0].setWidth 16
        let pixels := totalPixels entry[2] entry[3] entry[4]
          * totalPixels entry[5] entry[6] entry[7]
        if pixels = 0 then .error .divideError
        else
          .ok (some {
            width := activeBits entry[2] entry[4]
            height := activeBits entry[5] entry[7]
            refresh := (pixelClock.setWidth 32 / pixels).setWidth 8 })

def matchMode (modeList : List VideoMode) (timing : VideoTiming) : Option Nat :=
  modeList.findIdx? fun mode =>
    mode.fb.width = timing.width ∧ mode.fb.height = timing.height

/-- The mode at the index of `__matchMode`. -/
def tryTiming (modeList : List VideoMode) (timing : VideoTiming) : Option VideoMode :=
  (matchMode modeList timing).bind fun index => modeList[index]?

/-- `video_early_bestMode`; there is no mode for `E_VIDEO_UNSUPPORTED`. -/
def videoEarlyBestMode (status : Word) (modes : List (Half × Option VBEModeInfo))
    (edid : EDIDRecord) : Except CpuException (Option VideoMode) :=
  if status &&& vbeSupport = vbeSupport then
    let modeList := usableModes modes
    let safe := attempts (fun timing => .ok (tryTiming modeList timing)) safeTimings
    if status &&& edidSupport = edidSupport then
      match attempts (fun i => (edidParseDetailed edid i).map (·.bind (tryTiming modeList)))
        (List.range 4) with
      | .ok none =>
          match attempts (fun i => .ok ((edidParseStandard edid i).bind (tryTiming modeList)))
            (List.range 8) with
          | .ok none => safe
          | result => result
      | result => result
    else safe
  else .ok none

/-! ## The mode it should be -/

/-- Where a timing is from. -/
inductive TimingSource where
  | detailed (num : Nat)
  | standard (num : Nat)
  | safe (timing : VideoTiming)

/-- The order of the timings. There are no modes without VBE, and there is no
record without EDID. -/
def tryOrder (status : Word) : List TimingSource :=
  if status &&& vbeSupport = vbeSupport then
    (if status &&& edidSupport = edidSupport then
      (List.range 4).map .detailed ++ (List.range 8).map .standard else [])
      ++ safeTimings.map .safe
  else []

/-- The width and height of a timing, where there is one. -/
def TimingSource.size (edid : EDIDRecord) : TimingSource → Option (Half × Half)
  | .detailed num => edid.detailedTimings[num]?.bind fun entry =>
      if IsDescriptor entry then none
      else some (activeBits entry[2] entry[4], activeBits entry[5] entry[7])
  | .standard num => edid.standardTimings[num]?.bind fun (byte0, byte1) =>
      if byte0 = 1 ∧ byte1 = 1 then none else some (standardSize byte0 byte1)
  | .safe timing => some (timing.width, timing.height)

/-- The first usable mode of a size. -/
def firstUsable (modes : List (Half × Option VBEModeInfo)) (size : Half × Half) :
    Option VideoMode :=
  (usableModes modes).find? fun mode => mode.fb.width = size.1 ∧ mode.fb.height = size.2

/-- The first usable mode for a timing. -/
def modeFor (modes : List (Half × Option VBEModeInfo)) (edid : EDIDRecord) (s : TimingSource) :
    Option VideoMode :=
  (s.size edid).bind (firstUsable modes)

/-- The mode is the one for the first timing that has one. -/
structure BestModeRight (status : Word) (modes : List (Half × Option VBEModeInfo))
    (edid : EDIDRecord) : Prop where
  terminates : ∃ result, videoEarlyBestMode status modes edid = .ok result
  returned : ∀ mode, videoEarlyBestMode status modes edid = .ok (some mode)
    ↔ ∃ s, IsReached (modeFor modes edid) (tryOrder status) s ∧ modeFor modes edid s = some mode
  unsupported : videoEarlyBestMode status modes edid = .ok none
    ↔ ∀ s ∈ tryOrder status, modeFor modes edid s = none

/-- No pixels along one side of a frame. -/
def NoPixels (active blanking high : Byte) : Prop := active = 0 ∧ blanking = 0 ∧ high = 0

/-- A frame without pixels, and a timing with a 1 in its first byte only that
there is a mode for. -/
def Faulty (modes : List (Half × Option VBEModeInfo)) (edid : EDIDRecord) : TimingSource → Prop
  | .detailed num => ∃ entry, edid.detailedTimings[num]? = some entry ∧ ¬IsDescriptor entry
      ∧ (NoPixels entry[2] entry[3] entry[4] ∨ NoPixels entry[5] entry[6] entry[7])
  | .standard num => ∃ byte1, edid.standardTimings[num]? = some (1, byte1) ∧ byte1 ≠ 1
      ∧ (firstUsable modes (standardSize 1 byte1)).isSome
  | .safe _ => False

section BestMode

variable {modes : List (Half × Option VBEModeInfo)} {edid : EDIDRecord} {status : Word}
  {modeList : List VideoMode} {s : TimingSource} {mode : VideoMode}

/-! ## The division -/

theorem or_bits_lt {low : Byte} {high : Half} (h : high.toNat < 2 ^ 12) :
    (low.setWidth 16 ||| high).toNat < 2 ^ 12 := by
  rw [BitVec.toNat_or, BitVec.toNat_setWidth]
  refine Nat.or_lt_two_pow ?_ h
  have := low.isLt
  omega

theorem activeBits_lt (low high : Byte) : (activeBits low high).toNat < 2 ^ 12 :=
  or_bits_lt (by revert high; decide +kernel)

theorem blankingBits_lt (low high : Byte) : (blankingBits low high).toNat < 2 ^ 12 :=
  or_bits_lt (by revert high; decide +kernel)

theorem totalPixels_toNat (active blanking high : Byte) :
    (totalPixels active blanking high).toNat
      = (activeBits active high).toNat + (blankingBits blanking high).toNat := by
  have hactive := activeBits_lt active high
  have hblanking := blankingBits_lt blanking high
  rw [totalPixels, BitVec.toNat_add, BitVec.toNat_setWidth, BitVec.toNat_setWidth]
  omega

theorem toNat_eq_zero {w : Nat} (x : BitVec w) : x.toNat = 0 ↔ x = 0#w := by
  rw [BitVec.toNat_eq, BitVec.toNat_zero]

theorem byte_eq_zero (low : Byte) : low.setWidth 16 = 0#16 ↔ low = 0 := by bv_omega

theorem high_eq_zero (high : Byte) :
    (high.setWidth 16 &&& 0xF0) <<< 4 = 0#16 ∧ (high.setWidth 16 &&& 0xF) <<< 8 = 0#16
      ↔ high = 0 := by
  revert high
  decide +kernel

theorem totalPixels_eq_zero (active blanking high : Byte) :
    (totalPixels active blanking high).toNat = 0 ↔ NoPixels active blanking high := by
  have hhigh := high_eq_zero high
  rw [totalPixels_toNat, Nat.add_eq_zero_iff, toNat_eq_zero, toNat_eq_zero, activeBits,
    blankingBits, BitVec.or_eq_zero_iff, BitVec.or_eq_zero_iff, byte_eq_zero, byte_eq_zero]
  unfold NoPixels
  tauto

theorem totalPixels_le (active blanking high : Byte) :
    (totalPixels active blanking high).toNat ≤ 8190 := by
  have hactive := activeBits_lt active high
  have hblanking := blankingBits_lt blanking high
  rw [totalPixels_toNat]
  omega

/-- The divisor is zero if there are no pixels along a side. -/
theorem pixels_eq_zero (active blanking high active' blanking' high' : Byte) :
    totalPixels active blanking high * totalPixels active' blanking' high' = 0
      ↔ NoPixels active blanking high ∨ NoPixels active' blanking' high' := by
  have hle := Nat.mul_le_mul (totalPixels_le active blanking high)
    (totalPixels_le active' blanking' high')
  show _ = 0#32 ↔ _
  rw [← totalPixels_eq_zero, ← totalPixels_eq_zero, ← Nat.mul_eq_zero, ← toNat_eq_zero,
    BitVec.toNat_mul, Nat.mod_eq_of_lt (by omega)]

/-! ## One timing -/

theorem findIdx?_getElem? {α : Type*} (p : α → Bool) (l : List α) :
    (l.findIdx? p).bind (fun i => l[i]?) = l.find? p := by
  induction l with
  | nil => rfl
  | cons a l ih =>
      rw [List.findIdx?_cons, List.find?_cons]
      cases p a with
      | true => rfl
      | false =>
          rw [← ih]
          exact Option.bind_map

theorem tryTiming_eq (timing : VideoTiming) :
    tryTiming (usableModes modes) timing = firstUsable modes (timing.width, timing.height) :=
  findIdx?_getElem? _ _

/-- What the loops make of a timing. -/
def tryFrom (modes : List (Half × Option VBEModeInfo)) (edid : EDIDRecord) :
    TimingSource → Except CpuException (Option VideoMode)
  | .detailed num => (edidParseDetailed edid num).map (·.bind (tryTiming (usableModes modes)))
  | .standard num => .ok ((edidParseStandard edid num).bind (tryTiming (usableModes modes)))
  | .safe timing => .ok (tryTiming (usableModes modes) timing)

theorem bestMode_eq_attempts : videoEarlyBestMode status modes edid
    = attempts (tryFrom modes edid) (tryOrder status) := by
  unfold videoEarlyBestMode tryOrder
  split
  · split
    · rw [attempts_append, attempts_append, attempts_map, attempts_map, attempts_map]
      simp only [tryFrom]
      split
      · split <;> simp_all
      · simp_all
    · rw [List.nil_append, attempts_map]
      rfl
  · rfl

theorem firstUsable_width {size : Half × Half} (h : firstUsable modes size = some mode) :
    mode.fb.width = size.1 := by
  have hmatch := List.find?_some h
  rw [decide_eq_true_eq] at hmatch
  exact hmatch.1

theorem tryFrom_detailed {num : Nat} (h : ¬Faulty modes edid (.detailed num)) :
    tryFrom modes edid (.detailed num) = .ok (modeFor modes edid (.detailed num)) := by
  rw [tryFrom, edidParseDetailed, modeFor, TimingSource.size]
  cases hentry : edid.detailedTimings[num]? with
  | none => rfl
  | some entry =>
      by_cases hdescriptor : IsDescriptor entry
      · simp [hdescriptor, Except.map]
      · have hpixels := fun hzero => h ⟨entry, hentry, hdescriptor, (pixels_eq_zero ..).mp hzero⟩
        simp only [if_neg hdescriptor, if_neg hpixels, Except.map, Option.bind_some, tryTiming_eq]

theorem tryFrom_detailed_faulty {num : Nat} (h : Faulty modes edid (.detailed num)) :
    tryFrom modes edid (.detailed num) = .error .divideError := by
  obtain ⟨entry, hentry, hdescriptor, hpixels⟩ := h
  have hzero := (pixels_eq_zero ..).mpr hpixels
  rw [tryFrom, edidParseDetailed, hentry]
  simp [hdescriptor, hzero, Except.map]

theorem tryFrom_standard_one {num : Nat} {byte1 : Byte}
    (h : edid.standardTimings[num]? = some (1, byte1)) :
    tryFrom modes edid (.standard num) = .ok none := by
  rw [tryFrom, edidParseStandard, h]
  simp

theorem tryFrom_standard_ne {num : Nat} {byte0 byte1 : Byte} (hne : byte0 ≠ 1)
    (h : edid.standardTimings[num]? = some (byte0, byte1)) :
    tryFrom modes edid (.standard num) = .ok (modeFor modes edid (.standard num)) := by
  rw [tryFrom, edidParseStandard, modeFor, TimingSource.size, h]
  simp only [hne, false_and, if_false, Option.bind_some, tryTiming_eq]

/-- What a standard timing with a 1 in its first byte is for. -/
theorem modeFor_standard_one {num : Nat} {byte1 : Byte}
    (h : edid.standardTimings[num]? = some (1, byte1)) :
    modeFor modes edid (.standard num)
      = if byte1 = 1 then none else firstUsable modes (standardSize 1 byte1) := by
  rw [modeFor, TimingSource.size, h]
  by_cases hunused : byte1 = 1
  · simp only [hunused, if_true, Option.bind_some, and_self, Option.bind_none]
  · simp only [hunused, if_false, Option.bind_some, and_false]

theorem tryFrom_standard_faulty {num : Nat} (h : Faulty modes edid (.standard num)) :
    tryFrom modes edid (.standard num) = .ok none
      ∧ ∃ mode, modeFor modes edid (.standard num) = some mode ∧ mode.fb.width = 256 := by
  obtain ⟨byte1, hentry, hused, hsome⟩ := h
  obtain ⟨mode, hmode⟩ := Option.isSome_iff_exists.mp hsome
  refine ⟨tryFrom_standard_one hentry, mode, ?_, firstUsable_width hmode⟩
  rw [modeFor_standard_one hentry, if_neg hused, hmode]

theorem tryFrom_standard {num : Nat} (h : ¬Faulty modes edid (.standard num)) :
    tryFrom modes edid (.standard num) = .ok (modeFor modes edid (.standard num)) := by
  cases hentry : edid.standardTimings[num]? with
  | none =>
      rw [tryFrom, edidParseStandard, modeFor, TimingSource.size, hentry]
      rfl
  | some bytes =>
      obtain ⟨byte0, byte1⟩ := bytes
      by_cases hone : byte0 = 1
      · subst hone
        rw [tryFrom_standard_one hentry, modeFor_standard_one hentry]
        split
        · rfl
        · next hused =>
            refine congrArg Except.ok (Option.eq_none_iff_forall_ne_some.mpr ?_).symm
            intro mode hmode
            exact h ⟨byte1, hentry, hused, Option.isSome_of_eq_some hmode⟩
      · exact tryFrom_standard_ne hone hentry

/-- The loops are right about a timing, or it is faulty: then they end with
the exception, or they pass over a mode that is 256 pixels wide. -/
theorem tryFrom_cases (modes : List (Half × Option VBEModeInfo)) (edid : EDIDRecord)
    (s : TimingSource) :
    ¬Faulty modes edid s ∧ tryFrom modes edid s = .ok (modeFor modes edid s)
      ∨ Faulty modes edid s ∧ tryFrom modes edid s = .error .divideError
      ∨ Faulty modes edid s ∧ (∃ num, s = .standard num) ∧ tryFrom modes edid s = .ok none
        ∧ ∃ mode, modeFor modes edid s = some mode ∧ mode.fb.width = 256 := by
  by_cases hfault : Faulty modes edid s
  · refine .inr ?_
    cases s with
    | detailed num => exact .inl ⟨hfault, tryFrom_detailed_faulty hfault⟩
    | standard num => exact .inr ⟨hfault, ⟨num, rfl⟩, tryFrom_standard_faulty hfault⟩
    | safe timing => exact hfault.elim
  · refine .inl ⟨hfault, ?_⟩
    cases s with
    | detailed num => exact tryFrom_detailed hfault
    | standard num => exact tryFrom_standard hfault
    | safe timing => exact congrArg Except.ok (tryTiming_eq timing)

theorem tryFrom_sound (h : tryFrom modes edid s = .ok (some mode)) :
    modeFor modes edid s = some mode := by
  rcases tryFrom_cases modes edid s with ⟨-, heq⟩ | ⟨-, heq⟩ | ⟨-, -, heq, -⟩
  · exact Except.ok.inj (heq.symm.trans h)
  · cases heq.symm.trans h
  · cases heq.symm.trans h

theorem tryFrom_eq_iff : tryFrom modes edid s = .ok (modeFor modes edid s)
    ↔ ¬Faulty modes edid s := by
  rcases tryFrom_cases modes edid s with ⟨hok, heq⟩ | ⟨hfault, heq⟩ | ⟨hfault, -, heq, _, hmode, -⟩
  · exact iff_of_true heq hok
  · exact iff_of_false (fun h => nomatch heq.symm.trans h) (absurd hfault)
  · rw [hmode]
    exact iff_of_false (fun h => nomatch heq.symm.trans h) (absurd hfault)

/-! ## One timing after the other -/

theorem standard_width_ne {num : Nat} (h : tryFrom modes edid (.standard num) = .ok (some mode)) :
    mode.fb.width ≠ 256 := by
  have hmode := tryFrom_sound h
  rw [modeFor, TimingSource.size] at hmode
  cases hentry : edid.standardTimings[num]? with
  | none =>
      rw [hentry] at hmode
      cases hmode
  | some bytes =>
      obtain ⟨byte0, byte1⟩ := bytes
      have hne : byte0 ≠ 1 := by
        rintro rfl
        cases (tryFrom_standard_one hentry).symm.trans h
      rw [hentry] at hmode
      simp only [hne, false_and, if_false, Option.bind_some] at hmode
      rw [firstUsable_width hmode]
      show (byte0.setWidth 16 + 31) * 8 ≠ 256#16
      bv_omega

theorem safe_width_ne {timing : VideoTiming} (hsafe : timing ∈ safeTimings)
    (h : tryFrom modes edid (.safe timing) = .ok (some mode)) : mode.fb.width ≠ 256 := by
  rw [firstUsable_width (tryFrom_sound h)]
  revert hsafe
  simp only [safeTimings, List.mem_cons, List.not_mem_nil, or_false]
  rintro (rfl | rfl | rfl | rfl | rfl | rfl | rfl | rfl) <;> decide

theorem tryOrder_pairwise {P : TimingSource → Prop} (hstandard : ∀ num, P (.standard num))
    (hsafe : ∀ timing ∈ safeTimings, P (.safe timing)) (status : Word) :
    (tryOrder status).Pairwise fun s t => (∃ num, s = .detailed num) ∨ P t := by
  have hsafe' : ∀ t ∈ safeTimings.map TimingSource.safe, P t :=
    List.forall_mem_map.mpr hsafe
  have hstandard' : ∀ t ∈ (List.range 8).map TimingSource.standard, P t :=
    List.forall_mem_map.mpr fun num _ => hstandard num
  have hdetailed : ∀ s ∈ (List.range 4).map TimingSource.detailed, ∃ num, s = .detailed num :=
    List.forall_mem_map.mpr fun num _ => ⟨num, rfl⟩
  unfold tryOrder
  split
  · split
    · rw [List.append_assoc, List.pairwise_append]
      have hrest := List.forall_mem_append.mpr ⟨hstandard', hsafe'⟩
      exact ⟨List.pairwise_of_forall_mem_list fun s hs _ _ => .inl (hdetailed s hs),
        List.pairwise_of_forall_mem_list fun _ _ t ht => .inr (hrest t ht),
        fun s hs _ _ => .inl (hdetailed s hs)⟩
    · exact List.pairwise_of_forall_mem_list fun _ _ t ht => .inr (hsafe' t ht)
  · exact .nil

theorem bestMode_eq_iff : videoEarlyBestMode status modes edid
      = .ok ((tryOrder status).findSome? (modeFor modes edid))
    ↔ ∀ s, IsReached (modeFor modes edid) (tryOrder status) s → ¬Faulty modes edid s := by
  rw [bestMode_eq_attempts, attempts_eq_iff fun s _ mode h => tryFrom_sound h]
  · simp only [tryFrom_eq_iff]
  · -- a mode that is passed over is 256 pixels wide, and later ones are not
    refine (tryOrder_pairwise (P := fun t => ∀ mode, tryFrom modes edid t = .ok (some mode) →
      mode.fb.width ≠ 256) (fun _ _ h => standard_width_ne h) (fun _ hs _ h => safe_width_ne hs h)
      status).imp ?_
    intro s t hlater hnone mode hmode hagain
    rcases tryFrom_cases modes edid s
      with ⟨-, heq⟩ | ⟨-, heq⟩ | ⟨-, ⟨num, rfl⟩, -, mode', hmode', hwidth⟩
    · rw [hnone, hmode] at heq
      cases heq
    · cases hnone.symm.trans heq
    · rcases hlater with ⟨num', hdetailed⟩ | hlater
      · cases hdetailed
      · obtain rfl := Option.some.inj (hmode.symm.trans hmode')
        exact hlater mode hagain hwidth

/-- The mode is right if it is that of the first timing that has one. -/
theorem bestModeRight_iff : BestModeRight status modes edid
    ↔ videoEarlyBestMode status modes edid
      = .ok ((tryOrder status).findSome? (modeFor modes edid)) := by
  constructor
  · intro h
    obtain ⟨result, hresult⟩ := h.terminates
    rw [hresult]
    refine congrArg Except.ok ?_
    cases result with
    | none => exact (List.findSome?_eq_none_iff.mpr (h.unsupported.mp hresult)).symm
    | some mode =>
        exact (findSome?_eq_some_iff_isReached.mpr ((h.returned mode).mp hresult)).symm
  · intro h
    refine ⟨⟨_, h⟩, fun mode => ?_, ?_⟩
    · rw [h, Except.ok.injEq, findSome?_eq_some_iff_isReached]
    · rw [h, Except.ok.injEq, List.findSome?_eq_none_iff]

/-- The mode is right if and only if no faulty timing is reached. -/
theorem bestMode_right_iff (status : Word) (modes : List (Half × Option VBEModeInfo))
    (edid : EDIDRecord) : BestModeRight status modes edid
      ↔ ∀ s, IsReached (modeFor modes edid) (tryOrder status) s → ¬Faulty modes edid s :=
  bestModeRight_iff.trans bestMode_eq_iff

end BestMode

/-- A mode of 32 bits for each pixel. -/
def directMode (width height : Half) : VBEModeInfo where
  modeAttributes := 0x9B
  xResolution := width
  yResolution := height
  bitsPerPixel := 32
  memoryModel := 6
  physBasePtr := 0xFD000000
  linBytesPerScanLine := width * 4
  linRedMaskSize := 8
  linRedFieldPosition := 16
  linGreenMaskSize := 8
  linGreenFieldPosition := 8
  linBlueMaskSize := 8
  linBlueFieldPosition := 0

/-- No timings: unused ones, and descriptors. -/
def noTimings : EDIDRecord where
  standardTimings := .replicate 8 (1, 1)
  detailedTimings := .replicate 4 (.replicate 18 0)

/-- A timing with a clock and no pixels. -/
def noPixels : EDIDRecord :=
  { noTimings with
    detailedTimings := noTimings.detailedTimings.set 0 ((Vector.replicate 18 0).set 0 1) }

/-- A timing of 256 by 192 pixels. -/
def narrowTiming : EDIDRecord :=
  { noTimings with standardTimings := noTimings.standardTimings.set 0 (1, 0x40) }

/-- A mode for it, and a safe one. -/
def narrowModes : List (Half × Option VBEModeInfo) :=
  [(0x120, some (directMode 256 192)), (0x112, some (directMode 640 480))]

/-- The division by zero, and the narrow mode that is passed over. -/
theorem bestMode_wrong :
    ¬BestModeRight 3 narrowModes noPixels ∧ ¬BestModeRight 3 narrowModes narrowTiming := by
  rw [bestModeRight_iff, bestModeRight_iff]
  exact ⟨by decide +kernel, by decide +kernel⟩

end SpKernel
