import SpKernel.BestMode
import SpKernel.Lib.BitField

/-!
# Colours (`kern/video/color`)

A colour has a field for each component, by the mask and the position
that `video_convertVBEMode` takes from the mode. A component is read from
its field as it was put there, without the bits the field has no room for
(`color_round_trip`), also when the field ends at the sign.

The two functions of the source are those of the library on fields of
bits, for the field of a component (`colorGetComponent_eq`). What is left
to show is that the fields of a mode are fields: the mask has as many
ones as the size says (`colorMask_isMask`), and none has a bit of
another. That is assumed of the mode (`VBEModeInfo.Packable`), as the
BIOS reports it. The position is used modulo 32 by a shift, and only a
field without bits can have another one
(`VBEModeInfo.Packable.has_of_shifted`).
-/

namespace SpKernel

open Lib

inductive VideoComp where
  | red | green | blue
deriving Repr, DecidableEq

/-- `colorspace[comp]` -/
def VideoColorSpace.config (colorspace : VideoColorSpace) : VideoComp → VideoColorConfig
  | .red => colorspace.red
  | .green => colorspace.green
  | .blue => colorspace.blue

/-- `color_getComponent`; the processor shifts by the position modulo 32. -/
def colorGetComponent (colorspace : VideoColorSpace) (comp : VideoComp) (value : Word) : VideoCol :=
  let config := colorspace.config comp
  (value &&& config.mask.setWidth 32) <<< (config.position.toNat % 32)

def colorGetColor (colorspace : VideoColorSpace) (red green blue : Word) : VideoCol :=
  colorGetComponent colorspace .red red ||| colorGetComponent colorspace .green green
    ||| colorGetComponent colorspace .blue blue

/-- `color_valueOf`; a colour is signed. -/
def colorValueOf (colorspace : VideoColorSpace) (comp : VideoComp) (color : VideoCol) : Word :=
  let config := colorspace.config comp
  color.sshiftRight (config.position.toNat % 32) &&& config.mask.setWidth 32

/-! ## Layouts -/

/-- The field of a component, as the mode says. -/
def VBEModeInfo.field (vbe : VBEModeInfo) : VideoComp → BitField
  | .red => ⟨vbe.linRedMaskSize.toNat, vbe.linRedFieldPosition.toNat⟩
  | .green => ⟨vbe.linGreenMaskSize.toNat, vbe.linGreenFieldPosition.toNat⟩
  | .blue => ⟨vbe.linBlueMaskSize.toNat, vbe.linBlueFieldPosition.toNat⟩

/-- The fields have eight bits at most, are in the word, and have no bit in common. -/
structure VBEModeInfo.Packable (vbe : VBEModeInfo) : Prop where
  size : ∀ comp, (vbe.field comp).size ≤ 8
  fits : ∀ comp, (vbe.field comp).position + (vbe.field comp).size ≤ 32
  disjoint : ∀ comp comp', comp ≠ comp' → ∀ i, ¬((vbe.field comp).Has i ∧ (vbe.field comp').Has i)

/-- One of three components. -/
def pick (red green blue : Word) : VideoComp → Word
  | .red => red
  | .green => green
  | .blue => blue

/-- The field as the shifts have it: one without bits may be anywhere. -/
def VBEModeInfo.shifted (vbe : VBEModeInfo) (comp : VideoComp) : BitField :=
  { vbe.field comp with position := (vbe.field comp).position % 32 }

variable {vbe : VBEModeInfo}

theorem colorMask_isMask {size : Byte} (h : size.toNat ≤ 8) (position : Nat) :
    (⟨size.toNat, position⟩ : BitField).IsMask ((colorMask size).setWidth 32) := by
  have hall : ∀ k ≤ 8, ∀ i < 32,
      ((colorMask (BitVec.ofNat 8 k)).setWidth 32).getLsbD i = decide (i < k) := by decide
  intro i hi
  have hsize : BitVec.ofNat 8 size.toNat = size := by rw [BitVec.ofNat_toNat, BitVec.setWidth_eq]
  have hbit := hall size.toNat h i hi
  rwa [hsize] at hbit

theorem VBEModeInfo.Packable.isMask (h : vbe.Packable) (comp : VideoComp) :
    (vbe.shifted comp).IsMask
      (((videoConvertVBEMode vbe).colorspace.config comp).mask.setWidth 32) := by
  cases comp with
  | red => exact colorMask_isMask (h.size .red) _
  | green => exact colorMask_isMask (h.size .green) _
  | blue => exact colorMask_isMask (h.size .blue) _

theorem VBEModeInfo.shifted_position (vbe : VBEModeInfo) (comp : VideoComp) :
    (vbe.shifted comp).position
      = ((videoConvertVBEMode vbe).colorspace.config comp).position.toNat % 32 := by
  cases comp <;> rfl

theorem VBEModeInfo.Packable.shifted_fits (h : vbe.Packable) (comp : VideoComp) :
    (vbe.shifted comp).position + (vbe.shifted comp).size ≤ 32 := by
  have hfits := h.fits comp
  have hle := Nat.mod_le (vbe.field comp).position 32
  exact (Nat.add_le_add_right hle _).trans hfits

/-- Only a field without bits is moved by taking its position modulo 32. -/
theorem VBEModeInfo.Packable.has_of_shifted (h : vbe.Packable) {comp : VideoComp} {i : Nat}
    (hi : (vbe.shifted comp).Has i) : (vbe.field comp).Has i := by
  have hfits := h.fits comp
  obtain ⟨hlow, hhigh⟩ := hi
  simp only [VBEModeInfo.shifted] at hlow hhigh
  have hmod := Nat.mod_eq_of_lt (by omega : (vbe.field comp).position < 32)
  rw [hmod] at hlow hhigh
  exact ⟨hlow, hhigh⟩

theorem colorGetComponent_eq (vbe : VBEModeInfo) (comp : VideoComp) (value : Word) :
    colorGetComponent (videoConvertVBEMode vbe).colorspace comp value
      = (vbe.shifted comp).place
          (((videoConvertVBEMode vbe).colorspace.config comp).mask.setWidth 32) value := by
  rw [BitField.place, vbe.shifted_position]
  rfl

theorem valueOf_getComponent (h : vbe.Packable) (comp comp' : VideoComp) (value : Word) :
    colorValueOf (videoConvertVBEMode vbe).colorspace comp
        (colorGetComponent (videoConvertVBEMode vbe).colorspace comp' value)
      = if comp = comp'
        then value &&& ((videoConvertVBEMode vbe).colorspace.config comp).mask.setWidth 32
        else 0 := by
  rw [colorGetComponent_eq, colorValueOf, ← vbe.shifted_position]
  split
  · next he =>
      subst he
      exact BitField.extract_place (h.isMask comp) (h.shifted_fits comp)
  · next hne =>
      exact BitField.extract_place_other (h.isMask comp) (h.isMask comp') (h.shifted_fits comp)
        fun i hi hi' => h.disjoint comp comp' hne i ⟨h.has_of_shifted hi, h.has_of_shifted hi'⟩

theorem valueOf_or (h : vbe.Packable) (comp : VideoComp) (x y : VideoCol) :
    colorValueOf (videoConvertVBEMode vbe).colorspace comp (x ||| y)
      = colorValueOf (videoConvertVBEMode vbe).colorspace comp x
        ||| colorValueOf (videoConvertVBEMode vbe).colorspace comp y := by
  rw [colorValueOf, colorValueOf, colorValueOf, ← vbe.shifted_position]
  exact BitField.extract_or _ _ x y (h.isMask comp) (h.shifted_fits comp)

/-- Each component comes back, modulo the size of its field. -/
theorem color_round_trip (vbe : VBEModeInfo) (h : vbe.Packable) (red green blue : Word)
    (comp : VideoComp) :
    (colorValueOf (videoConvertVBEMode vbe).colorspace comp
        (colorGetColor (videoConvertVBEMode vbe).colorspace red green blue)).toNat
      = (pick red green blue comp).toNat % 2 ^ (vbe.field comp).size := by
  have hmask := BitField.and_mask_toNat (x := pick red green blue comp) (h.isMask comp)
  have hsize : (vbe.shifted comp).size = (vbe.field comp).size := rfl
  rw [← hsize, ← hmask, colorGetColor, valueOf_or h, valueOf_or h, valueOf_getComponent h,
    valueOf_getComponent h, valueOf_getComponent h]
  cases comp <;> simp [pick]

/-- A mode of 32 bits, red at the top. -/
def topRedMode : VBEModeInfo where
  modeAttributes := 0x9B
  xResolution := 640
  yResolution := 480
  bitsPerPixel := 32
  memoryModel := 6
  physBasePtr := 0xE0000000
  linBytesPerScanLine := 2560
  linRedMaskSize := 8
  linRedFieldPosition := 24
  linGreenMaskSize := 8
  linGreenFieldPosition := 16
  linBlueMaskSize := 8
  linBlueFieldPosition := 8

theorem topRedMode_packable : topRedMode.Packable where
  size := fun comp => by cases comp <;> decide
  fits := fun comp => by cases comp <;> decide
  disjoint := by
    rintro comp comp' hne i ⟨⟨h1, h2⟩, h3, h4⟩
    cases comp <;> cases comp' <;>
      simp [VBEModeInfo.field, topRedMode] at hne h1 h2 h3 h4 <;> omega

/-- A red whose top bit is the sign of the colour. -/
theorem color_round_trip_sign :
    (colorValueOf (videoConvertVBEMode topRedMode).colorspace .red
        (colorGetColor (videoConvertVBEMode topRedMode).colorspace 0x1FF 0x12 0x34)).toNat
      = (0x1FF : Word).toNat % 2 ^ 8 :=
  color_round_trip topRedMode topRedMode_packable 0x1FF 0x12 0x34 .red

end SpKernel
