import SpKernel.Lib.Memory
import SpKernel.Lib.Painting
import SpKernel.Types

/-!
# The framebuffer (`fb.c`, `rect.c`)

A pixel of the linear framebuffer takes up one to four bytes at
`y * pitch + x * (bpp / 8)`. `fb_putpixel` computes that for each pixel.
The functions that fill the screen or a rectangle keep an offset and move
it on, from a column to the next and over the rest of a scanline.

Both ways paint the same pixels in the sense of `Lib.Painting`, with the
bytes of a pixel as its cell (`VideoFb.cover`), and no two pixels share a
byte (`pixel_unique`). So they leave the same memory, and no byte that is
not of one of the pixels is written (`bulk_eq_pixels`).

- One pixel: `fbPutpixelf_eq` says that the four ways of storing a
  colour, one for each depth, are one, and `putpixelf_painted` that this
  paints the pixel at the offset.
- Offsets: `fbOffset_eq` is the product, without overflow on a
  framebuffer that is `Valid`. `offset_column`, `offset_row` and
  `offset_scanline` are the three ways in which the loops move an offset
  on.
- Rows, rectangles and the screen: `putcolsf_painted`, `fillRows_painted`
  and `fbClear_painted`, each by induction on what is left to paint.
- Pixel by pixel: `putpixels_painted`, in any order.
-/

namespace SpKernel

open Lib

/-! ## The source -/

abbrev VideoCol : Type := Word

/-- `struct VideoColorConfig_s` -/
structure VideoColorConfig where
  mask : Byte
  position : Byte
deriving DecidableEq

/-- `VideoColorSpace`, by component. -/
structure VideoColorSpace where
  red : VideoColorConfig
  green : VideoColorConfig
  blue : VideoColorConfig
deriving DecidableEq

structure VideoFb where
  location : Word
  width : Half
  height : Half
  pitch : Half
  bpp : Byte
  colorspace : VideoColorSpace
deriving DecidableEq

/-- `fb->bpp / 8`, the length of a pixel. -/
def VideoFb.pixlen (fb : VideoFb) : Nat := fb.bpp.toNat / 8

def fbPutpixelf (fb : VideoFb) (offset : Word) (color : VideoCol) (m : Mem) : Mem :=
  let location := fb.location + offset
  match fb.pixlen with
  | 0 | 1 => store 1 m location (color.setWidth 8)
  | 2 => store 2 m location (color.setWidth 16)
  | 3 =>
      let m := store 2 m location (color.setWidth 16)
      store 1 m (location + 2) ((color.sshiftRight 16).setWidth 8)
  | 4 => store 4 m location color
  | _ => m

/-- `fb_offset`; the products are of type `int` and wrap. -/
def fbOffset (fb : VideoFb) (x y : Half) : Word :=
  y.setWidth 32 * fb.pitch.setWidth 32 + x.setWidth 32 * BitVec.ofNat 32 fb.pixlen

def fbPutpixel (fb : VideoFb) (x y : Half) (color : VideoCol) (m : Mem) : Mem :=
  fbPutpixelf fb (fbOffset fb x y) color m

/-- The loop of `fb_putcolsf`, over the colours of `buf`. -/
def fbPutcolsf (fb : VideoFb) : Word → List VideoCol → Mem → Mem
  | _, [], m => m
  | offset, color :: buf, m =>
      fbPutcolsf fb (offset + BitVec.ofNat 32 fb.pixlen) buf (fbPutpixelf fb offset color m)

/-- The loop of `fb_clearcolsf`, for the columns that are left. -/
def fbClearcolsf (fb : VideoFb) (color : VideoCol) : Word → Nat → Mem → Mem
  | _, 0, m => m
  | offset, cols + 1, m =>
      fbClearcolsf fb color (offset + BitVec.ofNat 32 fb.pixlen) cols
        (fbPutpixelf fb offset color m)

/-- `dpitch`, from the end of a scanline to the next, in 16 bits. -/
def VideoFb.dpitch (fb : VideoFb) : Half := fb.pitch - fb.width * BitVec.ofNat 16 fb.pixlen

/-- The loop of `fb_clear`. -/
def fbClearLoop (fb : VideoFb) (color : VideoCol) (offset : Word) (col row : Half) (m : Mem) :
    Mem :=
  let m := fbPutpixelf fb offset color m
  let offset := offset + BitVec.ofNat 32 fb.pixlen
  if col + 1 = fb.width then
    if row + 1 = fb.height then m
    else fbClearLoop fb color (offset + fb.dpitch.setWidth 32) 0 (row + 1) m
  else if row = fb.height then m
  else fbClearLoop fb color offset (col + 1) row m
termination_by ((fb.height - row - 1).toNat, (fb.width - col - 1).toNat)
decreasing_by
  · exact Prod.Lex.left _ _ (by bv_omega)
  · exact Prod.Lex.right _ (by bv_omega)

def fbClear (fb : VideoFb) (color : VideoCol) (m : Mem) : Mem := fbClearLoop fb color 0 0 0 m

structure Point where
  x : Word
  y : Word

structure Size where
  width : Word
  height : Word

structure Rect where
  loc : Point
  size : Size

/-- The loop of `graphics_fillRect`, for the rows that are left. -/
def fillRows (fb : VideoFb) (col : VideoCol) (rectWidth : Half) : Word → Nat → Mem → Mem
  | _, 0, m => m
  | offset, rows + 1, m =>
      fillRows fb col rectWidth (offset + fb.pitch.setWidth 32) rows
        (fbClearcolsf fb col offset rectWidth.toNat m)

/-- `graphics_fillRect`; what is an `int` in the rectangle is passed on in 16
bits. -/
def graphicsFillRect (fb : VideoFb) (fillCol : VideoCol) (rect : Rect) (m : Mem) : Mem :=
  fillRows fb fillCol (rect.size.width.setWidth 16)
    (fbOffset fb (rect.loc.x.setWidth 16) (rect.loc.y.setWidth 16))
    (rect.size.height.setWidth 16).toNat m

/-! ## Pixels -/

/-- A framebuffer of one of the four depths, with scanlines that are long
enough. -/
structure VideoFb.Valid (fb : VideoFb) : Prop where
  width : 1 ≤ fb.width.toNat
  height : 1 ≤ fb.height.toNat
  bpp : fb.bpp = 8 ∨ fb.bpp = 16 ∨ fb.bpp = 24 ∨ fb.bpp = 32
  pitch : fb.width.toNat * fb.pixlen ≤ fb.pitch.toNat

/-- Column and row. -/
abbrev Pixel : Type := Nat × Nat

def VideoFb.screen (fb : VideoFb) : Set Pixel :=
  {p | p.1 < fb.width.toNat ∧ p.2 < fb.height.toNat}

/-- The coordinates of a rectangle, row by row. -/
def blockPixels (x y width height : Nat) : List (Half × Half) :=
  (List.range height).flatMap fun j =>
    (List.range width).map fun i => (BitVec.ofNat 16 (x + i), BitVec.ofNat 16 (y + j))

/-- `fb_putpixel`, once for each. -/
def putpixels (fb : VideoFb) (color : VideoCol) (ps : List (Half × Half)) (m : Mem) : Mem :=
  ps.foldl (fun m p => fbPutpixel fb p.1 p.2 color m) m

/-- A rectangle on the screen. -/
structure Rect.Inside (rect : Rect) (fb : VideoFb) : Prop where
  left : 0 ≤ rect.loc.x.toInt
  top : 0 ≤ rect.loc.y.toInt
  width : 0 ≤ rect.size.width.toInt
  height : 0 ≤ rect.size.height.toInt
  right : rect.loc.x.toInt + rect.size.width.toInt ≤ fb.width.toNat
  bottom : rect.loc.y.toInt + rect.size.height.toInt ≤ fb.height.toNat

/-- The pixels of a rectangle. -/
def block (x y width height : Nat) : Set Pixel :=
  {p | (x ≤ p.1 ∧ p.1 < x + width) ∧ y ≤ p.2 ∧ p.2 < y + height}

/-- The pixels of a rectangle of the source. -/
def Rect.pixels (rect : Rect) : Set Pixel :=
  block rect.loc.x.toNat rect.loc.y.toNat rect.size.width.toNat rect.size.height.toNat

/-- Their coordinates, row by row. -/
def Rect.coords (rect : Rect) : List (Half × Half) :=
  blockPixels rect.loc.x.toNat rect.loc.y.toNat rect.size.width.toNat rect.size.height.toNat

/-- The offset of a pixel. -/
def VideoFb.offsetOf (fb : VideoFb) (p : Pixel) : Nat := p.2 * fb.pitch.toNat + p.1 * fb.pixlen

/-- The place of an address among the bytes of a pixel. -/
def VideoFb.byteOf (fb : VideoFb) (p : Pixel) (a : Word) : Nat :=
  (a - (fb.location + BitVec.ofNat 32 (fb.offsetOf p))).toNat

/-- The bytes of a pixel, in its colour. -/
def VideoFb.cover (fb : VideoFb) (colour : Pixel → VideoCol) (p : Pixel) (a : Word) :
    Option Byte :=
  if fb.byteOf p a < fb.pixlen then some ((colour p >>> (8 * fb.byteOf p a)).setWidth 8) else none

section Pixels

variable {fb : VideoFb} {colour : Pixel → VideoCol} {m m' : Mem}

theorem VideoFb.Valid.pixlen_cases (h : fb.Valid) :
    fb.pixlen = 1 ∨ fb.pixlen = 2 ∨ fb.pixlen = 3 ∨ fb.pixlen = 4 := by
  unfold VideoFb.pixlen
  rcases h.bpp with hb | hb | hb | hb <;> rw [hb] <;> decide

theorem VideoFb.Valid.offset_lt (h : fb.Valid) {p : Pixel} (hp : p ∈ fb.screen) :
    p.1 * fb.pixlen + fb.pixlen ≤ fb.pitch.toNat ∧ fb.offsetOf p + fb.pixlen ≤ 2 ^ 32 := by
  have hcol : (p.1 + 1) * fb.pixlen ≤ fb.pitch.toNat :=
    (Nat.mul_le_mul_right _ hp.1).trans h.pitch
  have hrow : (p.2 + 1) * fb.pitch.toNat ≤ 65535 * 65535 := by
    refine Nat.mul_le_mul ?_ ?_
    · have hrow := hp.2
      have := fb.height.isLt
      omega
    · have := fb.pitch.isLt
      omega
  rw [Nat.succ_mul] at hcol hrow
  refine ⟨hcol, ?_⟩
  unfold VideoFb.offsetOf
  omega

/-- From the byte of a pixel one gets back to its offset. -/
theorem offset_add_byteOf (h : fb.Valid) {p : Pixel} (hp : p ∈ fb.screen) {a : Word}
    (ha : fb.byteOf p a < fb.pixlen) :
    (a - fb.location).toNat = fb.offsetOf p + fb.byteOf p a := by
  have hlt := (h.offset_lt hp).2
  unfold VideoFb.byteOf at ha ⊢
  generalize fb.offsetOf p = off at *
  have h1 := a.isLt
  have h2 := fb.location.isLt
  simp only [BitVec.toNat_sub, BitVec.toNat_add, BitVec.toNat_ofNat] at ha ⊢
  omega

theorem pixel_unique (h : fb.Valid) {p q : Pixel} (hp : p ∈ fb.screen) (hq : q ∈ fb.screen)
    {a : Word} (hpa : fb.byteOf p a < fb.pixlen) (hqa : fb.byteOf q a < fb.pixlen) : p = q := by
  have hoff : fb.offsetOf p + fb.byteOf p a = fb.offsetOf q + fb.byteOf q a := by
    rw [← offset_add_byteOf h hp hpa, ← offset_add_byteOf h hq hqa]
  unfold VideoFb.offsetOf at hoff
  have hpitch := (h.offset_lt hp).1
  have hpitch' := (h.offset_lt hq).1
  -- the row is the quotient by the pitch, the column the one of what is left
  have hrow : p.2 = q.2 := by
    have hdiv := congrArg (· / fb.pitch.toNat) hoff
    simp only [Nat.add_assoc] at hdiv
    rw [Nat.mul_comm p.2, Nat.mul_comm q.2, Nat.mul_add_div (by omega), Nat.mul_add_div (by omega),
      Nat.div_eq_of_lt (by omega), Nat.div_eq_of_lt (by omega)] at hdiv
    omega
  have hcol : p.1 = q.1 := by
    rw [hrow] at hoff
    have hcells : fb.pixlen * p.1 + fb.byteOf p a = fb.pixlen * q.1 + fb.byteOf q a := by
      rw [Nat.mul_comm, Nat.mul_comm fb.pixlen]
      omega
    have hdiv := congrArg (· / fb.pixlen) hcells
    rw [Nat.mul_add_div (by omega), Nat.mul_add_div (by omega), Nat.div_eq_of_lt hpa,
      Nat.div_eq_of_lt hqa] at hdiv
    omega
  exact Prod.ext hcol hrow

theorem cover_eq_some {p : Pixel} {a : Word} {b : Byte} (h : fb.cover colour p a = some b) :
    fb.byteOf p a < fb.pixlen := by
  by_contra hout
  rw [VideoFb.cover, if_neg hout] at h
  cases h

theorem agree_screen (h : fb.Valid) (colour : Pixel → VideoCol) :
    Agree (fb.cover colour) fb.screen :=
  agree_of_disjoint fun _ hp _ hq _ _ _ hb hc =>
    pixel_unique h hp hq (cover_eq_some hb) (cover_eq_some hc)

/-! ## One pixel -/

theorem shift_setWidth (v : Word) {w d : Nat} (h : 8 * d + 8 ≤ w) :
    (v.setWidth w >>> (8 * d)).setWidth 8 = (v >>> (8 * d)).setWidth 8 := by
  refine BitVec.eq_of_getLsbD_eq fun i hi => ?_
  have hlt : 8 * d + i < w := by omega
  simp [hlt]

theorem store_apply {n w : Nat} (m : Mem) (location a : Word) (color : VideoCol) (h : 8 * n ≤ w) :
    store n m location (color.setWidth w) a
      = if (a - location).toNat < n then (color >>> (8 * (a - location).toNat)).setWidth 8
        else m a := by
  unfold store
  split
  · exact shift_setWidth color (by omega)
  · rfl

/-- The third byte of a pixel, which is shifted down with the sign. -/
theorem shift_sign (v : Word) : (v.sshiftRight 16).setWidth 8 = (v >>> (8 * 2)).setWidth 8 := by
  refine BitVec.eq_of_getLsbD_eq fun i hi => ?_
  have hlt : 16 + i < 32 := by omega
  have hle : ¬32 ≤ i := by omega
  simp [BitVec.getLsbD_sshiftRight, hlt, hle]

theorem store_three (m : Mem) (location a : Word) (color : VideoCol) :
    store 1 (store 2 m location (color.setWidth 16)) (location + 2)
        ((color.sshiftRight 16).setWidth 8) a
      = if (a - location).toNat < 3 then (color >>> (8 * (a - location).toNat)).setWidth 8
        else m a := by
  have hthird : a = location + 2 ↔ (a - location).toNat = 2 := by bv_omega
  rw [store_byte, store_apply m location a color (by omega), shift_sign]
  by_cases h2 : (a - location).toNat = 2
  · rw [if_pos (hthird.mpr h2), if_pos (by omega), h2]
  · rw [if_neg fun h => h2 (hthird.mp h)]
    exact if_congr (by omega) rfl rfl

theorem fbPutpixelf_eq (colour : Pixel → VideoCol) (h : fb.Valid) (p : Pixel) (m : Mem) :
    fbPutpixelf fb (BitVec.ofNat 32 (fb.offsetOf p)) (colour p) m
      = paint (fb.cover colour) m p := by
  funext a
  have hpaint : paint (fb.cover colour) m p a = if fb.byteOf p a < fb.pixlen
      then (colour p >>> (8 * fb.byteOf p a)).setWidth 8 else m a := by
    rw [paint, VideoFb.cover]
    split <;> rfl
  rw [hpaint, fbPutpixelf, VideoFb.byteOf]
  generalize fb.location + BitVec.ofNat 32 (fb.offsetOf p) = location
  rcases h.pixlen_cases with hlen | hlen | hlen | hlen <;> simp only [hlen]
  · exact store_apply m location a (colour p) (by omega)
  · exact store_apply m location a (colour p) (by omega)
  · exact store_three m location a (colour p)
  · exact (BitVec.setWidth_eq (colour p)) ▸ store_apply m location a (colour p) (by omega)

/-- The pixel at an offset that is kept in a register. -/
theorem putpixelf_painted (colour : Pixel → VideoCol) (h : fb.Valid) (p : Pixel) {offset : Word}
    (hoffset : offset = BitVec.ofNat 32 (fb.offsetOf p)) (m : Mem) :
    Painted (fb.cover colour) {p} m (fbPutpixelf fb offset (colour p) m) := by
  rw [hoffset, fbPutpixelf_eq colour h]
  exact painted_paint _ m p

/-! ## Offsets -/

theorem fbOffset_eq (fb : VideoFb) (x y : Half) :
    fbOffset fb x y = BitVec.ofNat 32 (fb.offsetOf (x.toNat, y.toNat)) := by
  rw [fbOffset, VideoFb.offsetOf, BitVec.ofNat_add, BitVec.ofNat_mul, BitVec.ofNat_mul]
  simp only [BitVec.ofNat_toNat]

theorem offset_column (fb : VideoFb) (x y : Nat) :
    BitVec.ofNat 32 (fb.offsetOf (x, y)) + BitVec.ofNat 32 fb.pixlen
      = BitVec.ofNat 32 (fb.offsetOf (x + 1, y)) := by
  rw [← BitVec.ofNat_add, VideoFb.offsetOf, VideoFb.offsetOf, Nat.succ_mul, Nat.add_assoc]

theorem offset_row (fb : VideoFb) (x y : Nat) :
    BitVec.ofNat 32 (fb.offsetOf (x, y)) + fb.pitch.setWidth 32
      = BitVec.ofNat 32 (fb.offsetOf (x, y + 1)) := by
  rw [← BitVec.ofNat_toNat 32 fb.pitch, ← BitVec.ofNat_add,
    VideoFb.offsetOf, VideoFb.offsetOf, Nat.succ_mul, Nat.add_right_comm]

/-- From the end of a scanline to the start of the next. -/
theorem offset_scanline (h : fb.Valid) (y : Nat) :
    BitVec.ofNat 32 (fb.offsetOf (fb.width.toNat, y)) + fb.dpitch.setWidth 32
      = BitVec.ofNat 32 (fb.offsetOf (0, y + 1)) := by
  have hpitch := fb.pitch.isLt
  have hdpitch : fb.dpitch.toNat = fb.pitch.toNat - fb.width.toNat * fb.pixlen := by
    have hle := h.pitch
    have hprod : (fb.width * BitVec.ofNat 16 fb.pixlen).toNat = fb.width.toNat * fb.pixlen := by
      rw [BitVec.toNat_mul, BitVec.toNat_ofNat, Nat.mul_mod_mod, Nat.mod_eq_of_lt (by omega)]
    rw [VideoFb.dpitch, BitVec.toNat_sub, hprod]
    omega
  rw [← BitVec.ofNat_toNat 32 fb.dpitch, ← BitVec.ofNat_add,
    hdpitch, VideoFb.offsetOf, VideoFb.offsetOf, Nat.succ_mul, Nat.zero_mul, Nat.add_assoc,
    Nat.add_sub_cancel' h.pitch, Nat.add_zero]

/-! ## Columns and rows -/

theorem mem_block {x y width height : Nat} {p : Pixel} :
    p ∈ block x y width height ↔ (x ≤ p.1 ∧ p.1 < x + width) ∧ y ≤ p.2 ∧ p.2 < y + height :=
  Iff.rfl

theorem block_subset {x y width height : Nat} (hx : x + width ≤ fb.width.toNat)
    (hy : y + height ≤ fb.height.toNat) : block x y width height ⊆ fb.screen := by
  rintro p ⟨⟨-, hcol⟩, -, hrow⟩
  exact ⟨by omega, by omega⟩

theorem block_column (x y width : Nat) :
    block x y (width + 1) 1 = {(x, y)} ∪ block (x + 1) y width 1 := by
  ext ⟨c, r⟩
  simp only [mem_block, Set.mem_union, Set.mem_singleton_iff, Prod.mk.injEq]
  omega

theorem block_row (x y width height : Nat) :
    block x y width (height + 1) = block x y width 1 ∪ block x (y + 1) width height := by
  ext ⟨c, r⟩
  simp only [mem_block, Set.mem_union]
  omega

theorem block_empty (x y width : Nat) : block x y 0 width = ∅ ∧ block x y width 0 = ∅ := by
  constructor <;> ext ⟨c, r⟩ <;> simp only [mem_block, Set.mem_empty_iff_false, iff_false] <;> omega

/-- The colours of a buffer, from a pixel on in its row. -/
theorem putcolsf_painted (colour : Pixel → VideoCol) (h : fb.Valid) (y : Nat) :
    ∀ (buf : List VideoCol) {x : Nat} {m : Mem},
    (∀ k color, buf[k]? = some color → color = colour (x + k, y)) →
    x + buf.length ≤ fb.width.toNat → y + 1 ≤ fb.height.toNat →
    Painted (fb.cover colour) (block x y buf.length 1) m
      (fbPutcolsf fb (BitVec.ofNat 32 (fb.offsetOf (x, y))) buf m)
  | [], x, m, _, _, _ => by
      rw [List.length_nil, (block_empty x y 1).1]
      exact .empty _ m
  | color :: buf, x, m, hcolour, hx, hy => by
      have hhere : color = colour (x, y) := hcolour 0 color rfl
      have hrest : ∀ k color', buf[k]? = some color' → color' = colour (x + 1 + k, y) := by
        intro k color' hk
        rw [hcolour (k + 1) color' hk, Nat.add_assoc, Nat.add_comm 1]
      rw [List.length_cons] at hx ⊢
      have hsub : block x y (buf.length + 1) 1 ⊆ fb.screen := block_subset hx hy
      rw [fbPutcolsf, offset_column, hhere]
      rw [block_column] at hsub ⊢
      exact (putpixelf_painted colour h (x, y) rfl m).union
        (putcolsf_painted colour h y buf hrest (by omega) hy) ((agree_screen h colour).mono hsub)

theorem clearcolsf_eq (fb : VideoFb) (color : VideoCol) : ∀ (cols : Nat) (offset : Word) (m : Mem),
    fbClearcolsf fb color offset cols m = fbPutcolsf fb offset (List.replicate cols color) m
  | 0, _, _ => rfl
  | cols + 1, _, _ => clearcolsf_eq fb color cols _ _

theorem fillRows_painted (h : fb.Valid) (color : VideoCol) (rectWidth : Half) {x : Nat}
    (hx : x + rectWidth.toNat ≤ fb.width.toNat) : ∀ (rows : Nat) {y : Nat} {m : Mem},
    y + rows ≤ fb.height.toNat →
    Painted (fb.cover fun _ => color) (block x y rectWidth.toNat rows) m
      (fillRows fb color rectWidth (BitVec.ofNat 32 (fb.offsetOf (x, y))) rows m)
  | 0, y, m, _ => by
      rw [(block_empty x y _).2]
      exact .empty _ m
  | rows + 1, y, m, hy => by
      have hrow := putcolsf_painted (m := m) (fun _ => color) h y
        (List.replicate rectWidth.toNat color) (x := x)
        (fun k c hk => (List.eq_of_mem_replicate (List.mem_of_getElem? hk)))
        (by rwa [List.length_replicate]) (by omega)
      rw [List.length_replicate] at hrow
      rw [fillRows, offset_row, clearcolsf_eq]
      have hsub : block x y rectWidth.toNat (rows + 1) ⊆ fb.screen := block_subset hx hy
      rw [block_row] at hsub ⊢
      exact hrow.union (fillRows_painted h color rectWidth hx rows (by omega))
        ((agree_screen h _).mono hsub)

/-! ## The screen -/

/-- The pixels from one on, in the order of the loop. -/
def VideoFb.screenFrom (fb : VideoFb) (x y : Nat) : Set Pixel :=
  {p | p ∈ fb.screen ∧ (y < p.2 ∨ p.2 = y ∧ x ≤ p.1)}

section ScreenFrom

variable {x y : Nat}

theorem screenFrom_last (hx : x + 1 = fb.width.toNat) (hy : y + 1 = fb.height.toNat) :
    fb.screenFrom x y = {(x, y)} := by
  ext ⟨c, r⟩
  simp only [VideoFb.screenFrom, VideoFb.screen, Set.mem_ofPred_eq, Set.mem_singleton_iff,
    Prod.mk.injEq]
  omega

theorem screenFrom_scanline (hx : x + 1 = fb.width.toNat) (hy : y + 1 < fb.height.toNat) :
    fb.screenFrom x y = {(x, y)} ∪ fb.screenFrom 0 (y + 1) := by
  ext ⟨c, r⟩
  simp only [VideoFb.screenFrom, VideoFb.screen, Set.mem_ofPred_eq, Set.mem_union,
    Set.mem_singleton_iff, Prod.mk.injEq]
  omega

theorem screenFrom_column (hx : x + 1 < fb.width.toNat) (hy : y < fb.height.toNat) :
    fb.screenFrom x y = {(x, y)} ∪ fb.screenFrom (x + 1) y := by
  ext ⟨c, r⟩
  simp only [VideoFb.screenFrom, VideoFb.screen, Set.mem_ofPred_eq, Set.mem_union,
    Set.mem_singleton_iff, Prod.mk.injEq]
  omega

theorem screenFrom_subset (fb : VideoFb) (x y : Nat) : fb.screenFrom x y ⊆ fb.screen :=
  fun _ hp => hp.1

theorem screenFrom_zero (fb : VideoFb) : fb.screenFrom 0 0 = fb.screen := by
  ext ⟨c, r⟩
  simp only [VideoFb.screenFrom, VideoFb.screen, Set.mem_ofPred_eq]
  omega

end ScreenFrom

theorem offset_next {offset : Word} {col row : Nat}
    (hoffset : offset = BitVec.ofNat 32 (fb.offsetOf (col, row))) :
    offset + BitVec.ofNat 32 fb.pixlen = BitVec.ofNat 32 (fb.offsetOf (col + 1, row)) := by
  rw [hoffset, offset_column]

/-- The loop, from a pixel on, with the offset of that pixel. -/
theorem clearLoop_painted (h : fb.Valid) (color : VideoCol) (offset : Word) (col row : Half)
    (m : Mem) (hcol : col.toNat < fb.width.toNat) (hrow : row.toNat < fb.height.toNat)
    (hoffset : offset = BitVec.ofNat 32 (fb.offsetOf (col.toNat, row.toNat))) :
    Painted (fb.cover fun _ => color) (fb.screenFrom col.toNat row.toNat) m
      (fbClearLoop fb color offset col row m) := by
  fun_induction fbClearLoop fb color offset col row m with
  | case1 offset col row m _ hlast hend =>
      have hx : col.toNat + 1 = fb.width.toNat := by bv_omega
      have hy : row.toNat + 1 = fb.height.toNat := by bv_omega
      rw [screenFrom_last hx hy]
      exact putpixelf_painted (fun _ => color) h _ hoffset m
  | case2 offset col row m _ next hlast hend ih =>
      have hoffset' : next = _ := offset_next hoffset
      have hx : col.toNat + 1 = fb.width.toNat := by bv_omega
      have hy : (row + 1).toNat = row.toNat + 1 := by bv_omega
      have hnext : row.toNat + 1 < fb.height.toNat := by bv_omega
      have hpixel := putpixelf_painted (fun _ => color) h _ hoffset m
      have hrest := ih (by show 0 < _; omega) (by omega) (by
        rw [hoffset', hx, offset_scanline h, hy]
        rfl)
      have hsub := screenFrom_subset fb col.toNat row.toNat
      rw [hy] at hrest
      rw [screenFrom_scanline hx hnext] at hsub ⊢
      exact hpixel.union hrest ((agree_screen h _).mono hsub)
  | case3 offset col => exact absurd hrow (lt_irrefl _)
  | case4 offset col row m _ next hmore _ ih =>
      have hoffset' : next = _ := offset_next hoffset
      have hx : (col + 1).toNat = col.toNat + 1 := by bv_omega
      have hnext : col.toNat + 1 < fb.width.toNat := by bv_omega
      have hpixel := putpixelf_painted (fun _ => color) h _ hoffset m
      have hrest := ih (by omega) hrow (by rw [hoffset', hx])
      have hsub := screenFrom_subset fb col.toNat row.toNat
      rw [hx] at hrest
      rw [screenFrom_column hnext hrow] at hsub ⊢
      exact hpixel.union hrest ((agree_screen h _).mono hsub)

theorem fbClear_painted (h : fb.Valid) (color : VideoCol) (m : Mem) :
    Painted (fb.cover fun _ => color) fb.screen m (fbClear fb color m) := by
  have hzero : (0 : Word) = BitVec.ofNat 32 (fb.offsetOf (0, 0)) := by
    rw [VideoFb.offsetOf, Nat.zero_mul, Nat.zero_mul]
    rfl
  have hclear := clearLoop_painted h color 0 0 0 m h.width h.height hzero
  rwa [show fb.screenFrom (0 : Half).toNat (0 : Half).toNat = fb.screen from screenFrom_zero fb]
    at hclear

/-! ## Pixel by pixel -/

theorem mem_blockPixels {x y width height : Nat} (hx : x + width < 2 ^ 16)
    (hy : y + height < 2 ^ 16) (p : Pixel) :
    p ∈ (blockPixels x y width height).map (fun q => (q.1.toNat, q.2.toNat))
      ↔ p ∈ block x y width height := by
  obtain ⟨c, r⟩ := p
  simp only [blockPixels, List.mem_map, List.mem_flatMap, List.mem_range, mem_block]
  constructor
  · rintro ⟨-, ⟨j, hj, i, hi, rfl⟩, heq⟩
    simp only [BitVec.toNat_ofNat, Prod.mk.injEq] at heq
    omega
  · rintro ⟨⟨hleft, hright⟩, htop, hbottom⟩
    refine ⟨_, ⟨r - y, by omega, c - x, by omega, rfl⟩, ?_⟩
    simp only [BitVec.toNat_ofNat, Prod.mk.injEq]
    omega

/-- `fb_putpixel` for all pixels of a rectangle, in any order. -/
theorem putpixels_painted (h : fb.Valid) (color : VideoCol) {x y width height : Nat}
    (hx : x + width ≤ fb.width.toNat) (hy : y + height ≤ fb.height.toNat)
    {ps : List (Half × Half)} (hps : ps.Perm (blockPixels x y width height)) (m : Mem) :
    Painted (fb.cover fun _ => color) (block x y width height) m (putpixels fb color ps m) := by
  have hw := fb.width.isLt
  have hh := fb.height.isLt
  have hset : {p | p ∈ ps.map fun q => (q.1.toNat, q.2.toNat)} = block x y width height := by
    ext p
    rw [Set.mem_ofPred_eq, (hps.map _).mem_iff]
    exact mem_blockPixels (by omega) (by omega) p
  have hfold : putpixels fb color ps m
      = (ps.map fun q => (q.1.toNat, q.2.toNat)).foldl (paint (fb.cover fun _ => color)) m := by
    rw [putpixels, List.foldl_map]
    refine congrArg (fun f => ps.foldl f m) (funext fun m' => funext fun q => ?_)
    rw [fbPutpixel, fbOffset_eq]
    exact fbPutpixelf_eq (fun _ => color) h (q.1.toNat, q.2.toNat) m'
  rw [hfold, ← hset]
  refine painted_foldl _ m ((agree_screen h _).mono ?_)
  rw [hset]
  exact block_subset hx hy

theorem toInt_of_nonneg {v : Word} (h : 0 ≤ v.toInt) : v.toInt = v.toNat := by
  have hlt := v.isLt
  rw [BitVec.toInt_eq_toNat_cond] at h ⊢
  split at h
  · next hpos => exact if_pos hpos
  · omega

/-- Of a place and a length on the screen 16 bits are all there is. -/
theorem toNat_of_toInt {v w : Word} {n : Nat} (hv : 0 ≤ v.toInt) (hw : 0 ≤ w.toInt)
    (hsum : v.toInt + w.toInt ≤ n) (hn : n < 2 ^ 16) :
    (v.setWidth 16).toNat = v.toNat ∧ (w.setWidth 16).toNat = w.toNat ∧ v.toNat + w.toNat ≤ n := by
  rw [toInt_of_nonneg hv, toInt_of_nonneg hw] at hsum
  rw [BitVec.toNat_setWidth, BitVec.toNat_setWidth]
  omega

theorem graphicsFillRect_painted (h : fb.Valid) (color : VideoCol) {rect : Rect}
    (hin : rect.Inside fb) (m : Mem) :
    Painted (fb.cover fun _ => color) rect.pixels m (graphicsFillRect fb color rect m) := by
  obtain ⟨hx, hw, hright⟩ := toNat_of_toInt hin.left hin.width hin.right fb.width.isLt
  obtain ⟨hy, hh, hbottom⟩ := toNat_of_toInt hin.top hin.height hin.bottom fb.height.isLt
  have hrows := fillRows_painted h color (rect.size.width.setWidth 16)
    (x := rect.loc.x.toNat) (by rw [hw]; exact hright) rect.size.height.toNat
    (y := rect.loc.y.toNat) (m := m) hbottom
  rw [hw] at hrows
  rw [graphicsFillRect, fbOffset_eq, hx, hy, hh]
  exact hrows

/-- A byte of no pixel that is painted is left as it was. -/
theorem painted_untouched {S : Set Pixel} (hpaint : Painted (fb.cover colour) S m m') {a : Word}
    (ha : ∀ p ∈ S, fb.pixlen ≤ fb.byteOf p a) : m' a = m a :=
  hpaint.outside a fun p hp => if_neg (not_lt.mpr (ha p hp))

/-- `fb_clear` and `graphics_fillRect` leave memory as `fb_putpixel` does that
is called once for each pixel, in whatever order; a byte that is not of one of
these pixels is left as it was, and so are those of all other pixels. -/
theorem bulk_eq_pixels (h : fb.Valid) (color : VideoCol) (m : Mem) :
    (∀ ps : List (Half × Half), ps.Perm (blockPixels 0 0 fb.width.toNat fb.height.toNat) →
      fbClear fb color m = putpixels fb color ps m)
    ∧ (∀ a, (∀ p ∈ fb.screen, fb.pixlen ≤ fb.byteOf p a) → fbClear fb color m a = m a)
    ∧ ∀ rect : Rect, rect.Inside fb →
      (∀ ps : List (Half × Half), ps.Perm rect.coords →
        graphicsFillRect fb color rect m = putpixels fb color ps m)
      ∧ (∀ a, (∀ p ∈ rect.pixels, fb.pixlen ≤ fb.byteOf p a) →
        graphicsFillRect fb color rect m a = m a)
      ∧ ∀ q ∈ fb.screen, q ∉ rect.pixels → ∀ a, fb.byteOf q a < fb.pixlen →
        graphicsFillRect fb color rect m a = m a := by
  have hscreen : block 0 0 fb.width.toNat fb.height.toNat = fb.screen := by
    ext ⟨c, r⟩
    simp only [mem_block, VideoFb.screen, Set.mem_ofPred_eq]
    omega
  have hclear := fbClear_painted h color m
  refine ⟨fun ps hps => ?_, fun a ha => painted_untouched hclear ha, fun rect hin => ?_⟩
  · have hpixels := putpixels_painted h color (by omega) (by omega) hps m
    rw [hscreen] at hpixels
    exact hclear.unique hpixels
  · have hfill := graphicsFillRect_painted h color hin m
    obtain ⟨-, -, hright⟩ := toNat_of_toInt hin.left hin.width hin.right fb.width.isLt
    obtain ⟨-, -, hbottom⟩ := toNat_of_toInt hin.top hin.height hin.bottom fb.height.isLt
    refine ⟨fun ps hps => ?_, fun a ha => painted_untouched hfill ha, fun q hq hout a ha => ?_⟩
    · exact hfill.unique (putpixels_painted h color hright hbottom hps m)
    · refine painted_untouched hfill fun p hp => not_lt.mp fun hpa => hout ?_
      rwa [← pixel_unique h (block_subset hright hbottom hp) hq hpa ha]

end Pixels

/-- 3 by 2 pixels of three bytes, with a byte of padding. -/
def smallFb : VideoFb := ⟨0x1000, 3, 2, 10, 24, ⟨⟨0xFF, 16⟩, ⟨0xFF, 8⟩, ⟨0xFF, 0⟩⟩⟩

/-- The padding of the first scanline. -/
theorem bulk_eq_pixels_padding : fbClear smallFb 0xFFFFFF (fun _ => 7) 0x1009 = 7 := by
  have hvalid : smallFb.Valid := ⟨by decide, by decide, by decide, by decide⟩
  refine (bulk_eq_pixels hvalid 0xFFFFFF fun _ => 7).2.1 0x1009 ?_
  rintro ⟨c, r⟩ ⟨hc, hr⟩
  have hc' : c < 3 := hc
  have hr' : r < 2 := hr
  interval_cases c <;> interval_cases r <;> decide

end SpKernel
