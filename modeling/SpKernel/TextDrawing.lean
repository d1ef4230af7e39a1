import SpKernel.FrameBuffer

/-!
# Drawing text (`text.c`)

`graphics_drawChar` takes a row of pixels from each byte of a glyph, and
puts it into the framebuffer. Where the glyph is, it computes from a
`char`, which is signed: from 0x80 on the product with `bytesPerGlyph` is
negative, and what is read is memory in front of the glyph map
(`glyph_before`). Below, it is the glyph of the character
(`glyph_ascii`), and the text is painted as it should be
(`drawString_painted`).

`DrawnRight` has both halves of what drawing a string should do: that the
glyph map is the only memory it reads, and that the pixels of the text
get the colours of their glyphs (`textColour`) and no others are changed.
`drawnRight_iff` says when it does: for a text whose characters are below
0x80, or a font whose glyphs have no rows, with which nothing is read at
all.

`PaintContext.Valid` and `TextFits` are what is assumed: a font of 256
glyphs, eight pixels wide, whose map is not in the framebuffer, and room
on the screen for the text. The glyph map stays what it was while the
text is painted (`SameMap.painted`), which is what lets the characters be
drawn one after the other.
-/

namespace SpKernel

open Lib

/-! ## The source -/

/-- `PSFont`; what is not used in drawing is left out. -/
structure PSFont where
  bytesPerGlyph : Word
  height : Word
  width : Word
  glyphMap : Word

structure PaintContext where
  drawCol : VideoCol
  fillCol : VideoCol
  font : PSFont
  fb : VideoFb

/-- `rowBuf`, for a byte of a glyph: the highest bit is on the left. -/
def rowBuf (ctx : PaintContext) (row : Byte) : List VideoCol :=
  (List.range 8).map fun j =>
    if (row >>> (7 - j)) &&& 1 ≠ 0 then ctx.drawCol else ctx.fillCol

/-- The address of a glyph; the `char` is promoted with its sign. -/
def PSFont.glyph (font : PSFont) (c : Byte) : Word :=
  font.glyphMap + c.signExtend 32 * font.bytesPerGlyph

/-- The loop of `graphics_drawChar`, from row `i` on, for the rows that are
left: the addresses read, and the memory. -/
def drawRows (ctx : PaintContext) (glyph : Word) : Nat → Word → Nat → Mem → List Word × Mem
  | _, _, 0, m => ([], m)
  | i, offset, rows + 1, m =>
      let row := m (glyph + BitVec.ofNat 32 i)
      let m := fbPutcolsf ctx.fb offset (rowBuf ctx row) m
      let (reads, m) := drawRows ctx glyph (i + 1) (offset + ctx.fb.pitch.setWidth 32) rows m
      ((glyph + BitVec.ofNat 32 i) :: reads, m)

def graphicsDrawChar (ctx : PaintContext) (p : Point) (c : Byte) (m : Mem) : List Word × Mem :=
  drawRows ctx (ctx.font.glyph c) 0 (fbOffset ctx.fb (p.x.setWidth 16) (p.y.setWidth 16))
    ctx.font.height.toNat m

/-- `graphics_drawString`, over the characters before the NUL. -/
def graphicsDrawString (ctx : PaintContext) : Point → List Byte → Mem → List Word × Mem
  | _, [], m => ([], m)
  | p, c :: string, m =>
      let (reads, m) := graphicsDrawChar ctx p c m
      let (more, m) := graphicsDrawString ctx { p with x := p.x + ctx.font.width } string m
      (reads ++ more, m)

/-! ## The text as it should be -/

/-- A font of 256 glyphs, 8 pixels wide. The glyph map is an object of C, and
so not larger than the difference of two pointers; and it is not in the
framebuffer. -/
structure PaintContext.Valid (ctx : PaintContext) : Prop where
  fb : ctx.fb.Valid
  width : ctx.font.width = 8
  height : ctx.font.height.toNat ≤ ctx.font.bytesPerGlyph.toNat
  size : 256 * ctx.font.bytesPerGlyph.toNat < 2 ^ 31
  apart : ∀ a, (a - ctx.font.glyphMap).toNat < 256 * ctx.font.bytesPerGlyph.toNat →
    ∀ p ∈ ctx.fb.screen, ctx.fb.pixlen ≤ ctx.fb.byteOf p a

/-- There is room on the screen for `n` characters. -/
structure TextFits (ctx : PaintContext) (p : Point) (n : Nat) : Prop where
  left : 0 ≤ p.x.toInt
  top : 0 ≤ p.y.toInt
  right : p.x.toInt + 8 * n ≤ ctx.fb.width.toNat
  bottom : p.y.toInt + ctx.font.height.toNat ≤ ctx.fb.height.toNat

/-- Byte `i` of the glyph with a number. -/
def PSFont.row (font : PSFont) (m : Mem) (c : Byte) (i : Nat) : Byte :=
  m (font.glyphMap + BitVec.ofNat 32 (c.toNat * font.bytesPerGlyph.toNat + i))

/-- The colour of a text at pixel `(x + 8 * k + j, y + i)`: that of bit `7 - j`
in byte `i` of the glyph of character `k`. -/
def textColour (ctx : PaintContext) (m : Mem) (x y : Nat) (string : List Byte) (p : Pixel) :
    VideoCol :=
  let row := ctx.font.row m (string.getD ((p.1 - x) / 8) 0) (p.2 - y)
  if row.getLsbD (7 - (p.1 - x) % 8) then ctx.drawCol else ctx.fillCol

/-- The text is painted and nothing else, and only the glyph map is read. -/
structure DrawnRight (ctx : PaintContext) (p : Point) (string : List Byte) (m : Mem)
    (drawn : List Word × Mem) : Prop where
  painted : Painted (ctx.fb.cover (textColour ctx m p.x.toNat p.y.toNat string))
    (block p.x.toNat p.y.toNat (8 * string.length) ctx.font.height.toNat) m drawn.2
  reads : ∀ a ∈ drawn.1,
    (a - ctx.font.glyphMap).toNat < 256 * ctx.font.bytesPerGlyph.toNat

section Text

variable {ctx : PaintContext} {font : PSFont} {m m' : Mem} {p : Point} {string : List Byte}
  {c : Byte}

/-! ## Where a glyph is -/

theorem glyph_ascii (hc : c.toNat < 0x80) :
    font.glyph c = font.glyphMap + BitVec.ofNat 32 (c.toNat * font.bytesPerGlyph.toNat) := by
  have hmsb : c.msb = false := by
    rw [BitVec.msb_eq_decide]
    exact decide_eq_false (by omega)
  rw [PSFont.glyph, BitVec.signExtend_eq_setWidth_of_msb_false hmsb, BitVec.ofNat_mul,
    BitVec.ofNat_toNat, BitVec.ofNat_toNat, BitVec.setWidth_eq]

/-- The glyph map of a valid font ends below the glyph of a character from
0x80 on, seen from its beginning: that one is less than half the address space
before the map. -/
theorem glyph_before (hc : 0x80 ≤ c.toNat) (hpos : 0 < font.bytesPerGlyph.toNat)
    (hsize : 256 * font.bytesPerGlyph.toNat < 2 ^ 31) :
    2 ^ 31 ≤ (font.glyph c - font.glyphMap).toNat := by
  have hlt := c.isLt
  have hsum : c.signExtend 32 + BitVec.ofNat 32 (256 - c.toNat) = 0#32 := by
    have hmsb : c.msb = true := by
      rw [BitVec.msb_eq_decide]
      exact decide_eq_true (by omega)
    refine BitVec.eq_of_toNat_eq ?_
    rw [BitVec.toNat_add, BitVec.toNat_signExtend, hmsb]
    simp only [BitVec.toNat_setWidth, BitVec.toNat_ofNat, if_true]
    omega
  have hback : c.signExtend 32 * font.bytesPerGlyph
      + BitVec.ofNat 32 ((256 - c.toNat) * font.bytesPerGlyph.toNat) = 0#32 := by
    rw [BitVec.ofNat_mul, BitVec.ofNat_toNat, BitVec.setWidth_eq, ← BitVec.add_mul, hsum,
      BitVec.zero_mul]
  have hle := Nat.mul_le_mul_right font.bytesPerGlyph.toNat (show 256 - c.toNat ≤ 128 by omega)
  have hge := Nat.mul_le_mul_right font.bytesPerGlyph.toNat (show 1 ≤ 256 - c.toNat by omega)
  have hsub : font.glyph c - font.glyphMap = c.signExtend 32 * font.bytesPerGlyph := by
    rw [PSFont.glyph, BitVec.add_comm, BitVec.add_sub_cancel]
  rw [hsub]
  generalize c.signExtend 32 * font.bytesPerGlyph = product at hback
  have hmod := congrArg BitVec.toNat hback
  rw [BitVec.toNat_add, BitVec.toNat_ofNat, BitVec.toNat_ofNat] at hmod
  have := product.isLt
  omega

/-! ## What is read -/

theorem drawRows_reads (glyph : Word) : ∀ (rows i : Nat) (offset : Word) (m : Mem),
    (drawRows ctx glyph i offset rows m).1
      = (List.range' i rows).map fun i => glyph + BitVec.ofNat 32 i
  | 0, _, _, _ => rfl
  | rows + 1, i, offset, m => by
      rw [drawRows, List.range'_succ, List.map_cons]
      exact congrArg _ (drawRows_reads glyph rows (i + 1) _ _)

/-- All rows of the glyphs of all characters, whatever is painted. -/
theorem mem_reads : ∀ {string : List Byte} {p : Point} {m : Mem} {a : Word},
    a ∈ (graphicsDrawString ctx p string m).1
      ↔ ∃ c ∈ string, ∃ i < ctx.font.height.toNat, a = ctx.font.glyph c + BitVec.ofNat 32 i
  | [], p, m, a => by simp [graphicsDrawString]
  | c :: string, p, m, a => by
      rw [graphicsDrawString]
      simp only [List.mem_append, List.exists_mem_cons_iff]
      refine or_congr ?_ mem_reads
      rw [graphicsDrawChar, drawRows_reads, ← List.range_eq_range', List.mem_map]
      constructor
      · rintro ⟨i, hi, rfl⟩
        exact ⟨i, List.mem_range.mp hi, rfl⟩
      · rintro ⟨i, hi, rfl⟩
        exact ⟨i, List.mem_range.mpr hi, rfl⟩

theorem row_inside (h : ctx.Valid) (c : Byte) {i : Nat} (hi : i < ctx.font.height.toNat) :
    (ctx.font.glyphMap
        + BitVec.ofNat 32 (c.toNat * ctx.font.bytesPerGlyph.toNat + i) - ctx.font.glyphMap).toNat
      < 256 * ctx.font.bytesPerGlyph.toNat := by
  have hheight := h.height
  have hsize := h.size
  have hglyph := Nat.mul_le_mul_right ctx.font.bytesPerGlyph.toNat
    (show c.toNat + 1 ≤ 256 by have := c.isLt; omega)
  rw [Nat.succ_mul] at hglyph
  rw [toNat_offset _ (by omega)]
  omega

/-! ## What is painted -/

theorem rowBuf_getElem? (ctx : PaintContext) (row : Byte) {k : Nat} {color : VideoCol}
    (h : (rowBuf ctx row)[k]? = some color) :
    k < 8 ∧ color = if row.getLsbD (7 - k) then ctx.drawCol else ctx.fillCol := by
  rw [rowBuf, List.getElem?_map] at h
  obtain ⟨j, hj, rfl⟩ := Option.map_eq_some_iff.mp h
  obtain ⟨hlt, rfl⟩ := List.getElem?_eq_some_iff.mp hj
  rw [List.length_range] at hlt
  rw [List.getElem_range]
  refine ⟨hlt, if_congr ?_ rfl rfl⟩
  rw [show (1 : Byte) = BitVec.twoPow 8 0 from rfl, BitVec.and_twoPow, BitVec.getLsbD_ushiftRight,
    Nat.add_zero]
  split
  · next hbit => exact iff_of_true (by decide) hbit
  · next hbit => exact iff_of_false (fun hne => hne rfl) hbit

/-- The glyph map is as it was. -/
def SameMap (font : PSFont) (m m' : Mem) : Prop :=
  ∀ a, (a - font.glyphMap).toNat < 256 * font.bytesPerGlyph.toNat → m' a = m a

theorem SameMap.painted (h : ctx.Valid) {m'' : Mem} {colour : Pixel → VideoCol} {S : Set Pixel}
    (hsame : SameMap ctx.font m m') (hS : S ⊆ ctx.fb.screen)
    (hpaint : Painted (ctx.fb.cover colour) S m' m'') : SameMap ctx.font m m'' := by
  intro a ha
  rw [painted_untouched hpaint fun p hp => h.apart a ha p (hS hp), hsame a ha]

theorem drawRows_painted (h : ctx.Valid) (hc : c.toNat < 0x80) {colour : Pixel → VideoCol}
    {x y : Nat} (hx : x + 8 ≤ ctx.fb.width.toNat)
    (hcolour : ∀ i < ctx.font.height.toNat, ∀ j < 8, colour (x + j, y + i)
      = if (ctx.font.row m c i).getLsbD (7 - j) then ctx.drawCol else ctx.fillCol) :
    ∀ (rows : Nat) {i : Nat} {m' : Mem}, SameMap ctx.font m m' →
      i + rows = ctx.font.height.toNat → y + i + rows ≤ ctx.fb.height.toNat →
      Painted (ctx.fb.cover colour) (block x (y + i) 8 rows) m'
        (drawRows ctx (ctx.font.glyph c) i
          (BitVec.ofNat 32 (ctx.fb.offsetOf (x, y + i))) rows m').2
  | 0, i, m', _, _, _ => by
      rw [(block_empty x _ 8).2]
      exact .empty _ m'
  | rows + 1, i, m', hsame, hrows, hy => by
      have hi : i < ctx.font.height.toNat := by omega
      have hrow : m' (ctx.font.glyph c + BitVec.ofNat 32 i) = ctx.font.row m c i := by
        rw [glyph_ascii hc, BitVec.add_assoc, ← BitVec.ofNat_add]
        exact hsame _ (row_inside h c hi)
      have hline := putcolsf_painted (m := m') colour h.fb (y + i)
        (rowBuf ctx (m' (ctx.font.glyph c + BitVec.ofNat 32 i))) (x := x)
        (fun k color hk => by
          obtain ⟨hk8, rfl⟩ := rowBuf_getElem? ctx _ hk
          rw [hcolour i hi k hk8, hrow])
        (by simpa [rowBuf] using hx) (by omega)
      have hlen : (rowBuf ctx (m' (ctx.font.glyph c + BitVec.ofNat 32 i))).length = 8 := rfl
      rw [hlen] at hline
      have hsub : block x (y + i) 8 (rows + 1) ⊆ ctx.fb.screen := block_subset hx (by omega)
      rw [drawRows, offset_row]
      rw [block_row] at hsub ⊢
      have hsame' := hsame.painted h (Set.subset_union_left.trans hsub) hline
      exact hline.union (drawRows_painted h hc hx hcolour rows (i := i + 1) hsame' (by omega)
        (by omega)) ((agree_screen h.fb colour).mono hsub)

theorem block_append (x y width width' height : Nat) :
    block x y (width + width') height
      = block x y width height ∪ block (x + width) y width' height := by
  ext ⟨c, r⟩
  simp only [mem_block, Set.mem_union]
  omega

/-- The characters of a string, one beside the other. -/
theorem drawString_painted (colour : Pixel → VideoCol) (h : ctx.Valid) {y : Nat}
    (hy : y + ctx.font.height.toNat ≤ ctx.fb.height.toNat) :
    ∀ {string : List Byte} {x : Nat} {m' : Mem}, (∀ c ∈ string, c.toNat < 0x80) →
      SameMap ctx.font m m' → x + 8 * string.length ≤ ctx.fb.width.toNat →
      (∀ k c, string[k]? = some c → ∀ i < ctx.font.height.toNat, ∀ j < 8,
        colour (x + 8 * k + j, y + i)
          = if (ctx.font.row m c i).getLsbD (7 - j) then ctx.drawCol else ctx.fillCol) →
      Painted (ctx.fb.cover colour) (block x y (8 * string.length) ctx.font.height.toNat) m'
        (graphicsDrawString ctx ⟨BitVec.ofNat 32 x, BitVec.ofNat 32 y⟩ string m').2
  | [], x, m', _, _, _, _ => by
      rw [List.length_nil, Nat.mul_zero, (block_empty x y _).1]
      exact .empty _ m'
  | c :: string, x, m', hascii, hsame, hx, hcolour => by
      rw [List.length_cons, Nat.mul_succ, Nat.add_comm _ 8] at hx ⊢
      have hwidth := ctx.fb.width.isLt
      have hheight := ctx.fb.height.isLt
      have hoffset : fbOffset ctx.fb ((BitVec.ofNat 32 x).setWidth 16)
          ((BitVec.ofNat 32 y).setWidth 16) = BitVec.ofNat 32 (ctx.fb.offsetOf (x, y)) := by
        rw [fbOffset_eq, BitVec.setWidth_ofNat_of_le (by omega), BitVec.setWidth_ofNat_of_le
          (by omega), BitVec.toNat_ofNat, BitVec.toNat_ofNat, Nat.mod_eq_of_lt (by omega),
          Nat.mod_eq_of_lt (by omega)]
      have hchar := drawRows_painted (m := m) h (hascii c List.mem_cons_self) (x := x)
        (by omega) (hcolour 0 c rfl) ctx.font.height.toNat hsame (Nat.zero_add _) hy
      have hsub : block x y (8 + 8 * string.length) ctx.font.height.toNat ⊆ ctx.fb.screen :=
        block_subset hx hy
      have hstep : BitVec.ofNat 32 x + ctx.font.width = BitVec.ofNat 32 (x + 8) := by
        rw [h.width, BitVec.ofNat_add]
        rfl
      rw [graphicsDrawString, graphicsDrawChar, hoffset]
      simp only [hstep]
      rw [block_append] at hsub ⊢
      have hsame' := hsame.painted h (Set.subset_union_left.trans hsub) hchar
      refine hchar.union (drawString_painted colour h hy (fun c hc => hascii c (.tail _ hc)) hsame'
        (by omega) fun k c hk i hi j hj => ?_) ((agree_screen h.fb colour).mono hsub)
      rw [← hcolour (k + 1) c hk i hi j hj]
      congr 2
      omega

theorem drawString_flat (hzero : ctx.font.height = 0) :
    ∀ (p : Point) (string : List Byte) (m : Mem),
    graphicsDrawString ctx p string m = ([], m)
  | _, [], _ => rfl
  | p, c :: string, m => by
      rw [graphicsDrawString, graphicsDrawChar, hzero]
      exact drawString_flat hzero _ string m

theorem textColour_at {x y k i j : Nat} (hk : string[k]? = some c) (hj : j < 8) :
    textColour ctx m x y string (x + 8 * k + j, y + i)
      = if (ctx.font.row m c i).getLsbD (7 - j) then ctx.drawCol else ctx.fillCol := by
  have hdiv : (x + 8 * k + j - x) / 8 = k := by omega
  have hmod : (x + 8 * k + j - x) % 8 = j := by omega
  simp only [textColour, hdiv, hmod, Nat.add_sub_cancel_left, List.getD_eq_getElem?_getD, hk,
    Option.getD_some]

/-- Of a character from 0x80 on the first row is read before the map. -/
theorem DrawnRight.ascii (h : ctx.Valid)
    (hdrawn : DrawnRight ctx p string m (graphicsDrawString ctx p string m)) :
    (∀ c ∈ string, c.toNat < 0x80) ∨ ctx.font.height = 0 := by
  by_contra hnot
  rw [not_or] at hnot
  obtain ⟨hhigh, hheight⟩ := hnot
  simp only [not_forall, not_lt] at hhigh
  obtain ⟨c, hc, hhigh⟩ := hhigh
  have hpos : 0 < ctx.font.height.toNat :=
    Nat.pos_of_ne_zero fun hzero => hheight (BitVec.eq_of_toNat_eq hzero)
  have hbytes := h.height
  have hsize := h.size
  have hread := hdrawn.reads _ (mem_reads.mpr ⟨c, hc, 0, hpos, rfl⟩)
  have hbefore := glyph_before hhigh (by omega) hsize
  rw [BitVec.add_zero] at hread
  omega

/-- Text that fits is drawn as it should be exactly if there is no character
from 0x80 on in it, or the glyphs have no rows. -/
theorem drawnRight_iff (h : ctx.Valid) (hfits : TextFits ctx p string.length) (m : Mem) :
    DrawnRight ctx p string m (graphicsDrawString ctx p string m)
      ↔ (∀ c ∈ string, c.toNat < 0x80) ∨ ctx.font.height = 0 := by
  refine ⟨DrawnRight.ascii h, ?_⟩
  rintro (hascii | hzero)
  · have hx := hfits.right
    have hy := hfits.bottom
    rw [toInt_of_nonneg hfits.left] at hx
    rw [toInt_of_nonneg hfits.top] at hy
    refine ⟨?_, fun a ha => ?_⟩
    · have hpaint := drawString_painted (textColour ctx m p.x.toNat p.y.toNat string)
        (y := p.y.toNat) h (by omega) hascii (show SameMap ctx.font m m from fun _ _ => rfl)
        (x := p.x.toNat) (by omega)
        (fun k c hk i _ j hj => textColour_at hk hj)
      simpa only [BitVec.ofNat_toNat, BitVec.setWidth_eq] using hpaint
    · obtain ⟨c, hc, i, hi, rfl⟩ := mem_reads.mp ha
      rw [glyph_ascii (hascii c hc), BitVec.add_assoc, ← BitVec.ofNat_add]
      exact row_inside h c hi
  · rw [drawString_flat hzero]
    refine ⟨?_, fun a ha => absurd ha List.not_mem_nil⟩
    rw [hzero]
    exact (block_empty _ _ _).2 ▸ .empty _ m

end Text

/-- 16 by 4 pixels of a byte, and glyphs of two rows. -/
def smallText : PaintContext where
  drawCol := 1
  fillCol := 0
  font := ⟨2, 2, 8, 0x100000⟩
  fb := ⟨0x1000, 16, 4, 16, 8, ⟨⟨0, 0⟩, ⟨0, 0⟩, ⟨0, 0⟩⟩⟩

theorem smallText_valid : smallText.Valid where
  fb := ⟨by decide, by decide, by decide, by decide⟩
  width := rfl
  height := by decide
  size := by decide
  apart := by
    intro a ha p hp
    by_contra hin
    have hfb : smallText.fb.Valid := ⟨by decide, by decide, by decide, by decide⟩
    have hoffset := offset_add_byteOf hfb hp (not_le.mp hin)
    have hcol : p.1 < 16 := hp.1
    have hrow : p.2 < 4 := hp.2
    have hbyte : smallText.fb.byteOf p a < 1 := not_le.mp hin
    have hoff : smallText.fb.offsetOf p = p.2 * 16 + p.1 * 1 := rfl
    have ha' : (a - 0x100000#32).toNat < 512 := ha
    have hoffset' : (a - 0x1000#32).toNat = _ := hoffset
    bv_omega

/-- Two letters. -/
theorem drawnRight_letters : DrawnRight smallText ⟨0, 1⟩ [0x41, 0x42] (fun _ => 7)
    (graphicsDrawString smallText ⟨0, 1⟩ [0x41, 0x42] fun _ => 7) :=
  (drawnRight_iff smallText_valid ⟨by decide, by decide, by decide, by decide⟩ _).mpr
    (.inl (by decide))

/-- A box character of the VGA font. -/
theorem drawnRight_box : TextFits smallText ⟨0, 1⟩ 1
    ∧ ¬DrawnRight smallText ⟨0, 1⟩ [0xC4] (fun _ => 7)
      (graphicsDrawString smallText ⟨0, 1⟩ [0xC4] fun _ => 7) :=
  ⟨⟨by decide, by decide, by decide, by decide⟩,
    fun h => absurd (h.ascii smallText_valid) (by decide)⟩

end SpKernel
