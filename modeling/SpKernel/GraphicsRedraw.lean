import SpKernel.Redraw
import SpKernel.TextDrawing

/-!
# Drawing a console in graphics mode (`control.c`, `render/draw.c`)

In graphics mode `vcon_redraw` draws the characters of a row that is
marked as dirty into the framebuffer and fills the rest of it. What a row
looks like is `consoleColour`; `graphicsDraw_painted` says that drawing
it paints just that. Then what is not marked stands on the screen over
any run (`graphics_redraw`), by the marks of the operations (`Flagged`),
as in text mode.

A picture is a colour for each pixel, and a row `Pictured` in memory is
one whose pixels have the bytes of their colours. Painting other pixels
leaves it alone (`Pictured.painted`), so a redraw is followed row by row
(`RowsDrawn.step`): the rows drawn so far are pictured, and the others
are as they were.

The runs are those in which no operation resizes the console or reaches
outside its tables, and which draw only rows whose characters are below
0x80 (`GraphicsProper`): a character from 0x80 on has no glyph. The
console fits on the screen (`ConsoleFits`), and it has at most 65536
cells, so that an offset fits into an entry.

The filling sets `fillCol` to 0 for good, which is also the background of
the characters that are drawn later; here it is 0, black, from the
beginning.
-/

namespace SpKernel

open Function (update update_self update_of_ne)
open Lib

/-! ## The source -/

/-- The loop of `vcon_graphics_draw` over the characters of a row. -/
def drawCells (ctx : PaintContext) : Point → List VConChar → Mem → Point × Mem
  | p, [], m => (p, m)
  | p, ch :: cells, m =>
      drawCells ctx { p with x := p.x + ctx.font.width } cells
        (graphicsDrawChar ctx p ch.character m).2

def vconGraphicsDraw (ctx : PaintContext) (columns : Half) (start : Nat → VConChar)
    (line : VConLine) (row : Nat) (m : Mem) : PaintContext × Mem :=
  let length := line.columns
  let (p, m) := drawCells ctx ⟨0, BitVec.ofNat 32 row * ctx.font.height⟩
    ((List.range length).map start) m
  let rect : Rect :=
    { loc := p
      size :=
        { width := (BitVec.ofNat 32 columns.toNat - BitVec.ofNat 32 length) * ctx.font.width
          height := ctx.font.height } }
  let ctx := { ctx with fillCol := 0 }
  (ctx, graphicsFillRect ctx.fb ctx.fillCol rect m)

/-- A console, and what it is drawn with and to. -/
structure GraphicsDisplay where
  con : VCon
  ctx : PaintContext
  mem : Mem

/-- The loop body of `vcon_redraw`, in graphics mode. -/
def GraphicsDisplay.redrawRow (d : GraphicsDisplay) (r : Nat) : GraphicsDisplay :=
  let line := d.con.lineTable r
  if line.dirty then
    let drawn := vconGraphicsDraw d.ctx d.con.columns
      (fun i => d.con.charTable (line.offset.toNat + i)) line r d.mem
    { con := { d.con with
        lineTable := update d.con.lineTable r { line with length := line.length &&& ~~~flagDirty } }
      ctx := drawn.1
      mem := drawn.2 }
  else d

/-- `vcon_redraw`, in graphics mode. -/
def vconRedrawGraphics (d : GraphicsDisplay) : GraphicsDisplay :=
  (List.range d.con.rows.toNat).foldl GraphicsDisplay.redrawRow d

/-! ## The picture of a console -/

/-- The colour of a pixel as the console has it, with the glyphs in `map`. -/
def consoleColour (ctx : PaintContext) (map : Mem) (con : VCon) (p : Pixel) : VideoCol :=
  let r := p.2 / ctx.font.height.toNat
  let i := p.2 % ctx.font.height.toNat
  if p.1 / 8 < (con.lineTable r).columns ∧ (ctx.font.row map (rendering con r (p.1 / 8)).character
      i).getLsbD (7 - p.1 % 8) then ctx.drawCol
  else 0

/-- The pixels of a row. -/
def rowBlock (ctx : PaintContext) (con : VCon) (r : Nat) : Set Pixel :=
  block 0 (r * ctx.font.height.toNat) (8 * con.columns.toNat) ctx.font.height.toNat

/-- The pixels of a console. -/
def consoleBlock (ctx : PaintContext) (con : VCon) : Set Pixel :=
  block 0 0 (8 * con.columns.toNat) (con.rows.toNat * ctx.font.height.toNat)

/-- A row stands on the screen. -/
def Pictured (ctx : PaintContext) (map : Mem) (con : VCon) (m : Mem) (r : Nat) : Prop :=
  ∀ p ∈ rowBlock ctx con r, ∀ a b, ctx.fb.cover (consoleColour ctx map con) p a = some b → m a = b

/-- The console is not larger than the screen. -/
structure ConsoleFits (ctx : PaintContext) (con : VCon) : Prop where
  width : 8 * con.columns.toNat ≤ ctx.fb.width.toNat
  height : con.rows.toNat * ctx.font.height.toNat ≤ ctx.fb.height.toNat

/-- The characters of a row have glyphs. -/
def AsciiRow (con : VCon) (r : Nat) : Prop :=
  ∀ c < (con.lineTable r).columns, (rendering con r c).character.toNat < 0x80

variable {ctx : PaintContext} {map m m' : Mem} {con con' : VCon} {d : GraphicsDisplay}

/-! ## One row -/

theorem drawCells_eq : ∀ (cells : List VConChar) (p : Point) (m : Mem),
    drawCells ctx p cells m
      = (⟨p.x + BitVec.ofNat 32 cells.length * ctx.font.width, p.y⟩,
        (graphicsDrawString ctx p (cells.map VConChar.character) m).2)
  | [], p, m => by simp [drawCells, graphicsDrawString]
  | ch :: cells, p, m => by
      rw [drawCells, drawCells_eq cells, List.map_cons, graphicsDrawString, List.length_cons,
        BitVec.ofNat_add, BitVec.add_mul, BitVec.add_comm (BitVec.ofNat 32 cells.length * _),
        ← BitVec.add_assoc]
      simp

theorem rowBlock_subset (ctx : PaintContext) {r : Nat} (hr : r < con.rows.toNat) :
    rowBlock ctx con r ⊆ consoleBlock ctx con := by
  have hrow := Nat.mul_le_mul_right ctx.font.height.toNat (Nat.succ_le_of_lt hr)
  rw [Nat.succ_mul] at hrow
  rintro p ⟨hcol, hlow, hhigh⟩
  exact ⟨hcol, Nat.zero_le _, by omega⟩

theorem consoleBlock_subset (hfits : ConsoleFits ctx con) : consoleBlock ctx con ⊆ ctx.fb.screen :=
  block_subset (by have := hfits.width; omega) (by have := hfits.height; omega)

theorem pixel_place {y : Nat} {p : Pixel} (h : y ≤ p.2) :
    p = (8 * (p.1 / 8) + p.1 % 8, y + (p.2 - y)) :=
  Prod.ext (Nat.div_add_mod p.1 8).symm (Nat.add_sub_cancel' h).symm

theorem consoleColour_at {r c i j : Nat} (hi : i < ctx.font.height.toNat) (hj : j < 8) :
    consoleColour ctx map con (8 * c + j, r * ctx.font.height.toNat + i)
      = if c < (con.lineTable r).columns
          ∧ (ctx.font.row map (rendering con r c).character i).getLsbD (7 - j) then ctx.drawCol
        else 0 := by
  have hc : (8 * c + j) / 8 = c := by omega
  have hj' : (8 * c + j) % 8 = j := by omega
  have hr : (r * ctx.font.height.toNat + i) / ctx.font.height.toNat = r := by
    rw [Nat.add_comm, Nat.add_mul_div_right _ _ (Nat.zero_lt_of_lt hi), Nat.div_eq_of_lt hi,
      Nat.zero_add]
  have hi' : (r * ctx.font.height.toNat + i) % ctx.font.height.toNat = i := by
    rw [Nat.add_comm, Nat.add_mul_mod_self_right, Nat.mod_eq_of_lt hi]
  simp only [consoleColour, hc, hj', hr, hi']

theorem painted_congr {fb : VideoFb} {colour : Pixel → VideoCol} (colour' : Pixel → VideoCol)
    {S : Set Pixel} (hpaint : Painted (fb.cover colour) S m m')
    (hsame : ∀ p ∈ S, colour p = colour' p) : Painted (fb.cover colour') S m m' where
  inside p hp a b hb := by
    refine hpaint.inside p hp a b ?_
    rw [← hb, VideoFb.cover, VideoFb.cover, hsame p hp]
  outside a ha := by
    refine hpaint.outside a fun p hp => ?_
    rw [← ha p hp, VideoFb.cover, VideoFb.cover, hsame p hp]

/-- The characters of a row, before its end. -/
def rowText (con : VCon) (r : Nat) : List Byte :=
  ((List.range (con.lineTable r).columns).map fun i =>
    con.charTable ((con.lineTable r).offset.toNat + i)).map VConChar.character

/-- The rectangle behind the text. -/
def restRect (ctx : PaintContext) (con : VCon) (r : Nat) : Rect where
  loc := ⟨BitVec.ofNat 32 (8 * (con.lineTable r).columns),
    BitVec.ofNat 32 (r * ctx.font.height.toNat)⟩
  size := ⟨BitVec.ofNat 32 (8 * (con.columns.toNat - (con.lineTable r).columns)), ctx.font.height⟩

@[simp] theorem rowText_length (con : VCon) (r : Nat) :
    (rowText con r).length = (con.lineTable r).columns := by
  simp [rowText]

theorem rowText_getElem? {r k : Nat} {c : Byte} (h : (rowText con r)[k]? = some c) :
    k < (con.lineTable r).columns ∧ c = (rendering con r k).character := by
  rw [rowText, List.map_map, List.getElem?_map] at h
  obtain ⟨k', hk', rfl⟩ := Option.map_eq_some_iff.mp h
  obtain ⟨hlt, rfl⟩ := List.getElem?_eq_some_iff.mp hk'
  rw [List.length_range] at hlt
  rw [rendering, if_pos hlt, List.getElem_range]
  exact ⟨hlt, rfl⟩

/-- A row is drawn as text, and then the rectangle behind it. -/
theorem vconGraphicsDraw_eq (hwidth : ctx.font.width = 8) {r : Nat}
    (hlen : (con.lineTable r).columns ≤ con.columns.toNat) (m : Mem) :
    vconGraphicsDraw ctx con.columns (fun i => con.charTable ((con.lineTable r).offset.toNat + i))
      (con.lineTable r) r m
      = ({ ctx with fillCol := 0 }, graphicsFillRect ctx.fb 0 (restRect ctx con r)
        (graphicsDrawString ctx ⟨BitVec.ofNat 32 0, BitVec.ofNat 32 (r * ctx.font.height.toNat)⟩
          (rowText con r) m).2) := by
  have hcolumns := con.columns.isLt
  have hx : 0 + BitVec.ofNat 32 (con.lineTable r).columns * ctx.font.width
      = BitVec.ofNat 32 (8 * (con.lineTable r).columns) := by
    rw [hwidth, Nat.mul_comm, BitVec.ofNat_mul]
    exact BitVec.zero_add _
  have hy : BitVec.ofNat 32 r * ctx.font.height = BitVec.ofNat 32 (r * ctx.font.height.toNat) := by
    rw [BitVec.ofNat_mul, BitVec.ofNat_toNat, BitVec.setWidth_eq]
  have hw : (BitVec.ofNat 32 con.columns.toNat - BitVec.ofNat 32 (con.lineTable r).columns)
      * ctx.font.width = BitVec.ofNat 32 (8 * (con.columns.toNat - (con.lineTable r).columns)) := by
    rw [hwidth, BitVec.ofNat_sub_ofNat_of_le _ _ (by omega) hlen, Nat.mul_comm 8, BitVec.ofNat_mul]
    rfl
  simp only [vconGraphicsDraw, drawCells_eq, List.length_map, List.length_range, hx, hy, hw]
  rfl

theorem toInt_small {n : Nat} (h : n < 2 ^ 31) : (BitVec.ofNat 32 n).toInt = n := by
  rw [BitVec.toInt_eq_toNat_cond, BitVec.toNat_ofNat, Nat.mod_eq_of_lt (by omega)]
  exact if_pos (by omega)

theorem row_end (hfits : ConsoleFits ctx con) {r : Nat} (hr : r < con.rows.toNat) :
    r * ctx.font.height.toNat + ctx.font.height.toNat ≤ ctx.fb.height.toNat := by
  have hrows := Nat.mul_le_mul_right ctx.font.height.toNat (Nat.succ_le_of_lt hr)
  rw [Nat.succ_mul] at hrows
  exact hrows.trans hfits.height

theorem restRect_inside (hfits : ConsoleFits ctx con) {r : Nat} (hr : r < con.rows.toNat)
    (hlen : (con.lineTable r).columns ≤ con.columns.toNat) :
    (restRect ctx con r).Inside ctx.fb
      ∧ (restRect ctx con r).pixels = block (8 * (con.lineTable r).columns)
        (r * ctx.font.height.toNat) (8 * (con.columns.toNat - (con.lineTable r).columns))
        ctx.font.height.toNat := by
  have hend := row_end hfits hr
  have hwidth := hfits.width
  have hfbw := ctx.fb.width.isLt
  have hfbh := ctx.fb.height.isLt
  have hx := toInt_small (n := 8 * (con.lineTable r).columns) (by omega)
  have hy := toInt_small (n := r * ctx.font.height.toNat) (by omega)
  have hw := toInt_small (n := 8 * (con.columns.toNat - (con.lineTable r).columns)) (by omega)
  have hh := toInt_small (n := ctx.font.height.toNat) (by omega)
  rw [BitVec.ofNat_toNat, BitVec.setWidth_eq] at hh
  constructor
  · refine ⟨?_, ?_, ?_, ?_, ?_, ?_⟩ <;> simp only [restRect, hx, hy, hw, hh] <;> omega
  · simp only [Rect.pixels, restRect, BitVec.toNat_ofNat]
    rw [Nat.mod_eq_of_lt (by omega), Nat.mod_eq_of_lt (by omega), Nat.mod_eq_of_lt (by omega)]

theorem consoleColour_rest {r width : Nat} {p : Pixel}
    (hp : p ∈ block (8 * (con.lineTable r).columns) (r * ctx.font.height.toNat) width
      ctx.font.height.toNat) : consoleColour ctx map con p = 0 := by
  obtain ⟨⟨hcol, -⟩, hlow, hhigh⟩ := hp
  have hj : p.1 % 8 < 8 := Nat.mod_lt _ (by omega)
  rw [pixel_place hlow, consoleColour_at (by omega) hj]
  exact if_neg fun hc => by omega

theorem graphicsDraw_painted (h : ctx.Valid) (hfill : ctx.fillCol = 0)
    (hfits : ConsoleFits ctx con) {r : Nat} (hr : r < con.rows.toNat)
    (hlen : (con.lineTable r).columns ≤ con.columns.toNat) (hascii : AsciiRow con r)
    (hmap : SameMap ctx.font map m) :
    let drawn := vconGraphicsDraw ctx con.columns
      (fun i => con.charTable ((con.lineTable r).offset.toNat + i)) (con.lineTable r) r m
    drawn.1 = ctx
      ∧ Painted (ctx.fb.cover (consoleColour ctx map con)) (rowBlock ctx con r) m drawn.2 := by
  have hwidth := hfits.width
  have htext : Painted (ctx.fb.cover (consoleColour ctx map con))
      (block 0 (r * ctx.font.height.toNat) (8 * (rowText con r).length) ctx.font.height.toNat) m
      (graphicsDrawString ctx ⟨BitVec.ofNat 32 0, BitVec.ofNat 32 (r * ctx.font.height.toNat)⟩
        (rowText con r) m).2 := by
    refine drawString_painted (m := map) _ h (row_end hfits hr) (fun c hc => ?_) hmap ?_ ?_
    · obtain ⟨k, hk⟩ := List.mem_iff_getElem?.mp hc
      obtain ⟨hlt, rfl⟩ := rowText_getElem? hk
      exact hascii k hlt
    · rw [rowText_length]
      omega
    · intro k c hk i hi j hj
      obtain ⟨hlt, rfl⟩ := rowText_getElem? hk
      rw [Nat.zero_add, consoleColour_at hi hj, hfill]
      exact if_congr (and_iff_right hlt) rfl rfl
  obtain ⟨hinside, hpixels⟩ := restRect_inside hfits hr hlen
  have hrest := graphicsFillRect_painted h.fb 0 hinside (graphicsDrawString ctx
    ⟨BitVec.ofNat 32 0, BitVec.ofNat 32 (r * ctx.font.height.toNat)⟩ (rowText con r) m).2
  rw [hpixels] at hrest
  have hblack := painted_congr (consoleColour ctx map con) hrest fun p hp =>
    (consoleColour_rest hp).symm
  have hunion : block 0 (r * ctx.font.height.toNat) (8 * (rowText con r).length)
        ctx.font.height.toNat
      ∪ block (8 * (con.lineTable r).columns) (r * ctx.font.height.toNat)
        (8 * (con.columns.toNat - (con.lineTable r).columns)) ctx.font.height.toNat
      = rowBlock ctx con r := by
    have happend := block_append 0 (r * ctx.font.height.toNat) (8 * (con.lineTable r).columns)
      (8 * (con.columns.toNat - (con.lineTable r).columns)) ctx.font.height.toNat
    rw [Nat.zero_add] at happend
    rw [rowText_length, ← happend, rowBlock]
    congr 1
    omega
  have hscreen := (rowBlock_subset ctx hr).trans (consoleBlock_subset hfits)
  rw [← hunion] at hscreen
  have hboth := htext.union hblack ((agree_screen h.fb _).mono hscreen)
  rw [hunion] at hboth
  rw [vconGraphicsDraw_eq h.width hlen]
  refine ⟨?_, hboth⟩
  rw [← hfill]

/-! ## A redraw -/

/-- A painting leaves what stands already in the same colours. -/
theorem Pictured.painted (h : ctx.Valid) (hfits : ConsoleFits ctx con) {r r' : Nat}
    (hr : r < con.rows.toNat) (hr' : r' < con.rows.toNat)
    (hpaint : Painted (ctx.fb.cover (consoleColour ctx map con)) (rowBlock ctx con r') m m')
    (hstands : Pictured ctx map con m r) : Pictured ctx map con m' r := by
  have hagree := agree_screen h.fb (consoleColour ctx map con)
  have hscreen := consoleBlock_subset hfits
  intro p hp a b hb
  rcases covered_cases (ctx.fb.cover (consoleColour ctx map con)) (rowBlock ctx con r') a with
    ⟨q, hq, c, hc⟩ | hnone
  · rw [hpaint.inside q hq a c hc]
    exact hagree q (hscreen (rowBlock_subset ctx hr' hq)) p
      (hscreen (rowBlock_subset ctx hr hp)) a c b hc hb
  · rw [hpaint.outside a hnone]
    exact hstands p hp a b hb

/-- The first `n` rows have been redrawn. -/
structure RowsDrawn (map : Mem) (d : GraphicsDisplay) (n : Nat) (d' : GraphicsDisplay) : Prop where
  con : d'.con = d.con.unmark n
  ctx : d'.ctx = d.ctx
  sameMap : SameMap d.ctx.font map d'.mem
  outside : ∀ a, (∀ p ∈ consoleBlock d.ctx d.con, d.ctx.fb.pixlen ≤ d.ctx.fb.byteOf p a) →
    d'.mem a = d.mem a
  pictured : ∀ r < d.con.rows.toNat, (r < n ∧ (d.con.lineTable r).dirty = true)
    ∨ Pictured d.ctx map d.con d.mem r → Pictured d.ctx map d.con d'.mem r

/-- The marked rows have characters with glyphs. -/
def Drawable (con : VCon) : Prop :=
  ∀ r < con.rows.toNat, (con.lineTable r).dirty = true → AsciiRow con r

theorem RowsDrawn.step (h : d.ctx.Valid) (hfill : d.ctx.fillCol = 0)
    (hfits : ConsoleFits d.ctx d.con)
    (hlen : ∀ r < d.con.rows.toNat, (d.con.lineTable r).columns ≤ d.con.columns.toNat)
    (hascii : Drawable d.con) {n : Nat} (hn : n < d.con.rows.toNat) {d' : GraphicsDisplay}
    (hdrawn : RowsDrawn map d n d') : RowsDrawn map d (n + 1) (d'.redrawRow n) := by
  obtain ⟨hcon, hctx, hmap, hout, hpictured⟩ := hdrawn
  obtain ⟨con', ctx', mem'⟩ := d'
  obtain rfl : con' = d.con.unmark n := hcon
  obtain rfl : ctx' = d.ctx := hctx
  have hline : (d.con.unmark n).lineTable n = d.con.lineTable n :=
    if_neg fun hc => absurd hc.1 (Nat.lt_irrefl n)
  have hunmark : d.con.unmark (n + 1)
      = { d.con.unmark n with lineTable := (d.con.unmark (n + 1)).lineTable } := rfl
  rw [unmark_succ] at hunmark
  cases hd : (d.con.lineTable n).dirty with
  | false =>
      have hskip : GraphicsDisplay.redrawRow ⟨d.con.unmark n, d.ctx, mem'⟩ n
          = ⟨d.con.unmark n, d.ctx, mem'⟩ := by
        simp only [GraphicsDisplay.redrawRow, hline, hd]
        exact if_neg Bool.false_ne_true
      rw [hd, if_neg Bool.false_ne_true] at hunmark
      rw [hskip]
      refine ⟨hunmark.symm, rfl, hmap, hout, fun r hr hor => hpictured r hr ?_⟩
      refine hor.imp_left fun hc => ⟨?_, hc.2⟩
      have hne : r ≠ n := fun he => by
        rw [he, hd] at hc
        cases hc.2
      omega
  | true =>
      obtain ⟨hsame, hpaint⟩ :=
        graphicsDraw_painted h hfill hfits hn (hlen n hn) (hascii n hn hd) hmap
      have hdraw : GraphicsDisplay.redrawRow ⟨d.con.unmark n, d.ctx, mem'⟩ n
          = ⟨d.con.unmark (n + 1), d.ctx, (vconGraphicsDraw d.ctx d.con.columns
            (fun i => d.con.charTable ((d.con.lineTable n).offset.toNat + i))
            (d.con.lineTable n) n mem').2⟩ := by
        simp only [GraphicsDisplay.redrawRow, hline, hd, if_true]
        rw [hunmark, hd, if_pos rfl]
        exact congrArg (GraphicsDisplay.mk _ · _) hsame
      have hblock := rowBlock_subset d.ctx hn
      rw [hdraw]
      refine ⟨rfl, rfl, ?_, fun a ha => ?_, fun r hr hor => ?_⟩
      · exact hmap.painted h (hblock.trans (consoleBlock_subset hfits)) hpaint
      · rw [← hout a ha]
        exact painted_untouched hpaint fun p hp => ha p (hblock hp)
      · by_cases hrn : r = n
        · subst hrn
          exact hpaint.inside
        · refine Pictured.painted h hfits hr hn hpaint
            (hpictured r hr (hor.imp_left fun hc => ⟨by omega, hc.2⟩))

theorem redrawRows_drawn (h : d.ctx.Valid) (hfill : d.ctx.fillCol = 0)
    (hfits : ConsoleFits d.ctx d.con)
    (hlen : ∀ r < d.con.rows.toNat, (d.con.lineTable r).columns ≤ d.con.columns.toNat)
    (hascii : Drawable d.con) (hmap : SameMap d.ctx.font map d.mem) :
    ∀ n ≤ d.con.rows.toNat,
      RowsDrawn map d n ((List.range n).foldl GraphicsDisplay.redrawRow d)
  | 0, _ => by
      refine ⟨?_, rfl, hmap, fun _ _ => rfl, fun r _ hr => hr.resolve_left fun hc => ?_⟩
      · simp [VCon.unmark]
      · exact absurd hc.1 (Nat.not_lt_zero r)
  | n + 1, hn => by
      rw [List.range_succ, List.foldl_append, List.foldl_cons, List.foldl_nil]
      exact (redrawRows_drawn h hfill hfits hlen hascii hmap n (Nat.le_of_succ_le hn)).step
        h hfill hfits hlen hascii (Nat.lt_of_succ_le hn)

/-! ## Whole runs -/

/-- Operations of the console, and redraws in graphics mode. -/
def graphicsStep (d : GraphicsDisplay) : DisplayCall → Except Fault GraphicsDisplay
  | .call c => .ok { d with con := (d.con.call c).con }
  | .redraw => .ok (vconRedrawGraphics d)

/-- As in text mode; and what is drawn has glyphs. -/
def GraphicsProper (con : VCon) : DisplayCall → Prop
  | .call c => DisplayCall.Proper con (.call c)
  | .redraw => Drawable con

/-- What holds while a console is drawn into a framebuffer. -/
structure OnScreen (ctx : PaintContext) (map : Mem) (rows columns : Half) (d : GraphicsDisplay) :
    Prop where
  paint : d.ctx = ctx
  height : d.con.rows = rows
  width : d.con.columns = columns
  tidy : Tidy d.con
  sameMap : SameMap ctx.font map d.mem
  outside : ∀ a, (∀ p ∈ consoleBlock ctx d.con, ctx.fb.pixlen ≤ ctx.fb.byteOf p a) →
    d.mem a = map a
  fresh : ∀ r < d.con.rows.toNat,
    (d.con.lineTable r).dirty = true ∨ Pictured ctx map d.con d.mem r

/-- A row that is not marked afterwards has kept its picture. -/
theorem Pictured.flagged (hf : Flagged con con') (hs : SameSize con con') {r : Nat}
    (hr : r < con.rows.toNat) (hd : (con'.lineTable r).dirty ≠ true)
    (h : Pictured ctx map con m r) : Pictured ctx map con' m r := by
  obtain ⟨hline, hcells⟩ := (hf r hr).resolve_left hd
  intro p hp a b hb
  rw [rowBlock, hs.columns] at hp
  refine h p hp a b ?_
  obtain ⟨⟨-, hcol⟩, hlow, hhigh⟩ := hp
  rw [← hb, VideoFb.cover, VideoFb.cover]
  have hsame : consoleColour ctx map con p = consoleColour ctx map con' p := by
    have hj : p.1 % 8 < 8 := Nat.mod_lt _ (by omega)
    have hrendering : rendering con' r (p.1 / 8) = rendering con r (p.1 / 8) := by
      rw [rendering, rendering, hline, hcells _ (by omega)]
    rw [pixel_place hlow, consoleColour_at (by omega) hj, consoleColour_at (by omega) hj, hline,
      hrendering]
  rw [hsame]

theorem unmark_colour (n : Nat) (p : Pixel) :
    consoleColour ctx map (con.unmark n) p = consoleColour ctx map con p := by
  simp only [consoleColour, unmark_columns, unmark_rendering]

section Run

variable {rows columns : Half}

/-- A redraw of the marked rows puts the whole console on the screen. -/
theorem OnScreen.redraw (h : OnScreen ctx map rows columns d) (hvalid : ctx.Valid)
    (hfill : ctx.fillCol = 0) (hfits : ConsoleFits ctx d.con) (hascii : Drawable d.con) :
    OnScreen ctx map rows columns (vconRedrawGraphics d)
      ∧ ∀ r < rows.toNat, Pictured ctx map (vconRedrawGraphics d).con (vconRedrawGraphics d).mem r
    := by
  obtain ⟨con, ctx, mem⟩ := d
  obtain ⟨rfl, rfl, rfl, htidy, hmap, hout, hfresh⟩ := h
  have hdrawn := redrawRows_drawn hvalid hfill hfits htidy.lengths hascii hmap
    con.rows.toNat (Nat.le_refl _)
  have hpictured : ∀ r < con.rows.toNat, Pictured ctx map (vconRedrawGraphics ⟨con, ctx, mem⟩).con
      (vconRedrawGraphics ⟨con, ctx, mem⟩).mem r := by
    intro r hr p hp a b hb
    rw [show (vconRedrawGraphics ⟨con, ctx, mem⟩).con = _ from hdrawn.con] at hp hb
    rw [VideoFb.cover, unmark_colour] at hb
    exact hdrawn.pictured r hr ((hfresh r hr).imp_left fun hd => ⟨hr, hd⟩) p hp a b hb
  have hcon : (vconRedrawGraphics ⟨con, ctx, mem⟩).con = con.unmark con.rows.toNat := hdrawn.con
  refine ⟨⟨hdrawn.ctx, ?_, ?_, ?_, hdrawn.sameMap, fun a ha => ?_, fun r hr => .inr ?_⟩, hpictured⟩
  · rw [hcon]
    rfl
  · rw [hcon]
    rfl
  · rw [hcon]
    exact unmark_tidy htidy _
  · rw [hcon] at ha
    exact (hdrawn.outside a ha).trans (hout a ha)
  · rw [hcon] at hr
    exact hpictured r hr

theorem OnScreen.step (h : OnScreen ctx map rows columns d) (hvalid : ctx.Valid)
    (hfill : ctx.fillCol = 0) (hfits : ConsoleFits ctx d.con) {c : DisplayCall}
    (hc : GraphicsProper d.con c) {d' : GraphicsDisplay} (hst : graphicsStep d c = .ok d') :
    OnScreen ctx map rows columns d' := by
  cases c with
  | call c =>
      obtain rfl := Except.ok.inj hst
      have hs := call_size d.con hc.1
      have hf := h.tidy.call_flagged hc.1 hc.2
      refine ⟨h.paint, hs.rows.trans h.height, hs.columns.trans h.width,
        h.tidy.call hc.1 fun i hi => columns_pos (hc.2 _ hi), h.sameMap, fun a ha => ?_,
        fun r hr => ?_⟩
      · rw [consoleBlock, hs.rows, hs.columns] at ha
        exact h.outside a ha
      · rw [hs.rows] at hr
        by_cases hd : ((d.con.call c).con.lineTable r).dirty = true
        · exact .inl hd
        · refine .inr (Pictured.flagged hf hs hr hd ((h.fresh r hr).resolve_left fun hold => hd ?_))
          exact (hf r hr).elim id fun hsame => by rw [hsame.1, hold]
  | redraw =>
      obtain rfl := Except.ok.inj hst
      exact (h.redraw hvalid hfill hfits hc).1

/-- Over every run of operations on a new console that fits on the screen and
of redraws, a row that is not marked stands in the framebuffer, each of its
characters as its glyph and black behind the text; no byte of memory but
those of the console's pixels is changed; and a redraw of the marked rows
puts every row there. -/
theorem graphics_redraw {lineTable : Nat → VConLine} {charTable : Nat → VConChar}
    (hvalid : ctx.Valid) (hfill : ctx.fillCol = 0) (hpos : 1 ≤ rows.toNat)
    (hsize : rows.toNat * columns.toNat ≤ 65536)
    (hwidth : 8 * columns.toNat ≤ ctx.fb.width.toNat)
    (hheight : rows.toNat * ctx.font.height.toNat ≤ ctx.fb.height.toNat)
    {tr : List (GraphicsDisplay × DisplayCall)}
    (hrun : Steps graphicsStep ⟨newConsole rows columns lineTable charTable, ctx, m⟩ tr d)
    (hcalls : ∀ x ∈ tr, GraphicsProper x.1.con x.2) :
    (∀ r < rows.toNat, (d.con.lineTable r).dirty = false → Pictured ctx m d.con d.mem r)
      ∧ (∀ a, (∀ p ∈ consoleBlock ctx d.con, ctx.fb.pixlen ≤ ctx.fb.byteOf p a) → d.mem a = m a)
      ∧ (Drawable d.con → ∀ r < rows.toNat,
        Pictured ctx m (vconRedrawGraphics d).con (vconRedrawGraphics d).mem r) := by
  have hnarrow : columns.toNat < 2 ^ 14 := by
    have := ctx.fb.width.isLt
    omega
  have hstart : OnScreen ctx m rows columns
      ⟨newConsole rows columns lineTable charTable, ctx, m⟩ := by
    refine ⟨rfl, rfl, rfl, newConsole_tidy hpos hsize hnarrow, fun _ _ => rfl, fun _ _ => rfl,
      fun r hr => .inl ?_⟩
    have hr : r < rows.toNat := hr
    change ((newConsole rows columns lineTable charTable).lineTable r).dirty = true
    rw [newConsole_line hr]
    exact dirty_alone _
  have hfits : ∀ {d : GraphicsDisplay}, OnScreen ctx m rows columns d → ConsoleFits ctx d.con :=
    fun h => ⟨by rw [h.width]; exact hwidth, by rw [h.height]; exact hheight⟩
  have h : OnScreen ctx m rows columns d := hrun.inv_of
    (fun _ _ _ hp hc hst => hp.step hvalid hfill (hfits hp) hc hst) hstart hcalls
  refine ⟨fun r hr hd => ?_, h.outside, fun hascii => ?_⟩
  · have hr' : r < d.con.rows.toNat := by rwa [h.height]
    exact (h.fresh r hr').resolve_left (by rw [hd]; exact Bool.false_ne_true)
  · exact (h.redraw hvalid hfill (hfits h) hascii).2

end Run

/-- A letter is put on a console of two by two characters, and drawn. -/
theorem graphics_redraw_letter : ∃ tr d,
    Steps graphicsStep ⟨smallConsole, smallText, fun _ => 7⟩ tr d
      ∧ tr.map Prod.snd = [.call (.putchar 0x41#8)]
      ∧ ∀ r < 2, Pictured smallText (fun _ => 7) (vconRedrawGraphics d).con
        (vconRedrawGraphics d).mem r := by
  have hin : ∀ a ∈ (smallConsole.call (.putchar 0x41#8)).touched, a.InRange smallConsole := by
    decide +kernel
  have hascii : ∀ r < (smallConsole.call (.putchar 0x41#8)).con.rows.toNat,
      ((smallConsole.call (.putchar 0x41#8)).con.lineTable r).dirty = true →
      ∀ c < ((smallConsole.call (.putchar 0x41#8)).con.lineTable r).columns,
        (rendering (smallConsole.call (.putchar 0x41#8)).con r c).character.toNat < 0x80 := by
    decide +kernel
  have hrun : Steps graphicsStep ⟨smallConsole, smallText, fun _ => 7⟩
      ([] ++ [(⟨smallConsole, smallText, fun _ => 7⟩, .call (.putchar 0x41#8))])
      ⟨(smallConsole.call (.putchar 0x41#8)).con, smallText, fun _ => 7⟩ := .tail .refl rfl
  refine ⟨_, _, hrun, rfl, ?_⟩
  refine (graphics_redraw smallText_valid rfl (by decide) (by decide) (by decide) (by decide) hrun
    fun x hx => ?_).2.2 hascii
  obtain rfl := List.mem_singleton.mp hx
  exact ⟨fun hc => hc, hin⟩

end SpKernel
