import SpKernel.ConsoleText

/-!
# Drawing a console (`control.c`, `render/draw.c`)

`vcon_redraw` writes the rows marked as dirty to video memory and takes
the marks away. While one console stays on the screen this is as good as
drawing every row, since every operation marks the rows it changes
(`Flagged`): whatever is not marked already stands on the screen.

The marks of a console compare it with the screen as it was when that
console was drawn last. `vcon_switch` draws the marked rows of the
console it switches to, so a row that is not marked shows whatever
another console left there (`drawn_iff`).

- `Fresh` says that what is not marked is on the screen. An operation
  keeps it because it is `Flagged` (`Tidy.call_flagged`, one lemma for
  each operation before it), and a redraw because it draws the rest
  (`redraw_fresh`).
- `redraw_incremental` is the result for one console, over runs of
  operations and redraws: a redraw leaves the screen that drawing every
  row would leave.
- `switch_shows_iff` is the one for several: a switch shows the whole
  console exactly if the rows that are not marked happen to be on the
  screen. `switch_hides` is a row of another console that stays.
-/

namespace SpKernel

open Function (update update_self update_of_ne)
open Lib

/-- What `memset` leaves in a cell of video memory. -/
def zeroCell : VConChar := ⟨0#8, 0#8⟩

/-- `start` is the text of the line, `screen` the video memory from 0xB8000
on, both in cells. The number of cells to be cleared is computed in
unsigned arithmetic. -/
def vconVgaDraw (columns : Half) (start : Nat → VConChar) (line : VConLine) (row : Nat)
    (screen : Nat → VConChar) : Nat → VConChar :=
  let length := line.columns
  let dest := row * columns.toNat
  let rest := ((BitVec.ofNat 32 columns.toNat - BitVec.ofNat 32 length) * 2#32).toNat / 2
  fun i =>
    if dest + length ≤ i ∧ i < dest + length + rest then zeroCell
    else if dest ≤ i ∧ i < dest + length then start (i - dest)
    else screen i

/-- A console, and the screen it is drawn to. -/
structure Display where
  con : VCon
  screen : Nat → VConChar

/-- The row as its line and cells have it, drawn to the screen. -/
def VCon.draw (con : VCon) (r : Nat) (screen : Nat → VConChar) : Nat → VConChar :=
  vconVgaDraw con.columns (fun i => con.charTable ((con.lineTable r).offset.toNat + i))
    (con.lineTable r) r screen

/-- The loop body of `vcon_redraw`. -/
def Display.redrawRow (d : Display) (r : Nat) : Display :=
  if (d.con.lineTable r).dirty then
    { con := { d.con with
        lineTable := update d.con.lineTable r
          { d.con.lineTable r with length := (d.con.lineTable r).length &&& ~~~flagDirty } }
      screen := d.con.draw r d.screen }
  else d

/-- In VGA text mode. -/
def vconRedraw (d : Display) : Display := (List.range d.con.rows.toNat).foldl Display.redrawRow d

/-- Every row is drawn, marked or not. -/
def drawAll (con : VCon) (screen : Nat → VConChar) : Nat → VConChar :=
  (List.range con.rows.toNat).foldl (fun screen r => con.draw r screen) screen

/-- The cell in column `c` of a row as it is to be on the screen. -/
def rendering (con : VCon) (r c : Nat) : VConChar :=
  if c < (con.lineTable r).columns then
    con.charTable ((con.lineTable r).offset.toNat + c)
  else zeroCell

/-- A row stands on the screen. -/
def Shown (con : VCon) (screen : Nat → VConChar) (r : Nat) : Prop :=
  ∀ c < con.columns.toNat, screen (r * con.columns.toNat + c) = rendering con r c

/-! ## Drawing rows -/

variable {con con' : VCon} {screen : Nat → VConChar}

theorem draw_cell {r : Nat} (h : (con.lineTable r).columns ≤ con.columns.toNat) (i : Nat) :
    con.draw r screen i
      = if r * con.columns.toNat ≤ i ∧ i < r * con.columns.toNat + con.columns.toNat then
          rendering con r (i - r * con.columns.toNat)
        else screen i := by
  have hcol := con.columns.isLt
  have hrest : ((BitVec.ofNat 32 con.columns.toNat - BitVec.ofNat 32 (con.lineTable r).columns)
      * 2#32).toNat / 2 = con.columns.toNat - (con.lineTable r).columns := by
    simp only [BitVec.toNat_mul, BitVec.toNat_sub, BitVec.toNat_ofNat]
    omega
  simp only [VCon.draw, vconVgaDraw, hrest, rendering]
  by_cases hlow : i < r * con.columns.toNat
  · rw [if_neg (by omega), if_neg (by omega), if_neg (by omega)]
  by_cases htext : i < r * con.columns.toNat + (con.lineTable r).columns
  · rw [if_neg (by omega), if_pos (by omega), if_pos (by omega), if_pos (by omega)]
  by_cases hrow : i < r * con.columns.toNat + con.columns.toNat
  · rw [if_pos (by omega), if_pos (by omega), if_neg (by omega)]
  · rw [if_neg (by omega), if_neg (by omega), if_neg (by omega)]

theorem row_lt {r n c w : Nat} (h : r < n) (hc : c < w) : r * w + c < n * w := by
  have := Nat.mul_le_mul_right w h
  rw [Nat.succ_eq_add_one, Nat.add_mul, Nat.one_mul] at this
  omega

/-- Draw the rows below `n` that pass. -/
def paint (con : VCon) (p : Nat → Bool) (n : Nat) (screen : Nat → VConChar) : Nat → VConChar :=
  (List.range n).foldl (fun screen r => if p r then con.draw r screen else screen) screen

theorem paint_succ (p : Nat → Bool) (n : Nat) :
    paint con p (n + 1) screen
      = if p n then con.draw n (paint con p n screen) else paint con p n screen := by
  rw [paint, List.range_succ, List.foldl_append]
  rfl

theorem paint_cell (p : Nat → Bool) {n r c : Nat}
    (hlen : ∀ r < n, (con.lineTable r).columns ≤ con.columns.toNat) (hc : c < con.columns.toNat) :
    paint con p n screen (r * con.columns.toNat + c)
      = if r < n ∧ p r then rendering con r c else screen (r * con.columns.toNat + c) := by
  induction n with
  | zero =>
      rw [if_neg (by omega)]
      rfl
  | succ n ih =>
      have ih := ih fun r hr => hlen r (by omega)
      rw [paint_succ]
      rcases Nat.lt_trichotomy r n with hlt | rfl | hgt
      · have hout := row_lt hlt hc
        have hcond : (r < n + 1 ∧ p r) ↔ (r < n ∧ p r) :=
          and_congr_left fun _ => by omega
        rw [if_congr hcond rfl rfl]
        split
        · rw [draw_cell (hlen n (Nat.lt_succ_self n)), if_neg (by omega), ih]
        · exact ih
      · rw [if_neg fun h => absurd h.1 (Nat.lt_irrefl r)] at ih
        split
        · next hp =>
            rw [draw_cell (hlen r (Nat.lt_succ_self r)), if_pos (by omega),
              if_pos ⟨Nat.lt_succ_self r, hp⟩, Nat.add_sub_cancel_left]
        · next hp =>
            rw [if_neg fun h => hp h.2]
            exact ih
      · have hout : n * con.columns.toNat + con.columns.toNat ≤ r * con.columns.toNat := by
          have := Nat.mul_le_mul_right con.columns.toNat hgt
          rwa [Nat.succ_eq_add_one, Nat.add_mul, Nat.one_mul] at this
        have hno : ¬(r < n + 1 ∧ p r) := fun h => absurd h.1 (by omega)
        have hno' : ¬(r < n ∧ p r) := fun h => absurd h.1 (by omega)
        rw [if_neg hno'] at ih
        rw [if_neg hno]
        split
        · rw [draw_cell (hlen n (Nat.lt_succ_self n)), if_neg (by omega), ih]
        · exact ih

theorem paint_outside (p : Nat → Bool) {n i : Nat}
    (hlen : ∀ r < n, (con.lineTable r).columns ≤ con.columns.toNat)
    (hi : n * con.columns.toNat ≤ i) : paint con p n screen i = screen i := by
  induction n with
  | zero => rfl
  | succ n ih =>
      rw [Nat.add_mul, Nat.one_mul] at hi
      have ih := ih (fun r hr => hlen r (by omega)) (by omega)
      rw [paint_succ]
      split
      · rw [draw_cell (hlen n (Nat.lt_succ_self n)), if_neg (by omega), ih]
      · exact ih

theorem drawAll_eq : drawAll con screen = paint con (fun _ => true) con.rows.toNat screen := rfl

/-- The marks of the first `n` rows are taken away. -/
def VCon.unmark (con : VCon) (n : Nat) : VCon :=
  { con with lineTable := fun r =>
      if r < n ∧ (con.lineTable r).dirty then
        ⟨(con.lineTable r).offset, (con.lineTable r).length &&& ~~~flagDirty⟩
      else con.lineTable r }

theorem unmark_succ {n : Nat} :
    (con.unmark (n + 1)).lineTable
      = if (con.lineTable n).dirty then
          update (con.unmark n).lineTable n
            ⟨(con.lineTable n).offset, (con.lineTable n).length &&& ~~~flagDirty⟩
        else (con.unmark n).lineTable := by
  by_cases hd : (con.lineTable n).dirty
  · rw [if_pos hd]
    funext r
    by_cases hr : r = n
    · subst hr
      rw [update_self]
      exact if_pos ⟨Nat.lt_succ_self r, hd⟩
    · rw [update_of_ne hr]
      exact if_congr (and_congr_left fun _ => by omega) rfl rfl
  · rw [if_neg hd]
    funext r
    refine if_congr (and_congr_left fun hr => ?_) rfl rfl
    have hne : r ≠ n := fun he => hd (he ▸ hr)
    omega

/-- The console and the screen after the first `n` rows are redrawn. -/
theorem redrawRows_eq (d : Display) (n : Nat) :
    (List.range n).foldl Display.redrawRow d
      = ⟨d.con.unmark n, paint d.con (fun r => (d.con.lineTable r).dirty) n d.screen⟩ := by
  induction n with
  | zero =>
      have h0 : d.con.unmark 0 = d.con := by simp [VCon.unmark]
      rw [h0]
      rfl
  | succ n ih =>
      have hline : (d.con.unmark n).lineTable n = d.con.lineTable n :=
        if_neg fun h => absurd h.1 (Nat.lt_irrefl n)
      have hdraw : ∀ screen, (d.con.unmark n).draw n screen = d.con.draw n screen := by
        intro screen
        rw [VCon.draw, hline]
        rfl
      have hcon : d.con.unmark (n + 1)
          = { d.con.unmark n with lineTable := (d.con.unmark (n + 1)).lineTable } := rfl
      rw [List.range_succ, List.foldl_append, ih, List.foldl_cons, List.foldl_nil,
        Display.redrawRow, paint_succ, hcon, unmark_succ]
      simp only [hline, hdraw]
      split
      · rfl
      · rfl

theorem vconRedraw_eq (d : Display) :
    vconRedraw d = ⟨d.con.unmark d.con.rows.toNat,
      paint d.con (fun r => (d.con.lineTable r).dirty) d.con.rows.toNat d.screen⟩ :=
  redrawRows_eq d _

theorem unmark_columns (con : VCon) (n r : Nat) :
    ((con.unmark n).lineTable r).columns = (con.lineTable r).columns := by
  have hclear : ∀ l : Half, (l &&& ~~~flagDirty) >>> 2 = l >>> 2 := by
    intro l
    rw [BitVec.ushiftRight_and_distrib]
    have : ~~~flagDirty >>> 2 = BitVec.allOnes 16 >>> 2 := by decide
    rw [this, ← BitVec.ushiftRight_and_distrib, BitVec.and_allOnes]
  rw [VCon.unmark]
  simp only
  split
  · rw [VConLine.columns, hclear]
    rfl
  · rfl

theorem unmark_rendering (con : VCon) (n r c : Nat) :
    rendering (con.unmark n) r c = rendering con r c := by
  have hoffset : ((con.unmark n).lineTable r).offset = (con.lineTable r).offset := by
    rw [VCon.unmark]
    simp only
    split
    · rfl
    · rfl
  rw [rendering, unmark_columns, hoffset]
  rfl

/-- Which rows stand on the screen after a redraw: those that were marked,
and those that did before. -/
theorem drawn_iff {d : Display}
    (hlen : ∀ r < d.con.rows.toNat, (d.con.lineTable r).columns ≤ d.con.columns.toNat)
    {r : Nat} (hr : r < d.con.rows.toNat) :
    Shown (vconRedraw d).con (vconRedraw d).screen r
      ↔ (d.con.lineTable r).dirty = true ∨ Shown d.con d.screen r := by
  rw [vconRedraw_eq]
  have hcell : ∀ c < d.con.columns.toNat,
      paint d.con (fun r => (d.con.lineTable r).dirty) d.con.rows.toNat d.screen
        (r * d.con.columns.toNat + c)
      = if (d.con.lineTable r).dirty then rendering d.con r c
        else d.screen (r * d.con.columns.toNat + c) := by
    intro c hc
    rw [paint_cell _ hlen hc]
    exact if_congr (and_iff_right hr) rfl rfl
  have hcols : (d.con.unmark d.con.rows.toNat).columns = d.con.columns := rfl
  simp only [Shown, unmark_rendering, hcols]
  by_cases hd : (d.con.lineTable r).dirty = true
  · refine iff_of_true (fun c hc => ?_) (.inl hd)
    rw [hcell c hc, if_pos hd]
  · rw [or_iff_right hd]
    refine forall₂_congr fun c hc => ?_
    rw [hcell c hc, if_neg hd]

/-! ## One console on the screen -/

/-- What is not marked stands on the screen. -/
def Fresh (con : VCon) (screen : Nat → VConChar) : Prop :=
  ∀ r < con.rows.toNat, (con.lineTable r).dirty = true ∨ Shown con screen r

/-- A redraw of the marked rows does what drawing every row would do. -/
theorem Fresh.redraw_eq {d : Display} (h : Fresh d.con d.screen)
    (hlen : ∀ r < d.con.rows.toNat, (d.con.lineTable r).columns ≤ d.con.columns.toNat) :
    (vconRedraw d).screen = drawAll d.con d.screen := by
  have hscreen : (vconRedraw d).screen
      = paint d.con (fun r => (d.con.lineTable r).dirty) d.con.rows.toNat d.screen := by
    rw [vconRedraw_eq]
  rw [hscreen, drawAll_eq]
  funext i
  by_cases hi : i < d.con.rows.toNat * d.con.columns.toNat
  · have hpos : 0 < d.con.columns.toNat := by
      rcases Nat.eq_zero_or_pos d.con.columns.toNat with h0 | hpos
      · rw [h0, Nat.mul_zero] at hi
        exact absurd hi (Nat.not_lt_zero i)
      · exact hpos
    have hrow : i / d.con.columns.toNat < d.con.rows.toNat := Nat.div_lt_of_lt_mul
      (by rwa [Nat.mul_comm])
    have hcol : i % d.con.columns.toNat < d.con.columns.toNat := Nat.mod_lt _ hpos
    have hsplit : i = i / d.con.columns.toNat * d.con.columns.toNat + i % d.con.columns.toNat := by
      rw [Nat.mul_comm]
      exact (Nat.div_add_mod i _).symm
    have hfull : i / d.con.columns.toNat < d.con.rows.toNat ∧ true = true := ⟨hrow, rfl⟩
    rw [hsplit, paint_cell _ hlen hcol, paint_cell _ hlen hcol, if_pos hfull]
    split
    · rfl
    · next hd =>
        rcases h _ hrow with hdirty | hshown
        · exact absurd ⟨hrow, hdirty⟩ hd
        · exact hshown _ hcol
  · rw [paint_outside _ hlen (not_lt.mp hi), paint_outside _ hlen (not_lt.mp hi)]

/-- A row that is not marked afterwards has not changed. -/
def Flagged (con con' : VCon) : Prop :=
  ∀ r < con.rows.toNat, (con'.lineTable r).dirty = true
    ∨ con'.lineTable r = con.lineTable r ∧ ∀ c < con.columns.toNat,
      con'.charTable ((con.lineTable r).offset.toNat + c)
        = con.charTable ((con.lineTable r).offset.toNat + c)

theorem Flagged.of_same (ht : con'.lineTable = con.lineTable)
    (hc : con'.charTable = con.charTable) :
    Flagged con con' := by
  intro r _
  rw [ht, hc]
  exact .inr ⟨rfl, fun _ _ => rfl⟩

theorem Flagged.trans {con'' : VCon} (h : Flagged con con') (h' : Flagged con' con'')
    (hs : SameSize con con') : Flagged con con'' := by
  intro r hr
  rcases h' r (by rwa [hs.rows]) with hd | ⟨hline, hcells⟩
  · exact .inl hd
  rcases h r hr with hd | ⟨hline', hcells'⟩
  · exact .inl (by rw [hline, hd])
  · refine .inr ⟨hline.trans hline', fun c hc => ?_⟩
    rw [hline', hs.columns] at hcells
    rw [hcells c hc, hcells' c hc]

theorem Flagged.fresh (h : Flagged con con') (hs : SameSize con con') (hf : Fresh con screen) :
    Fresh con' screen := by
  intro r hr
  rw [hs.rows] at hr
  rcases h r hr with hd | ⟨hline, hcells⟩
  · exact .inl hd
  rcases hf r hr with hd | hshown
  · exact .inl (by rw [hline, hd])
  · refine .inr fun c hc => ?_
    rw [hs.columns] at hc ⊢
    rw [hshown c hc, rendering, rendering, hline]
    split
    · exact (hcells c hc).symm
    · rfl

theorem clearLineTable_flagged {start stop : Half} (h : start.toNat ≤ stop.toNat) :
    Flagged con (vconBufClearLineTable con start stop).con := by
  intro r _
  rw [clearLineTable_line h]
  split
  · exact .inl (dirty_alone _)
  · exact .inr ⟨rfl, fun _ _ => rfl⟩

theorem Tidy.scroll_flagged (h : Tidy con) (lines : Half) :
    Flagged con (vconScroll con lines).con := by
  rcases scroll_cases h.region lines with ⟨-, he⟩ | ⟨-, he⟩ | ⟨hpos, hlt, he, -⟩
  · rw [he]
    exact clearLineTable_flagged h.region.le
  · rw [he]
    exact .of_same rfl rfl
  · intro r _
    rw [scroll_line hpos hlt]
    split
    · exact .inl (dirty_or _ _ (by decide))
    · split
      · exact .inl (dirty_alone _)
      · refine .inr ⟨rfl, fun c _ => ?_⟩
        rw [he]

/-- A write to a row's own cells and line, which is marked. -/
theorem Laid.flagged_row (hl : Laid con) {row : Nat} {line : VConLine}
    (hrow : row < con.rows.toNat) (hd : line.dirty = true)
    (ht : ∀ r, con'.lineTable r = if r = row then line else con.lineTable r)
    (hc : con'.charTable = con.charTable ∨ ∃ x < con.columns.toNat, ∃ cell, con'.charTable
      = update con.charTable ((con.lineTable row).offset.toNat + x) cell) : Flagged con con' := by
  intro r hr
  rw [ht]
  by_cases he : r = row
  · rw [if_pos he]
    exact .inl hd
  · rw [if_neg he]
    refine .inr ⟨rfl, fun c hcol => ?_⟩
    rcases hc with hc | ⟨x, hx, cell, hc⟩
    · rw [hc]
    · rw [hc, update_of_ne]
      have := hl.apart r hr row hrow he
      omega

theorem Tidy.putCell_flagged (h : Tidy con) {ch : Byte} (hy : con.cursorY.toNat < con.rows.toNat)
    (hp : Printed ch → 0 < con.columns.toNat) : Flagged con (SpKernel.putCell con ch).con := by
  have hd : VConLine.dirty ⟨(con.lineTable con.cursorY.toNat).offset,
      ((con.lineTable con.cursorY.toNat).putAny ch con.cursorX).length ||| flagDirty⟩ = true :=
    dirty_or _ _ (by decide)
  refine h.flagged_row hy hd (fun r => ?_) ?_
  · rw [putCell_line]
    split
    · next hr => rw [hr]
    · rfl
  · rw [putCell_char]
    split
    · next hprint => exact .inr ⟨_, h.cursor_lt (hp hprint), _, rfl⟩
    · exact .inl rfl

theorem Tidy.putcharAt_flagged (h : Tidy con) (ch : Byte) (x y : Half) :
    Flagged con (vconPutcharAt con ch x y).con := by
  by_cases hb : x.toNat < con.columns.toNat ∧ y.toNat < con.rows.toNat
  · have hd : VConLine.dirty ⟨(con.lineTable y.toNat).offset,
        ((con.lineTable y.toNat).put ch x).length ||| flagDirty⟩ = true := dirty_or _ _ (by decide)
    refine h.flagged_row hb.2 hd (fun r => ?_) ?_
    · rw [putcharAt_line hb.1 hb.2]
      split
      · next hr => rw [hr]
      · rfl
    · rw [putcharAt_char hb.1 hb.2]
      split
      · exact .inl rfl
      · exact .inr ⟨_, hb.1, _, rfl⟩
  · rw [putcharAt_bounds hb]
    exact .of_same rfl rfl

theorem putCell_line_mem (con : VCon) (ch : Byte) :
    Access.line con.cursorY.toNat ∈ (putCell con ch).touched := by
  unfold putCell
  split
  · exact List.mem_cons_self
  · split
    · exact List.mem_cons_self
    · split
      · exact List.mem_cons_self
      · exact List.mem_cons_self

theorem columns_pos {i : Nat} (h : (Access.char i).InRange con) : 0 < con.columns.toNat := by
  rcases Nat.eq_zero_or_pos con.columns.toNat with h0 | hpos
  · rw [Access.InRange, h0, Nat.mul_zero] at h
    exact absurd h (Nat.not_lt_zero i)
  · exact hpos

theorem Tidy.putchar_flagged (h : Tidy con) {ch : Byte}
    (hin : ∀ a ∈ (vconPutchar con ch).touched, a.InRange con) :
    Flagged con (vconPutchar con ch).con := by
  unfold vconPutchar at hin ⊢
  split
  · next hy =>
      rw [if_pos hy] at hin
      have hscrolled := h.scroll 1#16
      have hs := scroll_size con 1#16
      have hmid := hscrolled.setCursorXY (y := (vconScroll con 1#16).con.cursorY - 1#16)
        hscrolled.cursor
      have hcell := fun a ha => hin a (List.mem_append_right _ ha)
      refine (h.scroll_flagged 1#16).trans (hmid.putCell_flagged ?_ fun hprint => ?_) hs
      · have := hcell _ (putCell_line_mem _ ch)
        rwa [← Access.inRange_congr hs.rows hs.columns] at this
      · obtain ⟨i, hi⟩ := putCell_char_mem hprint
        have := columns_pos (hcell _ hi)
        rwa [← hs.columns] at this
  · next hy =>
      rw [if_neg hy] at hin
      refine h.putCell_flagged (hin _ (putCell_line_mem con ch)) fun hprint => ?_
      obtain ⟨i, hi⟩ := putCell_char_mem hprint
      exact columns_pos (hin _ hi)

theorem Tidy.puts_flagged : ∀ (str : List Byte) {con : VCon}, Tidy con →
    (∀ a ∈ (vconPuts con str).touched, a.InRange con) → Flagged con (vconPuts con str).con
  | [], _, _, _ => .of_same rfl rfl
  | ch :: str, con, h, hin => by
      have hs := putchar_size con ch
      have hfirst := fun a ha => hin a (List.mem_append_left _ ha)
      have hput := h.putchar fun i hi => columns_pos (hfirst _ hi)
      refine (h.putchar_flagged hfirst).trans (Tidy.puts_flagged str hput fun a ha => ?_) hs
      rw [Access.inRange_congr hs.rows hs.columns]
      exact hin a (List.mem_append_right _ ha)

theorem Tidy.putsAt_flagged : ∀ (str : List Byte) {con : VCon} (x y : Half), Tidy con →
    Flagged con (vconPutsAt con x y str).con
  | [], _, _, _, _ => .of_same rfl rfl
  | ch :: str, con, x, y, h => by
      rw [vconPutsAt]
      split
      · exact h.putcharAt_flagged ch x y
      · exact (h.putcharAt_flagged ch x y).trans
          (Tidy.putsAt_flagged str _ y (h.putcharAt ch x y)) (putcharAt_size con ch x y)

theorem Tidy.call_flagged (h : Tidy con) {c : ConCall} (hc : ¬c.Resizes)
    (hin : ∀ a ∈ (con.call c).touched, a.InRange con) : Flagged con (con.call c).con := by
  cases c with
  | putchar ch => exact h.putchar_flagged hin
  | puts str => exact Tidy.puts_flagged str h hin
  | putcharAt ch x y => exact h.putcharAt_flagged ch x y
  | putsAt str x y => exact Tidy.putsAt_flagged str x y h
  | setCursor x y =>
      simp only [VCon.call, vconSetCursor]
      split
      · exact .of_same rfl rfl
      · exact .of_same rfl rfl
  | setScroll start stop =>
      simp only [VCon.call, vconSetScroll]
      split
      · exact .of_same rfl rfl
      · exact .of_same rfl rfl
  | scroll lines => exact h.scroll_flagged lines
  | clear =>
      have hm : Flagged con (vconBufClearLineTable con 0#16 con.rows).con :=
        clearLineTable_flagged (Nat.zero_le _)
      exact hm
  | clearScroll =>
      have hm : Flagged con (vconBufClearLineTable con con.scrollStart con.scrollEnd).con :=
        clearLineTable_flagged h.region.le
      exact hm
  | resize rows columns behind => exact absurd trivial hc

theorem unmark_tidy (h : Tidy con) (n : Nat) : Tidy (con.unmark n) := by
  have hs : Shuffled con (con.unmark n) := by
    refine .of_offset rfl rfl rfl rfl fun r => ?_
    rw [VCon.unmark]
    simp only
    split
    · rfl
    · rfl
  exact h.of_lines hs (.inl rfl) fun r hr => .inr ⟨r, hr, unmark_columns con n r⟩

theorem redraw_fresh {d : Display}
    (hlen : ∀ r < d.con.rows.toNat, (d.con.lineTable r).columns ≤ d.con.columns.toNat)
    (h : Fresh d.con d.screen) : Fresh (vconRedraw d).con (vconRedraw d).screen := by
  intro r hr
  have hrows : (vconRedraw d).con.rows = d.con.rows := by
    rw [vconRedraw_eq]
    rfl
  rw [hrows] at hr
  exact .inr ((drawn_iff hlen hr).mpr (h r hr))

inductive DisplayCall where
  | call (c : ConCall)
  | redraw

def displayStep (d : Display) : DisplayCall → Except Fault Display
  | .call c => .ok { d with con := (d.con.call c).con }
  | .redraw => .ok (vconRedraw d)

/-- A call other than a change of size whose accesses stay in the tables. -/
def DisplayCall.Proper (con : VCon) : DisplayCall → Prop
  | .call c => ¬c.Resizes ∧ ∀ a ∈ (con.call c).touched, a.InRange con
  | .redraw => True

/-- What holds while one console is on the screen. -/
structure Current (d : Display) : Prop where
  tidy : Tidy d.con
  fresh : Fresh d.con d.screen

theorem Current.step {d d' : Display} {c : DisplayCall} (h : Current d) (hc : c.Proper d.con)
    (hst : displayStep d c = .ok d') : Current d' := by
  cases c with
  | call c =>
      obtain rfl := Except.ok.inj hst
      refine ⟨h.tidy.call hc.1 fun i hi => columns_pos (hc.2 _ hi), ?_⟩
      exact (h.tidy.call_flagged hc.1 hc.2).fresh (call_size d.con hc.1) h.fresh
  | redraw =>
      obtain rfl := Except.ok.inj hst
      refine ⟨?_, redraw_fresh h.tidy.lengths h.fresh⟩
      rw [vconRedraw_eq]
      exact unmark_tidy h.tidy _

theorem displayStep_rows {d d' : Display} {c : DisplayCall} (hc : c.Proper d.con)
    (hst : displayStep d c = .ok d') : d'.con.rows = d.con.rows := by
  cases c with
  | call c =>
      obtain rfl := Except.ok.inj hst
      exact (call_size d.con hc.1).rows
  | redraw =>
      obtain rfl := Except.ok.inj hst
      rw [vconRedraw_eq]
      rfl

/-- Incremental redraw equals full redraw, as long as one console stays on
the screen: the rows that differ from it are marked, and a redraw leaves
on it what drawing every row would. -/
theorem redraw_incremental {rows columns : Half} {lineTable : Nat → VConLine}
    {charTable : Nat → VConChar} {tr : List (Display × DisplayCall)} {d : Display}
    (hsize : rows.toNat * columns.toNat ≤ 65536) (hnarrow : columns.toNat < 16384)
    (hrun : Steps displayStep ⟨newConsole rows columns lineTable charTable, screen⟩ tr d)
    (hcalls : ∀ x ∈ tr, x.2.Proper x.1.con) :
    (vconRedraw d).screen = drawAll d.con d.screen
    ∧ ∀ r < d.con.rows.toNat, (d.con.lineTable r).dirty = false → Shown d.con d.screen r := by
  rcases Nat.eq_zero_or_pos rows.toNat with h0 | hpos
  · have hrows : d.con.rows.toNat = 0 :=
      hrun.inv_of (P := fun d => d.con.rows.toNat = 0)
        (fun _ _ _ hp hc hst => by rw [displayStep_rows hc hst, hp]) h0 hcalls
    refine ⟨?_, by simp [hrows]⟩
    rw [vconRedraw, drawAll, hrows]
    rfl
  · have hstart : Current ⟨newConsole rows columns lineTable charTable, screen⟩ := by
      refine ⟨newConsole_tidy hpos hsize hnarrow, fun r hr => .inl ?_⟩
      have hr : r < rows.toNat := hr
      rw [newConsole_line hr]
      exact dirty_alone _
    have h : Current d := hrun.inv_of (fun _ _ _ hp hc hst => hp.step hc hst) hstart hcalls
    refine ⟨h.fresh.redraw_eq h.tidy.lengths, fun r hr hd => ?_⟩
    exact (h.fresh r hr).resolve_left (by rw [hd]; decide)

/-- A character is put on a console that has been drawn before. -/
theorem redraw_incremental_put : ∃ tr d, Steps displayStep ⟨smallConsole, fun _ => zeroCell⟩ tr d
    ∧ (d.con.lineTable 0).dirty = true ∧ (d.con.lineTable 1).dirty = false
    ∧ (vconRedraw d).screen = drawAll d.con d.screen := by
  let d₁ := vconRedraw ⟨smallConsole, fun _ => zeroCell⟩
  have hrun : Steps displayStep ⟨smallConsole, fun _ => zeroCell⟩
      ([] ++ [(⟨smallConsole, fun _ => zeroCell⟩, .redraw)] ++ [(d₁, .call (.putchar 0x61#8))])
      { d₁ with con := (d₁.con.call (.putchar 0x61#8)).con } := .tail (.tail .refl rfl) rfl
  have hin : ∀ a ∈ (d₁.con.call (.putchar 0x61#8)).touched, a.InRange d₁.con := by decide +kernel
  refine ⟨_, _, hrun, by decide +kernel, by decide +kernel, ?_⟩
  refine (redraw_incremental (by decide) (by decide) hrun fun x hx => ?_).1
  simp only [List.nil_append, List.mem_append, List.mem_singleton] at hx
  rcases hx with rfl | rfl
  · exact trivial
  · exact ⟨fun h => h, hin⟩

/-! ## Several consoles -/

variable {ι : Type} [DecidableEq ι]

/-- `VConCtrl`, with the consoles it may show and the screen. -/
structure VConCtrl (ι : Type) where
  cons : ι → VCon
  current : ι
  screen : Nat → VConChar

def VConCtrl.redraw (ctrl : VConCtrl ι) : VConCtrl ι :=
  let d := vconRedraw ⟨ctrl.cons ctrl.current, ctrl.screen⟩
  { ctrl with cons := update ctrl.cons ctrl.current d.con, screen := d.screen }

def vconSwitch (ctrl : VConCtrl ι) (console : ι) : VConCtrl ι :=
  VConCtrl.redraw { ctrl with current := console }

inductive CtrlCall (ι : Type) where
  | call (i : ι) (c : ConCall)
  | redraw
  | switch (i : ι)

def ctrlStep (ctrl : VConCtrl ι) : CtrlCall ι → Except Fault (VConCtrl ι)
  | .call i c => .ok { ctrl with cons := update ctrl.cons i ((ctrl.cons i).call c).con }
  | .redraw => .ok ctrl.redraw
  | .switch i => .ok (vconSwitch ctrl i)

/-- Every row of the console stands on the screen. -/
def VConCtrl.Shows (ctrl : VConCtrl ι) (i : ι) : Prop :=
  ∀ r < (ctrl.cons i).rows.toNat, Shown (ctrl.cons i) ctrl.screen r

/-- No line of the console is longer than a row. -/
def Narrow (con : VCon) : Prop :=
  ∀ r < con.rows.toNat, (con.lineTable r).columns ≤ con.columns.toNat

theorem switch_shows {ctrl : VConCtrl ι} {i : ι} (h : Narrow (ctrl.cons i)) :
    (vconSwitch ctrl i).Shows i ↔ Fresh (ctrl.cons i) ctrl.screen := by
  have hcon : (vconSwitch ctrl i).cons i = (vconRedraw ⟨ctrl.cons i, ctrl.screen⟩).con :=
    update_self ..
  have hrows : (vconRedraw ⟨ctrl.cons i, ctrl.screen⟩).con.rows = (ctrl.cons i).rows := by
    rw [vconRedraw_eq]
    rfl
  have hscreen : (vconSwitch ctrl i).screen
      = (vconRedraw ⟨ctrl.cons i, ctrl.screen⟩).screen := rfl
  rw [VConCtrl.Shows, hcon, hrows, hscreen]
  have hlen : ∀ r < (Display.mk (ctrl.cons i) ctrl.screen).con.rows.toNat, _ := h
  exact forall₂_congr fun r hr => drawn_iff hlen hr

def CtrlCall.Resizes : CtrlCall ι → Prop
  | .call _ c => c.Resizes
  | _ => False

/-- What the operations and drawing keep of one console is kept of all. -/
theorem ctrlStep_all {P : VCon → Prop}
    (hcall : ∀ con (c : ConCall), ¬c.Resizes → P con → P (con.call c).con)
    (hdraw : ∀ d : Display, P d.con → P (vconRedraw d).con) {ctrl ctrl' : VConCtrl ι}
    {c : CtrlCall ι} (h : ∀ i, P (ctrl.cons i)) (hn : ¬c.Resizes)
    (hst : ctrlStep ctrl c = .ok ctrl') : ∀ i, P (ctrl'.cons i) := by
  have hupdate : ∀ (j : ι) {con : VCon}, P con → ∀ i, P (update ctrl.cons j con i) := by
    intro j con hp i
    by_cases hi : i = j
    · subst hi
      rwa [update_self]
    · rw [update_of_ne hi]
      exact h i
  cases c with
  | call j c =>
      obtain rfl := Except.ok.inj hst
      exact hupdate j (hcall _ c hn (h j))
  | redraw =>
      obtain rfl := Except.ok.inj hst
      exact hupdate ctrl.current (hdraw ⟨ctrl.cons ctrl.current, ctrl.screen⟩ (h ctrl.current))
  | switch j =>
      obtain rfl := Except.ok.inj hst
      exact hupdate j (hdraw ⟨ctrl.cons j, ctrl.screen⟩ (h j))

/-- A console of a size. -/
def OfSize (rows columns : Half) (con : VCon) : Prop := con.rows = rows ∧ con.columns = columns

theorem ctrlStep_ofSize {rows columns : Half} {ctrl ctrl' : VConCtrl ι} {c : CtrlCall ι}
    (h : ∀ i, OfSize rows columns (ctrl.cons i)) (hn : ¬c.Resizes)
    (hst : ctrlStep ctrl c = .ok ctrl') : ∀ i, OfSize rows columns (ctrl'.cons i) := by
  refine ctrlStep_all (fun con c hc hp => ?_) (fun d hp => ?_) h hn hst
  · exact ⟨(call_size con hc).rows.trans hp.1, (call_size con hc).columns.trans hp.2⟩
  · rw [vconRedraw_eq]
    exact hp

theorem ctrlStep_tidy {rows columns : Half} (h0 : 0 < columns.toNat) {ctrl ctrl' : VConCtrl ι}
    {c : CtrlCall ι} (h : ∀ i, Tidy (ctrl.cons i) ∧ OfSize rows columns (ctrl.cons i))
    (hn : ¬c.Resizes) (hst : ctrlStep ctrl c = .ok ctrl') :
    ∀ i, Tidy (ctrl'.cons i) ∧ OfSize rows columns (ctrl'.cons i) := by
  refine ctrlStep_all (P := fun con => Tidy con ∧ OfSize rows columns con)
    (fun con c hc hp => ?_) (fun d hp => ?_) h hn hst
  · obtain ⟨ht, hr, hcol⟩ := hp
    refine ⟨ht.call hc fun _ _ => by rwa [hcol], ?_⟩
    exact ⟨(call_size con hc).rows.trans hr, (call_size con hc).columns.trans hcol⟩
  · rw [vconRedraw_eq]
    exact ⟨unmark_tidy hp.1 _, hp.2⟩

/-- Switching to a console shows it exactly when each of its rows is marked
or stands on the screen already: whatever happened before, as long as no
line of it is longer than a row, and so in every run in which the consoles
are not resized. -/
theorem switch_shows_iff :
    (∀ (ctrl : VConCtrl ι) (i : ι), Narrow (ctrl.cons i) →
      ((vconSwitch ctrl i).Shows i ↔ Fresh (ctrl.cons i) ctrl.screen))
    ∧ ∀ {rows columns : Half} {ctrl₀ ctrl : VConCtrl ι} {tr : List (VConCtrl ι × CtrlCall ι)},
      rows.toNat * columns.toNat ≤ 65536 → columns.toNat < 16384 →
      (∀ i, ∃ lineTable charTable, ctrl₀.cons i = newConsole rows columns lineTable charTable) →
      Steps ctrlStep ctrl₀ tr ctrl → (∀ x ∈ tr, ¬x.2.Resizes) →
      ∀ i, (vconSwitch ctrl i).Shows i ↔ Fresh (ctrl.cons i) ctrl.screen := by
  refine ⟨fun ctrl i h => switch_shows h, ?_⟩
  intro rows columns ctrl₀ ctrl tr hsize hnarrow hstart hrun hcalls i
  have hsizes : ∀ i, OfSize rows columns (ctrl.cons i) := by
    refine hrun.inv_of (fun _ _ _ hp hn hst => ctrlStep_ofSize hp hn hst) (fun i => ?_) hcalls
    obtain ⟨lineTable, charTable, he⟩ := hstart i
    rw [he]
    exact ⟨rfl, rfl⟩
  rcases Nat.eq_zero_or_pos rows.toNat with h0 | hr
  · refine switch_shows fun r hlt => ?_
    rw [(hsizes i).1, h0] at hlt
    exact absurd hlt (Nat.not_lt_zero r)
  rcases Nat.eq_zero_or_pos columns.toNat with h0 | hc
  · -- there is nothing to show in a row without columns
    have hshown : ∀ con : VCon, con.columns = columns → ∀ screen r, Shown con screen r := by
      intro con hcol screen r c hlt
      rw [hcol, h0] at hlt
      exact absurd hlt (Nat.not_lt_zero c)
    have hn : ¬(CtrlCall.switch i : CtrlCall ι).Resizes := fun h => h
    have hstep : ∀ j, OfSize rows columns ((vconSwitch ctrl i).cons j) :=
      ctrlStep_ofSize hsizes hn rfl
    exact iff_of_true (fun r _ => hshown _ (hstep i).2 _ r)
      fun r _ => .inr (hshown _ (hsizes i).2 _ r)
  · have htidy : ∀ i, Tidy (ctrl.cons i) ∧ OfSize rows columns (ctrl.cons i) := by
      refine hrun.inv_of (fun _ _ _ hp hn hst => ctrlStep_tidy hc hp hn hst) (fun i => ?_) hcalls
      obtain ⟨lineTable, charTable, he⟩ := hstart i
      rw [he]
      exact ⟨newConsole_tidy hr hsize hnarrow, rfl, rfl⟩
    exact switch_shows (htidy i).1.lengths

/-- Two consoles, one with an `a` and one with a `b` in the first cell. -/
def twoConsoles : VConCtrl Bool where
  cons := fun b => (smallConsole.call (.putchar (if b then 0x61#8 else 0x62#8))).con
  current := true
  screen := fun _ => zeroCell

/-- A console that was never drawn is shown. -/
theorem switch_shows_first : (vconSwitch twoConsoles true).Shows true := by
  refine (switch_shows_iff.1 twoConsoles true ?_).mpr ?_
  · intro r hr
    have hr : r < 2 := hr
    interval_cases r
    · decide +kernel
    · decide +kernel
  · intro r hr
    have hr : r < 2 := hr
    interval_cases r
    · exact .inl (by decide +kernel)
    · exact .inl (by decide +kernel)

/-- The first console is shown, then the second, then the first again: the
screen keeps the `b`. -/
theorem switch_hides : ∃ tr ctrl, Steps ctrlStep twoConsoles tr ctrl
    ∧ tr.map Prod.snd = [.switch true, .switch false]
    ∧ (vconSwitch ctrl true).screen 0 = ⟨0x62#8, vconDefaultColor⟩
    ∧ rendering ((vconSwitch ctrl true).cons true) 0 0 = ⟨0x61#8, vconDefaultColor⟩
    ∧ ¬(vconSwitch ctrl true).Shows true := by
  have hrun : Steps ctrlStep twoConsoles ([] ++ [(twoConsoles, .switch true)]
      ++ [(vconSwitch twoConsoles true, .switch false)])
      (vconSwitch (vconSwitch twoConsoles true) false) := .tail (.tail .refl rfl) rfl
  have hb : (vconSwitch (vconSwitch (vconSwitch twoConsoles true) false) true).screen 0
      = ⟨0x62#8, vconDefaultColor⟩ := by decide +kernel
  have ha : rendering ((vconSwitch (vconSwitch (vconSwitch twoConsoles true) false) true).cons true)
      0 0 = ⟨0x61#8, vconDefaultColor⟩ := by decide +kernel
  refine ⟨_, _, hrun, rfl, hb, ha, fun h => ?_⟩
  have hcell := h 0 (by decide +kernel) 0 (by decide +kernel)
  rw [ha, Nat.zero_mul, hb] at hcell
  cases hcell

end SpKernel
