import SpKernel.ConsoleText

/-!
# The console as a grid of characters

`Grid` is what a console is for: a cell for every row and column, a
cursor and a scroll region. Writing sets a cell, a newline blanks the
rest of its row, scrolling moves rows and blanks those that enter.

The console keeps a length for every row instead of blank cells, and
never blanks a cell. A write to the right of the length makes the row
longer and shows what the cells between have held before. `Covered` is
the condition that there is nothing to show: for a single write it is
exact (`write_agrees_iff`), and along a run of covered writes the console
is the grid.

`visible` is what a console shows in a row and column, and `Agrees` that
a grid shows the same, with the same cursor and region. `Follows` adds
what the console has to keep for the next call. Each operation has a
lemma that takes a console and the grid it follows to two that do so
again (`Follows.putchar`, `Follows.putcharAt`, `Follows.scroll` and so
on), and `Follows.call` puts them together.

`console_grid` has both results: the run, and the equivalence for a
single write after it. `console_not_grid` is a run of three calls that
shows a character which has been cleared.
-/

namespace SpKernel

open Function (update update_self update_of_ne)
open Lib

/-- A console as a grid of cells. -/
structure Grid where
  rows : Nat
  columns : Nat
  cursorX : Nat
  cursorY : Nat
  scrollStart : Nat
  scrollEnd : Nat
  cells : Nat → Nat → VConChar

def Grid.clear (g : Grid) : Grid :=
  { g with cells := fun _ _ => vconNullCell, cursorX := 0, cursorY := g.scrollStart }

/-- Scroll by fewer lines than the region has. -/
def Grid.scroll (g : Grid) (lines : Nat) : Grid :=
  { g with cells := fun r c =>
      if g.scrollStart ≤ r ∧ r < g.scrollEnd - lines then g.cells (r + lines) c
      else if g.scrollEnd - lines ≤ r ∧ r < g.scrollEnd then vconNullCell
      else g.cells r c }

/-- A newline blanks the row from column `x` on, another character is set. -/
def Grid.write (g : Grid) (ch : Byte) (x y : Nat) : Grid :=
  { g with cells := fun r c =>
      if r = y then
        if ch = 0xA#8 then if x ≤ c then vconNullCell else g.cells r c
        else if c = x then ⟨ch, vconDefaultColor⟩
        else g.cells r c
      else g.cells r c }

def Grid.putCell (g : Grid) (ch : Byte) : Grid :=
  if ch = 0xA#8 then
    { g.write ch g.cursorX g.cursorY with cursorX := 0, cursorY := g.cursorY + 1 }
  else if ch = 0xD#8 then { g with cursorX := 0 }
  else if ch = 0x9#8 then g
  else if g.cursorX + 1 = g.columns then
    { g.write ch g.cursorX g.cursorY with cursorX := 0, cursorY := g.cursorY + 1 }
  else { g.write ch g.cursorX g.cursorY with cursorX := g.cursorX + 1 }

def Grid.putchar (g : Grid) (ch : Byte) : Grid :=
  if g.cursorY = g.scrollEnd then
    Grid.putCell { g.scroll 1 with cursorY := g.cursorY - 1 } ch
  else g.putCell ch

def Grid.puts (g : Grid) (str : List Byte) : Grid := str.foldl Grid.putchar g

def Grid.putcharAt (g : Grid) (ch : Byte) (x y : Nat) : Grid :=
  if x < g.columns ∧ y < g.rows then g.write ch x y else g

/-- As much of the string as there is room for in the row. -/
def Grid.putsAt (g : Grid) (x y : Nat) : List Byte → Grid
  | [] => g
  | ch :: str => if x < g.columns then Grid.putsAt (g.putcharAt ch x y) (x + 1) y str else g

def Grid.setCursor (g : Grid) (x y : Nat) : Grid :=
  if x < g.columns ∧ y < g.rows then { g with cursorX := x, cursorY := y } else g

def Grid.setScroll (g : Grid) (start stop : Nat) : Grid :=
  if start < stop ∧ stop ≤ g.rows then
    { g with scrollStart := start, scrollEnd := stop, cursorX := 0, cursorY := start }
  else g

/-- The operations on a text. -/
inductive TextCall where
  | putchar (ch : Byte)
  | puts (str : List Byte)
  | putcharAt (ch : Byte) (x y : Half)
  | putsAt (str : List Byte) (x y : Half)
  | clear
  | setScroll (start stop : Half)
  | setCursor (x y : Half)
  | scroll (lines : Half)

def TextCall.toCall : TextCall → ConCall
  | .putchar ch => .putchar ch
  | .puts str => .puts str
  | .putcharAt ch x y => .putcharAt ch x y
  | .putsAt str x y => .putsAt str x y
  | .clear => .clear
  | .setScroll start stop => .setScroll start stop
  | .setCursor x y => .setCursor x y
  | .scroll lines => .scroll lines

def Grid.call (g : Grid) : TextCall → Grid
  | .putchar ch => g.putchar ch
  | .puts str => g.puts str
  | .putcharAt ch x y => g.putcharAt ch x.toNat y.toNat
  | .putsAt str x y => g.putsAt x.toNat y.toNat str
  | .clear => g.clear
  | .setScroll start stop => g.setScroll start.toNat stop.toNat
  | .setCursor x y => g.setCursor x.toNat y.toNat
  | .scroll lines => g.scroll lines.toNat

/-! ## What a console shows -/

/-- The cell as the line and its length have it. -/
def visible (con : VCon) (r c : Nat) : VConChar :=
  if c < (con.lineTable r).columns then
    con.charTable ((con.lineTable r).offset.toNat + c)
  else vconNullCell

/-- The console shows the grid. -/
structure Agrees (con : VCon) (g : Grid) : Prop where
  rows : g.rows = con.rows.toNat
  columns : g.columns = con.columns.toNat
  cursorX : g.cursorX = con.cursorX.toNat
  cursorY : g.cursorY = con.cursorY.toNat
  scrollStart : g.scrollStart = con.scrollStart.toNat
  scrollEnd : g.scrollEnd = con.scrollEnd.toNat
  cells : ∀ r < con.rows.toNat, ∀ c < con.columns.toNat, visible con r c = g.cells r c

/-- The cells between the length of a row and column `x` are blank. -/
def Covered (con : VCon) (row x : Nat) : Prop :=
  ∀ c, (con.lineTable row).columns ≤ c → c < x →
    con.charTable ((con.lineTable row).offset.toNat + c) = vconNullCell

variable {con con' : VCon} {g : Grid} {ch : Byte} {x : Half} {row : Nat}

/-- The console after a character is written in column `x` of a row. -/
structure Written (con : VCon) (ch : Byte) (x : Half) (row : Nat) (con' : VCon) : Prop where
  line : ∀ r, con'.lineTable r = if r = row then
      ⟨(con.lineTable r).offset, ((con.lineTable r).put ch x).length ||| flagDirty⟩
    else con.lineTable r
  char : con'.charTable = if ch = 0xA#8 then con.charTable
    else update con.charTable ((con.lineTable row).offset.toNat + x.toNat) ⟨ch, vconDefaultColor⟩

theorem Written.visible (h : Written con ch x row con') (ht : Tidy con)
    (hx : x.toNat < con.columns.toNat) (hrow : row < con.rows.toNat) {r c : Nat}
    (hr : r < con.rows.toNat) (hc : c < con.columns.toNat) :
    SpKernel.visible con' r c
      = if r = row then
          if ch = 0xA#8 then
            if x.toNat ≤ c then vconNullCell
            else con.charTable ((con.lineTable r).offset.toNat + c)
          else if c = x.toNat then ⟨ch, vconDefaultColor⟩
          else if c < max (con.lineTable r).columns (x.toNat + 1) then
            con.charTable ((con.lineTable r).offset.toNat + c)
          else vconNullCell
        else SpKernel.visible con r c := by
  have hnarrow := ht.narrow
  rw [SpKernel.visible, h.line]
  by_cases he : r = row
  · subst he
    rw [if_pos rfl, if_pos rfl, columns_or_flags _ _ (by decide), columns_put _ _ (by omega)]
    by_cases hn : ch = 0xA#8
    · rw [if_pos hn, if_pos hn, h.char, if_pos hn]
      by_cases hxc : x.toNat ≤ c
      · rw [if_neg (by omega), if_pos hxc]
      · rw [if_pos (by omega), if_neg hxc]
    · rw [if_neg hn, if_neg hn, h.char, if_neg hn]
      by_cases hcx : c = x.toNat
      · subst hcx
        rw [if_pos (by omega), if_pos rfl, update_self]
      · rw [if_neg hcx, update_of_ne (by simp only; omega)]
  · rw [if_neg he, if_neg he, SpKernel.visible]
    split
    · rw [h.char]
      split
      · rfl
      · have := ht.apart r hr row hrow he
        exact update_of_ne (by omega) ..
    · rfl

/-- A single write does what it does to the grid exactly when nothing old is
shown by it. -/
theorem write_agrees_iff (h : Written con ch x row con') (ht : Tidy con)
    (hx : x.toNat < con.columns.toNat) (hrow : row < con.rows.toNat)
    (hg : ∀ r < con.rows.toNat, ∀ c < con.columns.toNat, visible con r c = g.cells r c) :
    (∀ r < con.rows.toNat, ∀ c < con.columns.toNat,
      visible con' r c = (g.write ch x.toNat row).cells r c) ↔ Covered con row x.toNat := by
  constructor
  · intro hall c hlen hcx
    have hc : c < con.columns.toNat := by omega
    have hcell := hall row hrow c hc
    have hblank : g.cells row c = vconNullCell := by
      rw [← hg row hrow c hc, visible, if_neg (by omega)]
    rw [h.visible ht hx hrow hrow hc, if_pos rfl] at hcell
    simp only [Grid.write, if_pos, hblank] at hcell
    by_cases hn : ch = 0xA#8
    · rw [if_pos hn, if_pos hn, if_neg (by omega)] at hcell
      rw [hcell]
      split
      · rfl
      · rfl
    · rw [if_neg hn, if_neg hn, if_neg (by omega), if_pos (by omega), if_neg (by omega)] at hcell
      exact hcell
  · intro hcov r hr c hc
    rw [h.visible ht hx hrow hr hc]
    simp only [Grid.write, ← hg r hr c hc]
    by_cases he : r = row
    · subst he
      rw [if_pos rfl, if_pos rfl]
      by_cases hlen : c < (con.lineTable r).columns
      · have hmax : c < max (con.lineTable r).columns (x.toNat + 1) := by omega
        rw [visible, if_pos hlen, if_pos hmax]
      · rw [visible, if_neg hlen]
        by_cases hcx : c < x.toNat
        · rw [hcov c (by omega) hcx]
          simp
        · by_cases hn : ch = 0xA#8
          · rw [if_pos hn, if_pos hn, if_pos (by omega), if_pos (by omega)]
          · rw [if_neg hn, if_neg hn]
            by_cases heq : c = x.toNat
            · rw [if_pos heq, if_pos heq]
            · rw [if_neg heq, if_neg heq, if_neg (by omega)]
    · rw [if_neg he, if_neg he]

theorem putcharAt_written {y : Half} (hx : x.toNat < con.columns.toNat)
    (hy : y.toNat < con.rows.toNat) :
    Written con ch x y.toNat (vconPutcharAt con ch x y).con :=
  ⟨putcharAt_line hx hy, putcharAt_char hx hy⟩

/-- Putting a printed character or a newline writes at the cursor. -/
theorem putCell_written (h : ch = 0xA#8 ∨ Printed ch) :
    Written con ch con.cursorX con.cursorY.toNat (putCell con ch).con := by
  have hctl : ¬(ch = 0xD#8 ∨ ch = 0x9#8) := by
    rcases h with rfl | hp
    · decide
    · exact fun hc => hc.elim hp.2.1 hp.2.2
  refine ⟨fun r => ?_, ?_⟩
  · rw [putCell_line, VConLine.putAny, if_neg hctl]
  · rw [putCell_char]
    by_cases hn : ch = 0xA#8
    · rw [if_pos hn, if_neg fun hp => hp.1 hn]
    · rw [if_neg hn, if_pos (h.resolve_left hn)]

theorem putCell_control (h : ch = 0xD#8 ∨ ch = 0x9#8) (r c : Nat) :
    visible (putCell con ch).con r c = visible con r c := by
  have hp : ¬Printed ch := fun hp => h.elim hp.2.1 hp.2.2
  rw [visible, putCell_char, if_neg hp, putCell_line]
  split
  · rw [columns_or_flags _ _ (by decide), VConLine.putAny, if_pos h]
    rfl
  · rfl

/-! ## The operations agree -/

/-- The cursor is in the scroll region, or at its end in column 0. -/
structure InRegion (con : VCon) : Prop where
  above : con.scrollStart.toNat ≤ con.cursorY.toNat
  below : con.cursorY.toNat ≤ con.scrollEnd.toNat
  column : con.cursorY = con.scrollEnd → con.cursorX = 0#16

theorem half_succ {v m : Half} (h : v.toNat < m.toNat) : (v + 1#16).toNat = v.toNat + 1 := by
  have := m.isLt
  rw [BitVec.toNat_add]
  simp only [BitVec.toNat_ofNat]
  omega

theorem half_eq_iff {v m : Half} : v = m ↔ v.toNat = m.toNat := BitVec.toNat_inj.symm

theorem Agrees.change (h : Agrees con g) (hs : Shuffled con con')
    {cells : Nat → Nat → VConChar} {cx cy : Nat} (hx : cx = con'.cursorX.toNat)
    (hy : cy = con'.cursorY.toNat)
    (hc : ∀ r < con.rows.toNat, ∀ c < con.columns.toNat, visible con' r c = cells r c) :
    Agrees con' { g with cursorX := cx, cursorY := cy, cells := cells } := by
  refine ⟨?_, ?_, hx, hy, ?_, ?_, ?_⟩
  · rw [hs.rows]
    exact h.rows
  · rw [hs.columns]
    exact h.columns
  · rw [hs.scrollStart]
    exact h.scrollStart
  · rw [hs.scrollEnd]
    exact h.scrollEnd
  · rw [hs.rows, hs.columns]
    exact hc

theorem Agrees.putCell (h : Agrees con g) (ht : Tidy con) (h0 : 0 < con.columns.toNat)
    (hy : con.cursorY.toNat < con.scrollEnd.toNat)
    (hcov : ch = 0xA#8 ∨ Printed ch → Covered con con.cursorY.toNat con.cursorX.toNat) :
    Agrees (SpKernel.putCell con ch).con (g.putCell ch) := by
  have hs := putCell_shuffled con ch
  have hx := ht.cursor_lt h0
  have hrow : con.cursorY.toNat < con.rows.toNat := hy.trans_le ht.inside
  have hwrite : ch = 0xA#8 ∨ Printed ch → ∀ r < con.rows.toNat, ∀ c < con.columns.toNat,
      visible (SpKernel.putCell con ch).con r c
        = (g.write ch g.cursorX g.cursorY).cells r c := by
    intro hch
    rw [h.cursorX, h.cursorY]
    exact (write_agrees_iff (putCell_written hch) ht hx hrow h.cells).mpr (hcov hch)
  by_cases hn : ch = 0xA#8
  · rw [Grid.putCell, if_pos hn]
    refine h.change hs ?_ ?_ (hwrite (.inl hn))
    · rw [putCell_cursorX, if_pos (.inl hn)]
      rfl
    · rw [putCell_cursorY, if_pos (.inl hn), half_succ hy, ← h.cursorY]
  by_cases hctl : ch = 0xD#8 ∨ ch = 0x9#8
  · have hcells : ∀ r < con.rows.toNat, ∀ c < con.columns.toNat,
        visible (SpKernel.putCell con ch).con r c = g.cells r c := by
      intro r hr c hc
      rw [putCell_control hctl]
      exact h.cells r hr c hc
    have hcy : g.cursorY = (SpKernel.putCell con ch).con.cursorY.toNat := by
      rw [putCell_cursorY, if_neg]
      · exact h.cursorY
      · rintro (he | ⟨hp, -⟩)
        · exact hn he
        · exact hctl.elim hp.2.1 hp.2.2
    rw [Grid.putCell, if_neg hn]
    by_cases hcr : ch = 0xD#8
    · rw [if_pos hcr]
      refine h.change hs ?_ hcy hcells
      rw [putCell_cursorX, if_pos (.inr hcr)]
      rfl
    · rw [if_neg hcr, if_pos (hctl.resolve_left hcr)]
      refine h.change hs ?_ hcy hcells
      rw [putCell_cursorX, if_neg (by tauto), if_pos (hctl.resolve_left hcr)]
      exact h.cursorX
  · have hp : Printed ch := ⟨hn, fun he => hctl (.inl he), fun he => hctl (.inr he)⟩
    have hend : con.cursorX + 1#16 = con.columns ↔ g.cursorX + 1 = g.columns := by
      rw [half_eq_iff, half_succ hx, h.cursorX, h.columns]
    rw [Grid.putCell, if_neg hn, if_neg hp.2.1, if_neg hp.2.2]
    by_cases he : con.cursorX + 1#16 = con.columns
    · rw [if_pos (hend.mp he)]
      refine h.change hs ?_ ?_ (hwrite (.inr hp))
      · rw [putCell_cursorX, if_neg (by tauto), if_neg hp.2.2, if_pos he]
        rfl
      · rw [putCell_cursorY, if_pos (.inr ⟨hp, he⟩), half_succ hy, ← h.cursorY]
    · rw [if_neg (mt hend.mpr he)]
      refine h.change hs ?_ ?_ (hwrite (.inr hp))
      · rw [putCell_cursorX, if_neg (by tauto), if_neg hp.2.2, if_neg he, half_succ hx,
          ← h.cursorX]
      · rw [putCell_cursorY, if_neg (by tauto)]
        exact h.cursorY

theorem putCell_inRegion (h : InRegion con) (hy : con.cursorY.toNat < con.scrollEnd.toNat) :
    InRegion (putCell con ch).con := by
  have hs := putCell_shuffled con ch
  refine ⟨?_, ?_, ?_⟩
  · rw [hs.scrollStart, putCell_cursorY]
    split
    · rw [half_succ hy]
      exact h.above.trans (Nat.le_succ _)
    · exact h.above
  · rw [hs.scrollEnd, putCell_cursorY]
    split
    · rw [half_succ hy]
      exact hy
    · exact h.below
  · rw [hs.scrollEnd, putCell_cursorY, putCell_cursorX]
    split
    · next hnew =>
        intro _
        rcases hnew with hn | ⟨hp, he⟩
        · rw [if_pos (.inl hn)]
        · rw [if_neg (by have := hp.1; have := hp.2.1; tauto), if_neg hp.2.2, if_pos he]
    · intro he
      rw [half_eq_iff] at he
      omega

theorem Agrees.scroll (h : Agrees con g) (ht : Tidy con) {lines : Half}
    (hlt : con.scrollStart.toNat + lines.toNat < con.scrollEnd.toNat) :
    Agrees (vconScroll con lines).con (g.scroll lines.toNat) := by
  have hs := scroll_shuffled ht.toLaid ht.inside lines
  have hinside := ht.inside
  rcases scroll_cases ht.region lines with ⟨hall, -⟩ | ⟨h0, he⟩ | ⟨hpos, -, he, -⟩
  · omega
  · rw [he, h0]
    refine h.change .refl h.cursorX h.cursorY fun r hr c hc => ?_
    rw [h.cells r hr c hc]
    split
    · rfl
    · rw [if_neg (by omega)]
  · refine h.change hs (by rw [he]; exact h.cursorX) (by rw [he]; exact h.cursorY) ?_
    intro r hr c hc
    have hchar : (vconScroll con lines).con.charTable = con.charTable := by rw [he]
    rw [visible, hchar, scroll_line hpos hlt, h.scrollStart, h.scrollEnd]
    split
    · rw [columns_or_flags _ _ (by decide)]
      exact h.cells _ (by omega) c hc
    · split
      · rw [columns_dirty, if_neg (Nat.not_lt_zero c)]
      · exact h.cells r hr c hc

/-! ## Conditions on the calls -/

/-- A character can be put: the region can be scrolled if it has to be, and
what is written shows nothing old. -/
structure PutCovered (con : VCon) (ch : Byte) : Prop where
  height : con.cursorY = con.scrollEnd → con.scrollStart.toNat + 2 ≤ con.scrollEnd.toNat
  cells : con.cursorY ≠ con.scrollEnd → ch = 0xA#8 ∨ Printed ch →
    Covered con con.cursorY.toNat con.cursorX.toNat

def PutsCovered (con : VCon) : List Byte → Prop
  | [] => True
  | ch :: str => PutCovered con ch ∧ PutsCovered (vconPutchar con ch).con str

def PutsAtCovered (con : VCon) (x y : Half) : List Byte → Prop
  | [] => True
  | ch :: str => x.toNat < con.columns.toNat → y.toNat < con.rows.toNat →
      Covered con y.toNat x.toNat ∧ PutsAtCovered (vconPutcharAt con ch x y).con (x + 1#16) y str

/-- Every write of the call is in a column up to the length of its row, or
has only blank cells to its left beyond it. -/
def TextCall.Covers (con : VCon) : TextCall → Prop
  | .putchar ch => PutCovered con ch
  | .puts str => PutsCovered con str
  | .putcharAt _ x y => x.toNat < con.columns.toNat → y.toNat < con.rows.toNat →
      Covered con y.toNat x.toNat
  | .putsAt str x y => PutsAtCovered con x y str
  | _ => True

/-- Regions of two rows and more, the cursor set in the region, and fewer
lines scrolled than it has. -/
def TextCall.InDomain (con : VCon) : TextCall → Prop
  | .setScroll start stop => start.toNat + 2 ≤ stop.toNat
  | .setCursor _ y => con.scrollStart.toNat ≤ y.toNat ∧ y.toNat < con.scrollEnd.toNat
  | .scroll lines => con.scrollStart.toNat + lines.toNat < con.scrollEnd.toNat
  | _ => True

/-- A console that has followed the grid up to here. -/
structure Follows (con : VCon) (g : Grid) : Prop where
  tidy : Tidy con
  wide : 0 < con.columns.toNat
  region : InRegion con
  agrees : Agrees con g

theorem Follows.putCell (h : Follows con g) (hy : con.cursorY.toNat < con.scrollEnd.toNat)
    (hcov : ch = 0xA#8 ∨ Printed ch → Covered con con.cursorY.toNat con.cursorX.toNat) :
    Follows (SpKernel.putCell con ch).con (g.putCell ch) where
  tidy := h.tidy.putCell fun _ => h.wide
  wide := by
    rw [(putCell_shuffled con ch).columns]
    exact h.wide
  region := putCell_inRegion h.region hy
  agrees := h.agrees.putCell h.tidy h.wide hy hcov

theorem Follows.scrollOne (h : Follows con g) (hy : con.cursorY = con.scrollEnd)
    (h2 : con.scrollStart.toNat + 2 ≤ con.scrollEnd.toNat) :
    Follows { con with
        lineTable := (vconScroll con 1#16).con.lineTable
        cursorY := con.scrollEnd - 1#16 }
      { g.scroll 1 with cursorY := g.cursorY - 1 } := by
  have hlt : con.scrollStart.toNat + (1#16 : Half).toNat < con.scrollEnd.toNat := h2
  have hlast : (con.scrollEnd - 1#16).toNat = con.scrollEnd.toNat - 1 := by
    have := con.scrollEnd.isLt
    rw [BitVec.toNat_sub]
    simp only [BitVec.toNat_ofNat]
    omega
  have hscrolled := h.tidy.scroll 1#16
  have hcon := putchar_scroll h.tidy.toLaid hy h2
  have ha := h.agrees.scroll h.tidy hlt
  have hs := scroll_shuffled h.tidy.toLaid h.tidy.inside 1#16
  have htidy := hscrolled.setCursorXY (y := (vconScroll con 1#16).con.cursorY - 1#16)
    hscrolled.cursor
  have hshift : Shuffled (vconScroll con 1#16).con { (vconScroll con 1#16).con with
      cursorY := (vconScroll con 1#16).con.cursorY - 1#16 } :=
    .of_offset rfl rfl rfl rfl fun _ => rfl
  rw [hcon] at htidy
  refine ⟨htidy, h.wide, ⟨?_, ?_, ?_⟩, ?_⟩
  · show con.scrollStart.toNat ≤ (con.scrollEnd - 1#16).toNat
    omega
  · show (con.scrollEnd - 1#16).toNat ≤ con.scrollEnd.toNat
    omega
  · intro he
    have he : (con.scrollEnd - 1#16).toNat = con.scrollEnd.toNat := half_eq_iff.mp he
    omega
  · rw [← hcon]
    refine ha.change hshift ha.cursorX ?_ ha.cells
    have hcy : (vconScroll con 1#16).con.cursorY - 1#16 = con.scrollEnd - 1#16 :=
      congrArg VCon.cursorY hcon
    rw [hcy, hlast, h.agrees.cursorY, hy]

theorem Follows.putchar (h : Follows con g) (hc : PutCovered con ch) :
    Follows (vconPutchar con ch).con (g.putchar ch) := by
  have hend : con.cursorY = con.scrollEnd ↔ g.cursorY = g.scrollEnd := by
    rw [half_eq_iff, h.agrees.cursorY, h.agrees.scrollEnd]
  by_cases hy : con.cursorY = con.scrollEnd
  · have h2 := hc.height hy
    have hlast : (con.scrollEnd - 1#16).toNat < con.scrollEnd.toNat := by
      have := con.scrollEnd.isLt
      rw [BitVec.toNat_sub]
      simp only [BitVec.toNat_ofNat]
      omega
    rw [vconPutchar, if_pos hy, Grid.putchar, if_pos (hend.mp hy)]
    simp only [putchar_scroll h.tidy.toLaid hy h2]
    refine (h.scrollOne hy h2).putCell hlast fun _ c _ hcx => ?_
    have hzero : con.cursorX = 0#16 := h.region.column hy
    simp only [hzero] at hcx
    exact absurd hcx (Nat.not_lt_zero c)
  · have hlt : con.cursorY.toNat < con.scrollEnd.toNat := by
      have hne : con.cursorY.toNat ≠ con.scrollEnd.toNat := mt half_eq_iff.mpr hy
      have := h.region.below
      omega
    rw [vconPutchar, if_neg hy, Grid.putchar, if_neg (mt hend.mpr hy)]
    exact h.putCell hlt (hc.cells hy)

theorem Follows.puts : ∀ (str : List Byte) {con : VCon} {g : Grid}, Follows con g →
    PutsCovered con str → Follows (vconPuts con str).con (g.puts str)
  | [], _, _, h, _ => h
  | _ :: str, _, _, h, ⟨hc, hcs⟩ => Follows.puts str (h.putchar hc) hcs

theorem putcharAt_cursor (con : VCon) (ch : Byte) (x y : Half) :
    (vconPutcharAt con ch x y).con.cursorX = con.cursorX
    ∧ (vconPutcharAt con ch x y).con.cursorY = con.cursorY := by
  unfold vconPutcharAt
  split
  · exact ⟨rfl, rfl⟩
  · split
    · exact ⟨rfl, rfl⟩
    · exact ⟨rfl, rfl⟩

theorem Follows.putcharAt (h : Follows con g) {y : Half}
    (hc : x.toNat < con.columns.toNat → y.toNat < con.rows.toNat → Covered con y.toNat x.toNat) :
    Follows (vconPutcharAt con ch x y).con (g.putcharAt ch x.toNat y.toNat) := by
  by_cases hb : x.toNat < con.columns.toNat ∧ y.toNat < con.rows.toNat
  · have hs := (putcharAt_spec h.tidy.toLaid ch x y).1
    obtain ⟨hx, hy⟩ := putcharAt_cursor con ch x y
    refine ⟨h.tidy.putcharAt ch x y, ?_, ⟨?_, ?_, ?_⟩, ?_⟩
    · rw [hs.columns]
      exact h.wide
    · rw [hs.scrollStart, hy]
      exact h.region.above
    · rw [hs.scrollEnd, hy]
      exact h.region.below
    · rw [hs.scrollEnd, hy, hx]
      exact h.region.column
    · rw [Grid.putcharAt, if_pos (by rw [h.agrees.columns, h.agrees.rows]; exact hb)]
      refine h.agrees.change hs (by rw [hx]; exact h.agrees.cursorX)
        (by rw [hy]; exact h.agrees.cursorY) ?_
      exact (write_agrees_iff (putcharAt_written hb.1 hb.2) h.tidy hb.1 hb.2 h.agrees.cells).mpr
        (hc hb.1 hb.2)
  · rw [putcharAt_bounds hb, Grid.putcharAt,
      if_neg (by rw [h.agrees.columns, h.agrees.rows]; exact hb)]
    exact h

theorem Grid.putsAt_column {x y : Nat} (h : ¬x < g.columns) (str : List Byte) :
    g.putsAt x y str = g := by
  cases str with
  | nil => rfl
  | cons ch str => rw [Grid.putsAt, if_neg h]

theorem Grid.putsAt_row {y : Nat} (h : ¬y < g.rows) : ∀ (str : List Byte) (x : Nat),
    g.putsAt x y str = g
  | [], _ => rfl
  | ch :: str, x => by
      have hput : g.putcharAt ch x y = g := if_neg fun hb => h hb.2
      rw [Grid.putsAt, hput, Grid.putsAt_row h str]
      split
      · rfl
      · rfl

theorem putcharAt_success {y : Half} (hx : x.toNat < con.columns.toNat)
    (hy : y.toNat < con.rows.toNat) : (vconPutcharAt con ch x y).status ≠ .bounds := by
  have hb : ¬(x ≥ con.columns ∨ y ≥ con.rows) := not_outside.mpr ⟨hx, hy⟩
  rw [vconPutcharAt, if_neg hb]
  by_cases hn : ch = 0xA#8
  · simp [hn]
  · simp [hn]

theorem Follows.putsAt : ∀ (str : List Byte) {con : VCon} {g : Grid} (x y : Half), Follows con g →
    PutsAtCovered con x y str →
    Follows (vconPutsAt con x y str).con (g.putsAt x.toNat y.toNat str)
  | [], _, _, _, _, h, _ => h
  | ch :: str, con, g, x, y, h, hc => by
      rw [vconPutsAt]
      by_cases hb : x.toNat < con.columns.toNat ∧ y.toNat < con.rows.toNat
      · obtain ⟨hcov, hrest⟩ := hc hb.1 hb.2
        have hput : Follows (vconPutcharAt con ch x y).con (g.putcharAt ch x.toNat y.toNat) :=
          h.putcharAt fun _ _ => hcov
        have hcols : (g.putcharAt ch x.toNat y.toNat).columns = con.columns.toNat := by
          rw [hput.agrees.columns, (putcharAt_size con ch x y).columns]
        have hin : x.toNat < g.columns := by
          rw [h.agrees.columns]
          exact hb.1
        rw [Grid.putsAt, if_pos hin]
        by_cases hend : x + 1#16 = con.columns
        · rw [if_pos (.inl hend), Grid.putsAt_column]
          · exact hput
          · rw [hcols, ← hend, half_succ hb.1]
            exact Nat.lt_irrefl _
        · rw [if_neg fun hor => hor.elim hend (putcharAt_success hb.1 hb.2), ← half_succ hb.1]
          exact Follows.putsAt str (x + 1#16) y hput hrest
      · rw [putcharAt_bounds hb, if_pos (.inr rfl)]
        by_cases hx : x.toNat < con.columns.toNat
        · rw [Grid.putsAt_row]
          · exact h
          · rw [h.agrees.rows]
            exact fun hy => hb ⟨hx, hy⟩
        · rw [Grid.putsAt_column]
          · exact h
          · rwa [h.agrees.columns]

theorem Follows.clear (h : Follows con g) : Follows (vconClear con).con g.clear := by
  have hregion := h.tidy.region
  refine ⟨h.tidy.clear, h.wide, ⟨Nat.le_refl _, hregion.le, fun _ => rfl⟩, ?_⟩
  have hs : Shuffled con (vconClear con).con := by
    have hs : Shuffled con (vconBufClearLineTable con 0#16 con.rows).con :=
      clearLineTable_shuffled (Nat.zero_le _)
    exact ⟨hs.rows, hs.columns, hs.scrollStart, hs.scrollEnd, hs.order⟩
  refine h.agrees.change hs rfl h.agrees.scrollStart fun r hr c _ => ?_
  have hline : (vconClear con).con.lineTable r = ⟨(con.lineTable r).offset, flagDirty⟩ :=
    (clearLineTable_line (Nat.zero_le _) r).trans (if_pos ⟨Nat.zero_le _, hr⟩)
  rw [visible, hline, columns_dirty, if_neg (Nat.not_lt_zero c)]

theorem Follows.setScroll (h : Follows con g) (start stop : Half) :
    Follows (vconSetScroll con start stop).con (g.setScroll start.toNat stop.toNat) := by
  have htidy := h.tidy.setScroll start stop
  have hb : start ≥ stop ∨ stop > con.rows ↔ ¬(start.toNat < stop.toNat ∧ stop.toNat ≤ g.rows) := by
    rw [h.agrees.rows, ge_iff_le, gt_iff_lt, BitVec.le_def, BitVec.lt_def]
    omega
  unfold vconSetScroll at htidy ⊢
  rw [Grid.setScroll]
  by_cases hc : start ≥ stop ∨ stop > con.rows
  · rw [if_pos hc, if_neg (hb.mp hc)]
    exact h
  · rw [if_neg hc] at htidy ⊢
    rw [if_pos (not_not.mp (mt hb.mpr hc))]
    have ha := h.agrees
    exact ⟨htidy, h.wide, ⟨Nat.le_refl _, htidy.region.le, fun _ => rfl⟩,
      ⟨ha.rows, ha.columns, rfl, rfl, rfl, rfl, ha.cells⟩⟩

theorem Follows.setCursor (h : Follows con g) {y : Half}
    (hy : con.scrollStart.toNat ≤ y.toNat ∧ y.toNat < con.scrollEnd.toNat) :
    Follows (vconSetCursor con x y).con (g.setCursor x.toNat y.toNat) := by
  have htidy := h.tidy.setCursor x y
  have hb : x ≥ con.columns ∨ y ≥ con.rows ↔ ¬(x.toNat < g.columns ∧ y.toNat < g.rows) := by
    rw [h.agrees.rows, h.agrees.columns, ge_iff_le, ge_iff_le, BitVec.le_def, BitVec.le_def]
    omega
  unfold vconSetCursor at htidy ⊢
  rw [Grid.setCursor]
  by_cases hc : x ≥ con.columns ∨ y ≥ con.rows
  · rw [if_pos hc, if_neg (hb.mp hc)]
    exact h
  · rw [if_neg hc] at htidy ⊢
    rw [if_pos (not_not.mp (mt hb.mpr hc))]
    have ha := h.agrees
    refine ⟨htidy, h.wide, ⟨hy.1, hy.2.le, fun he => ?_⟩,
      ⟨ha.rows, ha.columns, rfl, rfl, ha.scrollStart, ha.scrollEnd, ha.cells⟩⟩
    have he : y.toNat = con.scrollEnd.toNat := half_eq_iff.mp he
    omega

theorem Follows.scroll (h : Follows con g) {lines : Half}
    (hlt : con.scrollStart.toNat + lines.toNat < con.scrollEnd.toNat) :
    Follows (vconScroll con lines).con (g.scroll lines.toNat) := by
  have hs := scroll_shuffled h.tidy.toLaid h.tidy.inside lines
  have ha := h.agrees.scroll h.tidy hlt
  have hcx : (vconScroll con lines).con.cursorX = con.cursorX :=
    half_eq_iff.mpr (ha.cursorX.symm.trans h.agrees.cursorX)
  have hcy : (vconScroll con lines).con.cursorY = con.cursorY :=
    half_eq_iff.mpr (ha.cursorY.symm.trans h.agrees.cursorY)
  refine ⟨h.tidy.scroll lines, ?_, ⟨?_, ?_, ?_⟩, ha⟩
  · rw [hs.columns]
    exact h.wide
  · rw [hs.scrollStart, hcy]
    exact h.region.above
  · rw [hs.scrollEnd, hcy]
    exact h.region.below
  · rw [hs.scrollEnd, hcy, hcx]
    exact h.region.column

/-- A covered call takes the console and the grid to the same text. -/
theorem Follows.call (h : Follows con g) {c : TextCall} (hd : c.InDomain con)
    (hc : c.Covers con) : Follows (con.call c.toCall).con (g.call c) := by
  cases c with
  | putchar ch => exact h.putchar hc
  | puts str => exact Follows.puts str h hc
  | putcharAt ch x y => exact h.putcharAt hc
  | putsAt str x y => exact Follows.putsAt str x y h hc
  | clear => exact h.clear
  | setScroll start stop => exact h.setScroll start stop
  | setCursor x y => exact h.setCursor hd
  | scroll lines => exact h.scroll hd

/-! ## Runs -/

def textStep (con : VCon) (c : TextCall) : Except Fault VCon := .ok (con.call c.toCall).con

def blankGrid (rows columns : Half) : Grid where
  rows := rows.toNat
  columns := columns.toNat
  cursorX := 0
  cursorY := 0
  scrollStart := 0
  scrollEnd := rows.toNat
  cells := fun _ _ => vconNullCell

theorem newConsole_follows {rows columns : Half} {lineTable : Nat → VConLine}
    {charTable : Nat → VConChar} (hr : 1 ≤ rows.toNat) (hc : 0 < columns.toNat)
    (hsize : rows.toNat * columns.toNat ≤ 65536) (hnarrow : columns.toNat < 2 ^ 14) :
    Follows (newConsole rows columns lineTable charTable) (blankGrid rows columns) := by
  refine ⟨newConsole_tidy hr hsize hnarrow, hc, ⟨Nat.le_refl _, Nat.zero_le _, fun _ => rfl⟩,
    rfl, rfl, rfl, rfl, rfl, rfl, fun r hr c _ => ?_⟩
  have hr : r < rows.toNat := hr
  rw [visible, newConsole_line hr, columns_dirty, if_neg (Nat.not_lt_zero c)]
  rfl

theorem toCall_keeps_size (c : TextCall) : ¬c.toCall.Resizes := by
  cases c <;> exact fun h => h

theorem textStep_size {tr : List (VCon × TextCall)} {con₀ : VCon}
    (hrun : Steps textStep con₀ tr con) : SameSize con₀ con := by
  refine hrun.inv (fun t c t' hp hst => ?_) ⟨rfl, rfl⟩
  obtain rfl := Except.ok.inj hst
  exact hp.trans (call_size t (toCall_keeps_size c))

theorem follows_run {rows columns : Half} {lineTable : Nat → VConLine}
    {charTable : Nat → VConChar} {tr : List (VCon × TextCall)} (hr : 1 ≤ rows.toNat)
    (hc : 0 < columns.toNat) (hsize : rows.toNat * columns.toNat ≤ 65536)
    (hnarrow : columns.toNat < 2 ^ 14)
    (hrun : Steps textStep (newConsole rows columns lineTable charTable) tr con)
    (hdom : ∀ y ∈ tr, y.2.InDomain y.1) (hcov : ∀ y ∈ tr, y.2.Covers y.1) :
    Follows con ((tr.map Prod.snd).foldl Grid.call (blankGrid rows columns)) := by
  induction hrun with
  | refl => exact newConsole_follows hr hc hsize hnarrow
  | @tail tr t t' c _ hst ih =>
      have hlast : (t, c) ∈ tr ++ [(t, c)] := List.mem_append_right _ (List.mem_singleton.mpr rfl)
      have ih := ih (fun y hy => hdom y (List.mem_append_left _ hy))
        fun y hy => hcov y (List.mem_append_left _ hy)
      obtain rfl := Except.ok.inj hst
      rw [List.map_append, List.foldl_append]
      exact ih.call (hdom _ hlast) (hcov _ hlast)

/-- The console shows what the grid has, along every run of covered calls;
and of a single write in a row and column of the console this holds only
if it is covered. -/
theorem console_grid {rows columns : Half} {lineTable : Nat → VConLine}
    {charTable : Nat → VConChar} {tr : List (VCon × TextCall)}
    (hsize : rows.toNat * columns.toNat ≤ 65536) (hnarrow : columns.toNat < 16384)
    (hrun : Steps textStep (newConsole rows columns lineTable charTable) tr con)
    (hdom : ∀ y ∈ tr, y.2.InDomain y.1) (hcov : ∀ y ∈ tr, y.2.Covers y.1) :
    (∀ r < rows.toNat, ∀ c < columns.toNat, visible con r c
      = ((tr.map Prod.snd).foldl Grid.call (blankGrid rows columns)).cells r c)
    ∧ ∀ (ch : Byte) (x y : Half), x.toNat < columns.toNat → y.toNat < rows.toNat →
      ((∀ r < rows.toNat, ∀ c < columns.toNat, visible (vconPutcharAt con ch x y).con r c
        = (((tr.map Prod.snd).foldl Grid.call (blankGrid rows columns)).write ch x.toNat
            y.toNat).cells r c)
        ↔ Covered con y.toNat x.toNat) := by
  have hs := textStep_size hrun
  have hrows : con.rows = rows := hs.rows
  have hcols : con.columns = columns := hs.columns
  constructor
  · intro r hr c hc
    have h := follows_run (by omega) (by omega) hsize hnarrow hrun hdom hcov
    exact h.agrees.cells r (by rwa [hrows]) c (by rwa [hcols])
  · intro ch x y hx hy
    have h := follows_run (by omega) (by omega) hsize hnarrow hrun hdom hcov
    rw [← hcols] at hx
    rw [← hrows] at hy
    rw [← hrows, ← hcols]
    exact write_agrees_iff (putcharAt_written hx hy) h.tidy hx hy
      (by simpa only [hrows, hcols] using h.agrees.cells)

theorem Covered.of_le {row x : Nat} (h : x ≤ (con.lineTable row).columns) : Covered con row x :=
  fun _ hc hx => absurd hx (by omega)

theorem PutCovered.of_le {ch : Byte} (hy : con.cursorY ≠ con.scrollEnd)
    (hx : con.cursorX.toNat ≤ (con.lineTable con.cursorY.toNat).columns) : PutCovered con ch :=
  ⟨fun h => absurd h hy, fun _ _ => .of_le hx⟩

/-- An `a`, a new line and a `b` are put, and a `c` is written beside the `a`. -/
theorem console_grid_rows : ∃ con tr, Steps textStep smallConsole tr con
    ∧ tr.map Prod.snd
      = [.putchar 0x61#8, .putchar 0xA#8, .putchar 0x62#8, .putcharAt 0x63#8 1#16 0#16]
    ∧ visible con 0 0 = ⟨0x61#8, vconDefaultColor⟩ ∧ visible con 0 1 = ⟨0x63#8, vconDefaultColor⟩
    ∧ visible con 1 0 = ⟨0x62#8, vconDefaultColor⟩ ∧ visible con 1 1 = vconNullCell := by
  let con₁ := (smallConsole.call (.putchar 0x61#8)).con
  let con₂ := (con₁.call (.putchar 0xA#8)).con
  let con₃ := (con₂.call (.putchar 0x62#8)).con
  have hrun : Steps textStep smallConsole ([] ++ [(smallConsole, .putchar 0x61#8)]
      ++ [(con₁, .putchar 0xA#8)] ++ [(con₂, .putchar 0x62#8)]
      ++ [(con₃, .putcharAt 0x63#8 1#16 0#16)])
      (con₃.call (.putcharAt 0x63#8 1#16 0#16)).con :=
    (((Steps.refl.tail rfl).tail rfl).tail rfl).tail rfl
  have hput₁ : PutCovered smallConsole 0x61#8 := .of_le (by decide) (by decide)
  have hput₂ : PutCovered con₁ 0xA#8 := .of_le (by decide +kernel) (by decide +kernel)
  have hput₃ : PutCovered con₂ 0x62#8 := .of_le (by decide +kernel) (by decide +kernel)
  have hlen : 1 ≤ (con₃.lineTable 0).columns := by decide +kernel
  obtain ⟨hcells, -⟩ := console_grid (by decide) (by decide) hrun
    (by simp [TextCall.InDomain])
    (by simpa [TextCall.Covers] using ⟨hput₁, hput₂, hput₃, fun _ _ => Covered.of_le hlen⟩)
  refine ⟨_, _, hrun, rfl, ?_, ?_, ?_, ?_⟩
  · rw [hcells 0 (by decide) 0 (by decide)]
    decide +kernel
  · rw [hcells 0 (by decide) 1 (by decide)]
    decide +kernel
  · rw [hcells 1 (by decide) 0 (by decide)]
    decide +kernel
  · rw [hcells 1 (by decide) 1 (by decide)]
    decide +kernel

/-- An `a` is put in the first cell, the console is cleared, and a `b` is
written in the second cell: the `a` is there again. -/
theorem console_not_grid : ∃ con tr, Steps textStep smallConsole tr con
    ∧ tr.map Prod.snd = [.putchar 0x61#8, .clear, .putcharAt 0x62#8 1#16 0#16]
    ∧ (∀ y ∈ tr, y.2.InDomain y.1) ∧ visible con 0 0 = ⟨0x61#8, vconDefaultColor⟩
    ∧ ((tr.map Prod.snd).foldl Grid.call (blankGrid 2#16 2#16)).cells 0 0 = vconNullCell := by
  let con₁ := (smallConsole.call (.putchar 0x61#8)).con
  let con₂ := (con₁.call .clear).con
  have hrun : Steps textStep smallConsole ([] ++ [(smallConsole, .putchar 0x61#8)]
      ++ [(con₁, .clear)] ++ [(con₂, .putcharAt 0x62#8 1#16 0#16)])
      (con₂.call (.putcharAt 0x62#8 1#16 0#16)).con := .tail (.tail (.tail .refl rfl) rfl) rfl
  refine ⟨_, _, hrun, rfl, by simp [TextCall.InDomain], ?_, ?_⟩
  · decide +kernel
  · decide +kernel

end SpKernel
