import SpKernel.ConsoleSafety

/-!
# The text of a console

What an operation does to the rows of a console that is not resized: the
entries and cells it changes, and what it cannot do to the cursor, the
scroll region and the lengths (`Tidy`).

Putting a character is the one operation that changes cells.
`putCell_line` and `putCell_char` say which entry and which cell it
changes, at the cursor, and `putcharAt_line` and `putcharAt_char` the
same for a given place. All other operations change entries alone, and no
operation but a resize changes the size (`call_size`).

`Tidy` is an invariant of all consoles that have not been resized: rows
have cells of their own, the lengths are at most the number of columns,
and the cursor is in a column. Every call but a resize keeps it, if there
are columns to print in (`Tidy.call`), and a new console has it
(`newConsole_tidy`). `ConsoleGrid` and the two modules on drawing start
from it.
-/

namespace SpKernel

open Function (update update_self update_of_ne)
open Lib

/-- A console that has not been resized: the rows are laid out, the scroll
region is inside, the cursor is in a column of the console, and no line is
longer than a row. -/
structure Tidy (con : VCon) : Prop extends Laid con where
  inside : con.scrollEnd.toNat ≤ con.rows.toNat
  cursor : con.cursorX.toNat < con.columns.toNat ∨ con.cursorX = 0#16
  narrow : con.columns.toNat < 2 ^ 14
  lengths : ∀ r < con.rows.toNat, (con.lineTable r).columns ≤ con.columns.toNat

variable {con con' : VCon}

/-! ## Putting a character -/

/-- The line after a character is put, its flags apart. -/
def VConLine.putAny (line : VConLine) (ch : Byte) (x : Half) : VConLine :=
  if ch = 0xD#8 ∨ ch = 0x9#8 then line else line.put ch x

theorem putCell_line (con : VCon) (ch : Byte) (r : Nat) :
    (putCell con ch).con.lineTable r
      = if r = con.cursorY.toNat then
          ⟨(con.lineTable r).offset,
            ((con.lineTable r).putAny ch con.cursorX).length ||| flagDirty⟩
        else con.lineTable r := by
  have hstore : ∀ (con₁ : VCon) (line : VConLine), con₁.lineTable = con.lineTable →
      line.offset = (con.lineTable con.cursorY.toNat).offset →
      (con₁.storeLine con.cursorY.toNat line).lineTable r
        = if r = con.cursorY.toNat then ⟨(con.lineTable r).offset, line.length ||| flagDirty⟩
          else con.lineTable r := by
    intro con₁ line ht ho
    rw [storeLine_line, ht, ho]
    split
    · next hr => rw [hr]
    · rfl
  have hput : ∀ (P : Prop) [Decidable P] (a b : Half) (line : VConLine),
      (P → a = b) → (if P then (⟨line.offset, a⟩ : VConLine) else line)
        = if P then ⟨line.offset, b⟩ else line := by
    intro P _ a b line hab
    split
    · next hp => rw [hab hp]
    · rfl
  by_cases hn : ch = 0xA#8
  · rw [putCell, if_pos hn]
    refine (hstore con _ rfl (put_offset ..)).trans (hput _ _ _ _ fun hr => ?_)
    rw [VConLine.putAny, if_neg (by rw [hn]; decide), hr]
  by_cases hcr : ch = 0xD#8
  · rw [putCell, if_neg hn, if_pos hcr]
    refine (hstore con _ rfl rfl).trans (hput _ _ _ _ fun hr => ?_)
    rw [VConLine.putAny, if_pos (.inl hcr), hr]
  by_cases ht : ch = 0x9#8
  · rw [putCell, if_neg hn, if_neg hcr, if_pos ht]
    refine (hstore con _ rfl rfl).trans (hput _ _ _ _ fun hr => ?_)
    rw [VConLine.putAny, if_pos (.inr ht), hr]
  · rw [putCell, if_neg hn, if_neg hcr, if_neg ht]
    refine (hstore _ _ rfl (put_offset ..)).trans (hput _ _ _ _ fun hr => ?_)
    rw [VConLine.putAny, if_neg (by tauto), hr]

theorem putCell_char (con : VCon) (ch : Byte) :
    (putCell con ch).con.charTable
      = if Printed ch then
          update con.charTable
            ((con.lineTable con.cursorY.toNat).offset.toNat + con.cursorX.toNat)
            ⟨ch, vconDefaultColor⟩
        else con.charTable := by
  by_cases hn : ch = 0xA#8
  · rw [putCell, if_pos hn, if_neg fun h => h.1 hn]
    rfl
  by_cases hcr : ch = 0xD#8
  · rw [putCell, if_neg hn, if_pos hcr, if_neg fun h => h.2.1 hcr]
    rfl
  by_cases ht : ch = 0x9#8
  · rw [putCell, if_neg hn, if_neg hcr, if_pos ht, if_neg fun h => h.2.2 ht]
    rfl
  · rw [putCell, if_neg hn, if_neg hcr, if_neg ht, if_pos ⟨hn, hcr, ht⟩]
    rfl

theorem putCell_cursorX (con : VCon) (ch : Byte) :
    (putCell con ch).con.cursorX
      = if ch = 0xA#8 ∨ ch = 0xD#8 then 0#16
        else if ch = 0x9#8 then con.cursorX
        else if con.cursorX + 1#16 = con.columns then 0#16 else con.cursorX + 1#16 := by
  by_cases hn : ch = 0xA#8
  · rw [putCell, if_pos hn, if_pos (.inl hn)]
  by_cases hcr : ch = 0xD#8
  · rw [putCell, if_neg hn, if_pos hcr, if_pos (.inr hcr)]
  rw [if_neg (by tauto)]
  by_cases ht : ch = 0x9#8
  · rw [putCell, if_neg hn, if_neg hcr, if_pos ht, if_pos ht]
    rfl
  · rw [putCell, if_neg hn, if_neg hcr, if_neg ht, if_neg ht]
    rfl

theorem putCell_cursorY (con : VCon) (ch : Byte) :
    (putCell con ch).con.cursorY
      = if ch = 0xA#8 ∨ Printed ch ∧ con.cursorX + 1#16 = con.columns then con.cursorY + 1#16
        else con.cursorY := by
  by_cases hn : ch = 0xA#8
  · rw [putCell, if_pos hn, if_pos (.inl hn)]
  by_cases hcr : ch = 0xD#8
  · rw [putCell, if_neg hn, if_pos hcr, if_neg (by simp [hcr, Printed])]
    rfl
  by_cases ht : ch = 0x9#8
  · rw [putCell, if_neg hn, if_neg hcr, if_pos ht, if_neg (by simp [ht, Printed])]
    rfl
  · rw [putCell, if_neg hn, if_neg hcr, if_neg ht]
    have hp : Printed ch := ⟨hn, hcr, ht⟩
    exact if_congr (by simp [hn, hp, VCon.storeLine, VCon.storeChar]) rfl rfl

theorem putCell_char_mem {ch : Byte} (h : Printed ch) :
    ∃ i, Access.char i ∈ (putCell con ch).touched := by
  rw [putCell, if_neg h.1, if_neg h.2.1, if_neg h.2.2]
  exact ⟨_, List.mem_cons_of_mem _ List.mem_cons_self⟩

theorem putcharAt_line {ch : Byte} {x y : Half} (hx : x.toNat < con.columns.toNat)
    (hy : y.toNat < con.rows.toNat) (r : Nat) :
    (vconPutcharAt con ch x y).con.lineTable r
      = if r = y.toNat then
          ⟨(con.lineTable r).offset, ((con.lineTable r).put ch x).length ||| flagDirty⟩
        else con.lineTable r := by
  have hb : ¬(x ≥ con.columns ∨ y ≥ con.rows) := not_outside.mpr ⟨hx, hy⟩
  have hstore : ∀ con₁ : VCon, con₁.lineTable = con.lineTable →
      (con₁.storeLine y.toNat ((con.lineTable y.toNat).put ch x)).lineTable r
        = if r = y.toNat then
            ⟨(con.lineTable r).offset, ((con.lineTable r).put ch x).length ||| flagDirty⟩
          else con.lineTable r := by
    intro con₁ ht
    rw [storeLine_line, ht, put_offset]
    split
    · next hr => rw [hr]
    · rfl
  rw [vconPutcharAt, if_neg hb]
  by_cases hn : ch = 0xA#8
  · simp only [if_pos hn]
    exact hstore con rfl
  · simp only [if_neg hn]
    exact hstore _ rfl

theorem putcharAt_char {ch : Byte} {x y : Half} (hx : x.toNat < con.columns.toNat)
    (hy : y.toNat < con.rows.toNat) :
    (vconPutcharAt con ch x y).con.charTable
      = if ch = 0xA#8 then con.charTable
        else update con.charTable ((con.lineTable y.toNat).offset.toNat + x.toNat)
          ⟨ch, vconDefaultColor⟩ := by
  have hb : ¬(x ≥ con.columns ∨ y ≥ con.rows) := not_outside.mpr ⟨hx, hy⟩
  rw [vconPutcharAt, if_neg hb]
  by_cases hn : ch = 0xA#8
  · simp only [if_pos hn]
    rfl
  · simp only [if_neg hn]
    rfl

theorem putcharAt_bounds {ch : Byte} {x y : Half}
    (h : ¬(x.toNat < con.columns.toNat ∧ y.toNat < con.rows.toNat)) :
    vconPutcharAt con ch x y = ⟨con, [], .bounds⟩ := by
  rw [vconPutcharAt, if_pos]
  simp only [ge_iff_le, BitVec.le_def]
  omega

/-! ## The size of a console -/

/-- The same number of rows and columns. -/
structure SameSize (con con' : VCon) : Prop where
  rows : con'.rows = con.rows
  columns : con'.columns = con.columns

theorem SameSize.trans {con'' : VCon} (h : SameSize con con') (h' : SameSize con' con'') :
    SameSize con con'' :=
  ⟨h'.rows.trans h.rows, h'.columns.trans h.columns⟩

theorem Shuffled.size (h : Shuffled con con') : SameSize con con' := ⟨h.rows, h.columns⟩

theorem scroll_size (con : VCon) (lines : Half) : SameSize con (vconScroll con lines).con := by
  unfold vconScroll
  simp only
  split
  · exact ⟨rfl, rfl⟩
  · split
    · exact ⟨rfl, rfl⟩
    · exact ⟨rfl, rfl⟩

theorem putchar_size (con : VCon) (ch : Byte) : SameSize con (vconPutchar con ch).con := by
  unfold vconPutchar
  split
  · have hs := scroll_size con 1#16
    have hmid : SameSize con { (vconScroll con 1#16).con with
        cursorY := (vconScroll con 1#16).con.cursorY - 1#16 } := ⟨hs.rows, hs.columns⟩
    exact hmid.trans (putCell_shuffled _ ch).size
  · exact (putCell_shuffled con ch).size

theorem puts_size : ∀ (str : List Byte) (con : VCon), SameSize con (vconPuts con str).con
  | [], _ => ⟨rfl, rfl⟩
  | ch :: str, con => (putchar_size con ch).trans (puts_size str _)

theorem putcharAt_size (con : VCon) (ch : Byte) (x y : Half) :
    SameSize con (vconPutcharAt con ch x y).con := by
  unfold vconPutcharAt
  split
  · exact ⟨rfl, rfl⟩
  · split
    · exact ⟨rfl, rfl⟩
    · exact ⟨rfl, rfl⟩

theorem putsAt_size : ∀ (str : List Byte) (con : VCon) (x y : Half),
    SameSize con (vconPutsAt con x y str).con
  | [], _, _, _ => ⟨rfl, rfl⟩
  | ch :: str, con, x, y => by
      rw [vconPutsAt]
      split
      · exact putcharAt_size con ch x y
      · exact (putcharAt_size con ch x y).trans (putsAt_size str _ _ y)

def ConCall.Resizes : ConCall → Prop
  | .resize _ _ _ => True
  | _ => False

theorem call_size (con : VCon) {c : ConCall} (hc : ¬c.Resizes) : SameSize con (con.call c).con := by
  cases c with
  | putchar ch => exact putchar_size con ch
  | puts str => exact puts_size str con
  | putcharAt ch x y => exact putcharAt_size con ch x y
  | putsAt str x y => exact putsAt_size str con x y
  | setCursor x y =>
      simp only [VCon.call, vconSetCursor]
      split
      · exact ⟨rfl, rfl⟩
      · exact ⟨rfl, rfl⟩
  | setScroll start stop =>
      simp only [VCon.call, vconSetScroll]
      split
      · exact ⟨rfl, rfl⟩
      · exact ⟨rfl, rfl⟩
  | scroll lines => exact scroll_size con lines
  | clear => exact ⟨rfl, rfl⟩
  | clearScroll => exact ⟨rfl, rfl⟩
  | resize rows columns behind => exact absurd trivial hc

/-! ## A console that is not resized -/

theorem Tidy.cursor_lt (h : Tidy con) (h0 : 0 < con.columns.toNat) :
    con.cursorX.toNat < con.columns.toNat := by
  rcases h.cursor with hlt | hz
  · exact hlt
  · rwa [hz]

theorem putAny_columns (h : Tidy con) {ch : Byte} {line : VConLine}
    (hl : line.columns ≤ con.columns.toNat) (hp : Printed ch → 0 < con.columns.toNat) :
    (line.putAny ch con.cursorX).columns ≤ con.columns.toNat := by
  have hnarrow := h.narrow
  have hcursor : con.cursorX.toNat ≤ con.columns.toNat := by
    rcases h.cursor with hlt | h0
    · exact hlt.le
    · rw [h0]
      exact Nat.zero_le _
  unfold VConLine.putAny
  split
  · exact hl
  · next hc =>
      by_cases hn : ch = 0xA#8
      · have hcol : (line.put ch con.cursorX).columns = con.cursorX.toNat := by
          rw [VConLine.put, if_pos hn]
          exact columns_lengthWord (by omega) _
        rw [hcol]
        exact hcursor
      · have hlt := h.cursor_lt (hp ⟨hn, by tauto, by tauto⟩)
        rw [columns_put line ch (by omega), if_neg hn]
        omega

theorem Tidy.putCell (h : Tidy con) {ch : Byte} (hp : Printed ch → 0 < con.columns.toNat) :
    Tidy (putCell con ch).con := by
  have hs := putCell_shuffled con ch
  refine ⟨hs.laid h.toLaid, ?_, ?_, ?_, fun r hr => ?_⟩
  · rw [hs.scrollEnd, hs.rows]
    exact h.inside
  · rw [putCell_cursorX, hs.columns]
    split
    · exact .inr rfl
    · next hc =>
        split
        · exact h.cursor
        · next ht =>
            have hlt := h.cursor_lt (hp ⟨by tauto, by tauto, ht⟩)
            split
            · exact .inr rfl
            · next hne =>
                refine .inl ?_
                have hcol := con.columns.isLt
                have hne' : (con.cursorX + 1#16).toNat ≠ con.columns.toNat :=
                  fun he => hne (BitVec.eq_of_toNat_eq he)
                rw [BitVec.toNat_add] at hne' ⊢
                simp only [BitVec.toNat_ofNat] at hne' ⊢
                omega
  · rw [hs.columns]
    exact h.narrow
  · rw [hs.rows] at hr
    rw [hs.columns, putCell_line]
    split
    · rw [columns_or_flags _ _ (by decide)]
      exact putAny_columns h (h.lengths r hr) hp
    · exact h.lengths r hr

/-- Moving or clearing lines, and a cursor in its column. -/
theorem Tidy.of_lines (h : Tidy con) (hs : Shuffled con con')
    (hx : con'.cursorX = con.cursorX ∨ con'.cursorX = 0#16)
    (hl : ∀ r < con.rows.toNat, (con'.lineTable r).columns = 0
      ∨ ∃ r' < con.rows.toNat, (con'.lineTable r).columns = (con.lineTable r').columns) :
    Tidy con' := by
  refine ⟨hs.laid h.toLaid, ?_, ?_, ?_, fun r hr => ?_⟩
  · rw [hs.scrollEnd, hs.rows]
    exact h.inside
  · rw [hs.columns]
    rcases hx with hx | hx
    · rw [hx]
      exact h.cursor
    · exact .inr hx
  · rw [hs.columns]
    exact h.narrow
  · rw [hs.rows] at hr
    rw [hs.columns]
    rcases hl r hr with h0 | ⟨r', hr', he⟩
    · omega
    · rw [he]
      exact h.lengths r' hr'

theorem Tidy.clearLineTable (h : Tidy con) {start stop : Half} (hle : start.toNat ≤ stop.toNat) :
    Tidy (vconBufClearLineTable con start stop).con := by
  refine h.of_lines (clearLineTable_shuffled hle) (.inl rfl) fun r hr => ?_
  rw [clearLineTable_line hle]
  split
  · exact .inl (columns_dirty _)
  · exact .inr ⟨r, hr, rfl⟩

theorem Tidy.setCursorXY (h : Tidy con) {x y : Half}
    (hx : x.toNat < con.columns.toNat ∨ x = 0#16) :
    Tidy { con with cursorX := x, cursorY := y } :=
  ⟨⟨h.region, h.fits, h.apart⟩, h.inside, hx, h.narrow, h.lengths⟩

theorem Tidy.clear (h : Tidy con) : Tidy (vconClear con).con :=
  (h.clearLineTable (Nat.zero_le _)).setCursorXY (.inr rfl)

theorem Tidy.clearScroll (h : Tidy con) : Tidy (vconClearScroll con).con :=
  (h.clearLineTable h.region.le).setCursorXY (.inr rfl)

theorem Tidy.scroll (h : Tidy con) (lines : Half) : Tidy (vconScroll con lines).con := by
  rcases scroll_cases h.region lines with ⟨-, he⟩ | ⟨-, he⟩ | ⟨hpos, hlt, he, -⟩
  · rw [he]
    exact h.clearScroll
  · rw [he]
    exact h
  · refine h.of_lines (scroll_shuffled h.toLaid h.inside lines) (.inl (by rw [he])) fun r hr => ?_
    have hinside := h.inside
    rw [scroll_line hpos hlt]
    split
    · refine .inr ⟨r + lines.toNat, by omega, ?_⟩
      exact columns_or_flags _ _ (by decide)
    · split
      · exact .inl (columns_dirty _)
      · exact .inr ⟨r, hr, rfl⟩

theorem Tidy.setScroll (h : Tidy con) (start stop : Half) :
    Tidy (vconSetScroll con start stop).con := by
  have hl := setScroll_laid h.toLaid start stop
  unfold vconSetScroll at hl ⊢
  split at hl
  · next hb =>
      rw [if_pos hb]
      exact h
  · next hb =>
      rw [if_neg hb]
      simp only [ge_iff_le, gt_iff_lt, BitVec.le_def, BitVec.lt_def, not_or, not_le, not_lt] at hb
      exact ⟨hl, hb.2, .inr rfl, h.narrow, h.lengths⟩

theorem Tidy.setCursor (h : Tidy con) (x y : Half) : Tidy (vconSetCursor con x y).con := by
  unfold vconSetCursor
  split
  · exact h
  · next hb =>
      rw [not_outside] at hb
      exact h.setCursorXY (.inl hb.1)

theorem Tidy.putcharAt (h : Tidy con) (ch : Byte) (x y : Half) :
    Tidy (vconPutcharAt con ch x y).con := by
  by_cases hb : x.toNat < con.columns.toNat ∧ y.toNat < con.rows.toNat
  · have hs := (putcharAt_spec h.toLaid ch x y).1
    have hx : (vconPutcharAt con ch x y).con.cursorX = con.cursorX := by
      unfold vconPutcharAt
      split
      · rfl
      · split
        · rfl
        · rfl
    refine ⟨hs.laid h.toLaid, ?_, ?_, ?_, fun r hr => ?_⟩
    · rw [hs.scrollEnd, hs.rows]
      exact h.inside
    · rw [hx, hs.columns]
      exact h.cursor
    · rw [hs.columns]
      exact h.narrow
    · have hnarrow := h.narrow
      rw [hs.rows] at hr
      have hr := h.lengths r hr
      rw [hs.columns, putcharAt_line hb.1 hb.2]
      split
      · rw [columns_or_flags _ _ (by decide), columns_put _ _ (by omega)]
        split
        · omega
        · omega
      · exact hr
  · rw [putcharAt_bounds hb]
    exact h

theorem Tidy.putchar (h : Tidy con) {ch : Byte}
    (hp : ∀ i, Access.char i ∈ (vconPutchar con ch).touched → 0 < con.columns.toNat) :
    Tidy (vconPutchar con ch).con := by
  unfold vconPutchar at hp ⊢
  split
  · next hy =>
      rw [if_pos hy] at hp
      have hs := scroll_shuffled h.toLaid h.inside 1#16
      have hscrolled := h.scroll 1#16
      have hmid := hscrolled.setCursorXY (y := (vconScroll con 1#16).con.cursorY - 1#16)
        hscrolled.cursor
      refine hmid.putCell fun hprint => ?_
      obtain ⟨i, hi⟩ := putCell_char_mem hprint
      have := hp i (List.mem_append_right _ hi)
      rwa [← hs.columns] at this
  · next hy =>
      rw [if_neg hy] at hp
      refine h.putCell fun hprint => ?_
      obtain ⟨i, hi⟩ := putCell_char_mem hprint
      exact hp i hi

theorem Tidy.puts : ∀ (str : List Byte) {con : VCon}, Tidy con →
    (∀ i, Access.char i ∈ (vconPuts con str).touched → 0 < con.columns.toNat) →
    Tidy (vconPuts con str).con
  | [], _, h, _ => h
  | ch :: str, con, h, hp => by
      have hput := h.putchar fun i hi => hp i (List.mem_append_left _ hi)
      refine Tidy.puts str hput fun i hi => ?_
      rw [(putchar_size con ch).columns]
      exact hp i (List.mem_append_right _ hi)

theorem Tidy.putsAt : ∀ (str : List Byte) {con : VCon} (x y : Half), Tidy con →
    Tidy (vconPutsAt con x y str).con
  | [], _, _, _, h => h
  | ch :: str, con, x, y, h => by
      rw [vconPutsAt]
      split
      · exact h.putcharAt ch x y
      · exact Tidy.putsAt str (x + 1#16) y (h.putcharAt ch x y)

/-- What every operation but a change of size keeps, as long as there are
columns to print in. -/
theorem Tidy.call (h : Tidy con) {c : ConCall} (hc : ¬c.Resizes)
    (hp : ∀ i, Access.char i ∈ (con.call c).touched → 0 < con.columns.toNat) :
    Tidy (con.call c).con := by
  cases c with
  | putchar ch => exact h.putchar hp
  | puts str => exact Tidy.puts str h hp
  | putcharAt ch x y => exact h.putcharAt ch x y
  | putsAt str x y => exact Tidy.putsAt str x y h
  | setCursor x y => exact h.setCursor x y
  | setScroll start stop => exact h.setScroll start stop
  | scroll lines => exact h.scroll lines
  | clear => exact h.clear
  | clearScroll => exact h.clearScroll
  | resize rows columns behind => exact absurd trivial hc

theorem newConsole_line {rows columns : Half} {lineTable : Nat → VConLine}
    {charTable : Nat → VConChar} {r : Nat} (hr : r < rows.toNat) :
    (newConsole rows columns lineTable charTable).lineTable r
      = ⟨BitVec.ofNat 16 (r * columns.toNat), flagDirty⟩ :=
  (initLineTable_line r).trans (if_pos hr)

theorem newConsole_tidy {rows columns : Half} {lineTable : Nat → VConLine}
    {charTable : Nat → VConChar} (hr : 1 ≤ rows.toNat)
    (hsize : rows.toNat * columns.toNat ≤ 65536) (hnarrow : columns.toNat < 2 ^ 14) :
    Tidy (newConsole rows columns lineTable charTable) := by
  refine ⟨newConsole_laid hr hsize, Nat.le_refl _, .inr rfl, hnarrow, fun r hr => ?_⟩
  have hr : r < rows.toNat := hr
  rw [newConsole_line hr, columns_dirty]
  exact Nat.zero_le _

end SpKernel
