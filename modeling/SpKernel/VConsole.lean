import SpKernel.Lib.Outcome
import SpKernel.Lib.Sweep
import SpKernel.Types

/-!
# Virtual consoles (`kern/vconsole/`)

A console keeps its text in two tables: a cell for every character, and
for every row an entry that says where its cells start and how many of
them are text. The length shares its word with flags, one of which marks
the row as changed since it was last drawn. Scrolling moves entries and
leaves the cells where they are.

Every operation returns, beside the console and its status, the entries
and cells it uses, in `touched`. The tables are total functions: there is
memory behind them too, and whether an operation stays inside is a
property of `touched`, the subject of `ConsoleSafety`.

The loops of the source count in `uint16_t` from one bound to another,
and `halves` is the list of the numbers that such a loop goes through. It
wraps if the bounds are the wrong way round, as the source does;
`halves_eq` says what it is if they are not.

`ConCall` is a call of any operation with any arguments, and `VCon.call`
what it does, so that a run of the console is a list of calls. The last
sections have the rules that later modules use instead of these
definitions: what the loops leave in a line (`clearLineTable_line`,
`scroll_line`), and what the flags and the length of a line have to do
with each other.
-/

namespace SpKernel

open Function (update update_self update_of_ne)
open Lib

structure VConChar where
  character : Byte
  color : Byte
  deriving DecidableEq

abbrev vconDefaultColor : Byte := 0x7#8

def vconNullCell : VConChar := ⟨0x20#8, vconDefaultColor⟩

structure VConLine where
  offset : Half
  length : Half
  deriving DecidableEq

/-- `VCON_LINE_FLAG_DIRTY` -/
abbrev flagDirty : Half := 0x1#16
/-- `VCON_LINE_FLAG_SCROLL` -/
abbrev flagScroll : Half := 0x2#16

/-- `length >> VCON_LINE_LENGTH_LOC` -/
def VConLine.columns (line : VConLine) : Nat := (line.length >>> 2).toNat

def VConLine.dirty (line : VConLine) : Bool := line.length &&& flagDirty ≠ 0#16

/-- A length in columns, with no flags. -/
def lengthWord (columns : Half) : Half := columns <<< 2

/-- `VCon`, with the tables of its `VConBuf`. -/
structure VCon where
  rows : Half
  columns : Half
  cursorX : Half
  cursorY : Half
  scrollStart : Half
  scrollEnd : Half
  lineTable : Nat → VConLine
  charTable : Nat → VConChar

inductive VConStatus where
  | success
  | bounds
  deriving DecidableEq

/-- An entry of the line table or a cell of the character table. -/
inductive Access where
  | line (i : Nat)
  | char (i : Nat)
  deriving DecidableEq

structure VConResult where
  con : VCon
  touched : List Access
  status : VConStatus

/-- `for (uint16_t i = from; i != to; ++i)` -/
def halves (start stop : Half) : List Nat :=
  (List.range (stop - start).toNat).map fun k => (start + BitVec.ofNat 16 k).toNat

/-! ## The operations -/

/-- The tables are assigned by the caller. -/
def vconInit (rows columns : Half) (lineTable : Nat → VConLine) (charTable : Nat → VConChar) :
    VCon where
  rows := rows
  columns := columns
  cursorX := 0#16
  cursorY := 0#16
  scrollStart := 0#16
  scrollEnd := rows
  lineTable := lineTable
  charTable := charTable

def vconBufClearLineTable (con : VCon) (start stop : Half) : VConResult where
  con := { con with
    lineTable := sweep (fun i t => { t i with length := flagDirty }) (halves start stop)
      con.lineTable }
  touched := (halves start stop).map .line
  status := .success

def vconBufInitLineTable (con : VCon) : VConResult where
  con := { con with
    lineTable := sweep (fun r _ => ⟨BitVec.ofNat 16 (r * con.columns.toNat), flagDirty⟩)
      (List.range con.rows.toNat) con.lineTable }
  touched := (List.range con.rows.toNat).map .line
  status := .success

def vconClear (con : VCon) : VConResult :=
  let r := vconBufClearLineTable con 0#16 con.rows
  { r with con := { r.con with cursorX := 0#16, cursorY := con.scrollStart } }

def vconClearScroll (con : VCon) : VConResult :=
  let r := vconBufClearLineTable con con.scrollStart con.scrollEnd
  { r with con := { r.con with cursorX := 0#16, cursorY := 0#16 } }

def vconScroll (con : VCon) (lines : Half) : VConResult :=
  let scrollHeight := con.scrollEnd - con.scrollStart
  if lines ≥ scrollHeight then vconClearScroll con
  else if lines ≠ 0#16 then
    let oldLineBuf : Nat → VConLine :=
      fun i => { con.lineTable (i + con.scrollStart.toNat) with length := flagDirty }
    let stop := con.scrollEnd - lines
    -- scroll by moving entries in the line table
    let moved := sweep (fun r t => { t (r + lines.toNat) with
        length := (t (r + lines.toNat)).length ||| (flagDirty ||| flagScroll) })
      (halves con.scrollStart stop) con.lineTable
    { con := { con with
        lineTable := sweep (fun r _ => oldLineBuf (r - stop.toNat))
          ((halves 0#16 lines).map (stop.toNat + ·)) moved }
      touched := (halves 0#16 lines).map (fun i => .line (i + con.scrollStart.toNat))
        ++ (halves con.scrollStart stop).flatMap (fun r => [.line (r + lines.toNat), .line r])
        ++ (halves 0#16 lines).map (fun i => .line (stop.toNat + i))
      status := .success }
  else ⟨con, [], .success⟩

/-- A character or a newline in column `x` of a line, and the cell it is
written to; the branches `vcon_putchar` and `vcon_putcharAt` share. -/
def VConLine.put (line : VConLine) (ch : Byte) (x : Half) : VConLine :=
  if ch = 0xA#8 then { line with length := lengthWord x }
  else if x.toNat ≥ line.columns then { line with length := lengthWord (x + 1#16) }
  else line

/-- The line is marked as dirty and stored. -/
def VCon.storeLine (con : VCon) (row : Nat) (line : VConLine) : VCon :=
  { con with
    lineTable := update con.lineTable row { line with length := line.length ||| flagDirty } }

def VCon.storeChar (con : VCon) (index : Nat) (ch : Byte) : VCon :=
  { con with charTable := update con.charTable index ⟨ch, vconDefaultColor⟩ }

/-- `vcon_putchar` after the scrolling. -/
def putCell (con : VCon) (ch : Byte) : VConResult :=
  let curRow := con.cursorY.toNat
  let curCol := con.cursorX
  let curLine := con.lineTable curRow
  let index := curLine.offset.toNat + curCol.toNat
  if ch = 0xA#8 then
    { con := { (con.storeLine curRow (curLine.put ch curCol)) with
        cursorX := 0#16
        cursorY := con.cursorY + 1#16 }
      touched := [.line curRow, .line curRow]
      status := .success }
  else if ch = 0xD#8 then
    ⟨{ (con.storeLine curRow curLine) with cursorX := 0#16 }, [.line curRow, .line curRow],
      .success⟩
  else if ch = 0x9#8 then
    ⟨con.storeLine curRow curLine, [.line curRow, .line curRow], .success⟩
  else
    let con := (con.storeChar index ch).storeLine curRow (curLine.put ch curCol)
    let newrow := curCol + 1#16 = con.columns
    { con := { con with
        cursorX := if newrow then 0#16 else curCol + 1#16
        cursorY := if newrow then con.cursorY + 1#16 else con.cursorY }
      touched := [.line curRow, .char index, .line curRow]
      status := .success }

def vconPutchar (con : VCon) (ch : Byte) : VConResult :=
  if con.cursorY = con.scrollEnd then
    let s := vconScroll con 1#16
    let r := putCell { s.con with cursorY := s.con.cursorY - 1#16 } ch
    { r with touched := s.touched ++ r.touched }
  else putCell con ch

def vconPutcharAt (con : VCon) (ch : Byte) (x y : Half) : VConResult :=
  if x ≥ con.columns ∨ y ≥ con.rows then ⟨con, [], .bounds⟩
  else
    let curLine := con.lineTable y.toNat
    let index := curLine.offset.toNat + x.toNat
    let line := curLine.put ch x
    if ch = 0xA#8 then
      ⟨con.storeLine y.toNat line, [.line y.toNat, .line y.toNat], .success⟩
    else
      ⟨(con.storeChar index ch).storeLine y.toNat line,
        [.line y.toNat, .char index, .line y.toNat], .success⟩

/-- The characters of the string, up to its terminator. -/
def vconPuts (con : VCon) : List Byte → VConResult
  | [] => ⟨con, [], .success⟩
  | ch :: str =>
      let r := vconPutchar con ch
      let r' := vconPuts r.con str
      { r' with touched := r.touched ++ r'.touched }

def vconPutsAt (con : VCon) (x y : Half) : List Byte → VConResult
  | [] => ⟨con, [], .success⟩
  | ch :: str =>
      let r := vconPutcharAt con ch x y
      let x := x + 1#16
      if x = con.columns ∨ r.status = .bounds then r
      else
        let r' := vconPutsAt r.con x y str
        { r' with touched := r.touched ++ r'.touched }

abbrev vconRowsMax : Half := 60#16
abbrev vconColumnsMax : Half := 100#16

/-- `behind` is what the memory behind the new line table holds, where the
character table is put. -/
def vconResize (con : VCon) (rows columns : Half) (behind : Nat → VConChar) : VConResult :=
  let rows := if rows > vconRowsMax then vconRowsMax else rows
  let columns := if columns > vconColumnsMax then vconColumnsMax else columns
  vconBufInitLineTable { con with rows := rows, columns := columns, charTable := behind }

def vconSetCursor (con : VCon) (x y : Half) : VConResult :=
  if x ≥ con.columns ∨ y ≥ con.rows then ⟨con, [], .bounds⟩
  else ⟨{ con with cursorX := x, cursorY := y }, [], .success⟩

def vconSetScroll (con : VCon) (start stop : Half) : VConResult :=
  if start ≥ stop ∨ stop > con.rows then ⟨con, [], .bounds⟩
  else
    ⟨{ con with scrollStart := start, scrollEnd := stop, cursorX := 0#16, cursorY := start }, [],
      .success⟩

/-- The operations on a console. -/
inductive ConCall where
  | putchar (ch : Byte)
  | puts (str : List Byte)
  | putcharAt (ch : Byte) (x y : Half)
  | putsAt (str : List Byte) (x y : Half)
  | setCursor (x y : Half)
  | setScroll (start stop : Half)
  | scroll (lines : Half)
  | clear
  | clearScroll
  | resize (rows columns : Half) (behind : Nat → VConChar)

def VCon.call (con : VCon) : ConCall → VConResult
  | .putchar ch => vconPutchar con ch
  | .puts str => vconPuts con str
  | .putcharAt ch x y => vconPutcharAt con ch x y
  | .putsAt str x y => vconPutsAt con x y str
  | .setCursor x y => vconSetCursor con x y
  | .setScroll start stop => vconSetScroll con start stop
  | .scroll lines => vconScroll con lines
  | .clear => vconClear con
  | .clearScroll => vconClearScroll con
  | .resize rows columns behind => vconResize con rows columns behind

def conStep (con : VCon) (c : ConCall) : Except Fault VCon := .ok (con.call c).con

theorem not_outside {x y columns rows : Half} :
    ¬(x ≥ columns ∨ y ≥ rows) ↔ x.toNat < columns.toNat ∧ y.toNat < rows.toNat := by
  simp only [ge_iff_le, BitVec.le_def, not_or, not_le]

/-! ## The loops -/

theorem halves_eq {start stop : Half} (h : start.toNat ≤ stop.toNat) :
    halves start stop = List.range' start.toNat (stop.toNat - start.toNat) := by
  have hstop := stop.isLt
  have hcount : (stop - start).toNat = stop.toNat - start.toNat := by
    rw [BitVec.toNat_sub]
    omega
  rw [halves, hcount, List.range'_eq_map_range]
  refine List.map_congr_left fun k hk => ?_
  have hk := List.mem_range.mp hk
  rw [BitVec.toNat_add, BitVec.toNat_ofNat]
  omega

theorem mem_halves {start stop : Half} (h : start.toNat ≤ stop.toNat) {i : Nat} :
    i ∈ halves start stop ↔ start.toNat ≤ i ∧ i < stop.toNat := by
  rw [halves_eq h, List.mem_range'_1]
  omega

variable {con : VCon}

theorem clearLineTable_line {start stop : Half} (h : start.toNat ≤ stop.toNat) (i : Nat) :
    (vconBufClearLineTable con start stop).con.lineTable i
      = if start.toNat ≤ i ∧ i < stop.toNat then ⟨(con.lineTable i).offset, flagDirty⟩
        else con.lineTable i := by
  have hg : Forward fun (i : Nat) (t : Nat → VConLine) => { t i with length := flagDirty } := by
    intro i t t' ht
    simp only [ht i (Nat.le_refl i)]
  have hsweep := sweep_range hg (stop.toNat - start.toNat) start.toNat con.lineTable i
  rw [← halves_eq h] at hsweep
  refine hsweep.trans (if_congr ?_ rfl rfl)
  omega

theorem initLineTable_line (i : Nat) :
    (vconBufInitLineTable con).con.lineTable i
      = if i < con.rows.toNat then ⟨BitVec.ofNat 16 (i * con.columns.toNat), flagDirty⟩
        else con.lineTable i := by
  have hg : Forward fun (r : Nat) (_ : Nat → VConLine) =>
      (⟨BitVec.ofNat 16 (r * con.columns.toNat), flagDirty⟩ : VConLine) := fun _ _ _ _ => rfl
  have hsweep := sweep_range hg con.rows.toNat 0 con.lineTable i
  rw [← List.range_eq_range'] at hsweep
  refine hsweep.trans (if_congr ?_ rfl rfl)
  omega

/-- What scrolling by fewer lines than the region has does to the line
table. -/
theorem scroll_line {lines : Half} (h0 : 0 < lines.toNat)
    (h : con.scrollStart.toNat + lines.toNat < con.scrollEnd.toNat) (i : Nat) :
    (vconScroll con lines).con.lineTable i
      = if con.scrollStart.toNat ≤ i ∧ i < con.scrollEnd.toNat - lines.toNat then
          ⟨(con.lineTable (i + lines.toNat)).offset,
            (con.lineTable (i + lines.toNat)).length ||| (flagDirty ||| flagScroll)⟩
        else if con.scrollEnd.toNat - lines.toNat ≤ i ∧ i < con.scrollEnd.toNat then
          ⟨(con.lineTable (i - (con.scrollEnd.toNat - lines.toNat) + con.scrollStart.toNat)).offset,
            flagDirty⟩
        else con.lineTable i := by
  have hend := con.scrollEnd.isLt
  have hheight : ¬lines ≥ con.scrollEnd - con.scrollStart := by
    rw [ge_iff_le, BitVec.le_def, BitVec.toNat_sub]
    omega
  have hne : lines ≠ 0#16 := by
    rintro rfl
    exact absurd h0 (by decide)
  have hstop : (con.scrollEnd - lines).toNat = con.scrollEnd.toNat - lines.toNat := by
    rw [BitVec.toNat_sub]
    omega
  rw [vconScroll, if_neg hheight, if_pos hne]
  simp only [hstop]
  have hmap : (halves 0#16 lines).map (con.scrollEnd.toNat - lines.toNat + ·)
      = List.range' (con.scrollEnd.toNat - lines.toNat) lines.toNat := by
    rw [halves_eq (Nat.zero_le _), List.map_add_range']
    rfl
  have hg : Forward fun (r : Nat) (t : Nat → VConLine) => ({ t (r + lines.toNat) with
      length := (t (r + lines.toNat)).length ||| (flagDirty ||| flagScroll) } : VConLine) := by
    intro r t t' ht
    simp only [ht (r + lines.toNat) (by omega)]
  have hc : Forward fun (r : Nat) (_ : Nat → VConLine) =>
      (⟨(con.lineTable (r - (con.scrollEnd.toNat - lines.toNat) + con.scrollStart.toNat)).offset,
        flagDirty⟩ : VConLine) := fun _ _ _ _ => rfl
  rw [hmap, halves_eq (by omega), sweep_range hc, sweep_range hg, hstop]
  by_cases h1 : con.scrollStart.toNat ≤ i ∧ i < con.scrollEnd.toNat - lines.toNat
  · rw [if_neg (by omega), if_pos (by omega), if_pos h1]
  · rw [if_neg h1]
    exact if_congr (by omega) rfl (if_neg (by omega))

theorem scroll_cases (h : con.scrollStart.toNat < con.scrollEnd.toNat) (lines : Half) :
    (con.scrollEnd.toNat ≤ con.scrollStart.toNat + lines.toNat
      ∧ vconScroll con lines = vconClearScroll con)
    ∨ (lines.toNat = 0 ∧ vconScroll con lines = ⟨con, [], .success⟩)
    ∨ (0 < lines.toNat ∧ con.scrollStart.toNat + lines.toNat < con.scrollEnd.toNat
      ∧ (vconScroll con lines).con
        = { con with lineTable := (vconScroll con lines).con.lineTable }
      ∧ (vconScroll con lines).touched
        = (List.range' 0 lines.toNat).map (fun i => .line (i + con.scrollStart.toNat))
          ++ (List.range' con.scrollStart.toNat
              (con.scrollEnd.toNat - lines.toNat - con.scrollStart.toNat)).flatMap
            (fun r => [.line (r + lines.toNat), .line r])
          ++ (List.range' 0 lines.toNat).map
            (fun i => .line (con.scrollEnd.toNat - lines.toNat + i))) := by
  have hend := con.scrollEnd.isLt
  have hheight : lines ≥ con.scrollEnd - con.scrollStart ↔
      con.scrollEnd.toNat ≤ con.scrollStart.toNat + lines.toNat := by
    rw [ge_iff_le, BitVec.le_def, BitVec.toNat_sub]
    omega
  have hzero : lines = 0#16 ↔ lines.toNat = 0 := by
    rw [← BitVec.toNat_inj]
    rfl
  by_cases hall : lines ≥ con.scrollEnd - con.scrollStart
  · exact .inl ⟨hheight.mp hall, by rw [vconScroll, if_pos hall]⟩
  by_cases h0 : lines = 0#16
  · refine .inr (.inl ⟨hzero.mp h0, ?_⟩)
    rw [vconScroll, if_neg hall, if_neg (not_not.mpr h0)]
  · have hpart : con.scrollStart.toNat + lines.toNat < con.scrollEnd.toNat :=
      not_le.mp (mt hheight.mpr hall)
    have hstop : (con.scrollEnd - lines).toNat = con.scrollEnd.toNat - lines.toNat := by
      rw [BitVec.toNat_sub]
      omega
    refine .inr (.inr ⟨Nat.pos_of_ne_zero (mt hzero.mpr h0), hpart, ?_, ?_⟩)
    · rw [vconScroll, if_neg hall, if_pos h0]
    · rw [vconScroll, if_neg hall, if_pos h0]
      simp only [hstop]
      rw [halves_eq (Nat.zero_le _), halves_eq (by omega), hstop]
      rfl

/-! ## Lines -/

theorem columns_lengthWord {x : Half} (h : x.toNat < 2 ^ 14) (offset : Half) :
    VConLine.columns ⟨offset, lengthWord x⟩ = x.toNat := by
  rw [VConLine.columns, lengthWord, BitVec.toNat_ushiftRight, BitVec.toNat_shiftLeft,
    Nat.shiftLeft_eq, Nat.shiftRight_eq_div_pow]
  omega

theorem columns_or_flags (line : VConLine) (offset : Half) {flags : Half}
    (h : flags >>> 2 = 0#16) :
    VConLine.columns ⟨offset, line.length ||| flags⟩ = line.columns := by
  simp only [VConLine.columns]
  rw [BitVec.ushiftRight_or_distrib, h, BitVec.or_zero]

theorem columns_dirty (offset : Half) : VConLine.columns ⟨offset, flagDirty⟩ = 0 := by
  simp only [VConLine.columns]
  decide

theorem dirty_alone (offset : Half) : VConLine.dirty ⟨offset, flagDirty⟩ = true := by
  have h : (decide (flagDirty &&& flagDirty ≠ 0#16)) = true := by decide
  exact h

theorem dirty_or (offset length : Half) {flags : Half} (h : flags &&& flagDirty = flagDirty) :
    VConLine.dirty ⟨offset, length ||| flags⟩ = true := by
  have hbit : (length ||| flags) &&& flagDirty ≠ 0#16 := by
    intro he
    have h0 := congrArg (BitVec.getLsbD · 0) he
    have hf := congrArg (BitVec.getLsbD · 0) h
    simp only [BitVec.getLsbD_and, BitVec.getLsbD_or, BitVec.getLsbD_zero] at h0 hf
    simp_all
  simpa [VConLine.dirty] using hbit

/-- The length after a character is put in a column of a row that is
shorter than `2 ^ 14`. -/
theorem columns_put (line : VConLine) (ch : Byte) {x : Half} (h : x.toNat + 1 < 2 ^ 14) :
    (line.put ch x).columns
      = if ch = 0xA#8 then x.toNat else max line.columns (x.toNat + 1) := by
  have hsucc : (x + 1#16).toNat = x.toNat + 1 := by
    rw [BitVec.toNat_add]
    simp only [BitVec.toNat_ofNat]
    omega
  unfold VConLine.put
  split
  · exact columns_lengthWord (by omega) _
  · split
    · next hge =>
        rw [columns_lengthWord (by omega), hsucc]
        omega
    · omega

theorem storeLine_line (con : VCon) (row : Nat) (line : VConLine) (r : Nat) :
    (con.storeLine row line).lineTable r
      = if r = row then ⟨line.offset, line.length ||| flagDirty⟩ else con.lineTable r := by
  by_cases h : r = row
  · subst h
    rw [if_pos rfl]
    exact update_self ..
  · rw [if_neg h]
    exact update_of_ne h ..

end SpKernel
