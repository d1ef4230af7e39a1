import SpKernel.VConsole

/-!
# Where the console operations reach

Every row of a console has cells of its own (`Laid`), and the operations
keep it so by moving whole entries of the line table (`Shuffled`):
whatever is done to the entries, the offsets in them are those that were
there, in another order.

The rows and cells an operation uses are inside the tables as long as the
cursor and the scroll region are. Nothing keeps them there:
`vcon_putchar` scrolls only when the cursor is exactly at the end of the
region, a region of one row is cleared with the cursor set to the first
row of the console and then moved up, and `vcon_resize` leaves both
alone. `Steady` is the condition on a call under which it stays inside.

`call_safe` is the step: a steady call on a console that is laid out
stays inside the tables and leaves it laid out. There is one lemma for
each operation that it takes (`putchar_spec`, `scroll_shuffled`,
`setScroll_laid`, `resize_laid` and so on). `console_indices_safe` is the
result about runs, and `console_indices_unsafe` a run in which a region
of one row takes the cursor 65535 rows down.
-/

namespace SpKernel

open Function (update update_self update_of_ne)
open Lib

/-- The rows have their cells in the character table, and no two rows share
one; the scroll region is not empty. -/
structure Laid (con : VCon) : Prop where
  region : con.scrollStart.toNat < con.scrollEnd.toNat
  fits : ∀ r < con.rows.toNat, (con.lineTable r).offset.toNat + con.columns.toNat
    ≤ con.rows.toNat * con.columns.toNat
  apart : ∀ r < con.rows.toNat, ∀ r' < con.rows.toNat, r ≠ r' →
    (con.lineTable r).offset.toNat + con.columns.toNat ≤ (con.lineTable r').offset.toNat
    ∨ (con.lineTable r').offset.toNat + con.columns.toNat ≤ (con.lineTable r).offset.toNat

/-- The rows are where they were, up to a change of order. -/
structure Shuffled (con con' : VCon) : Prop where
  rows : con'.rows = con.rows
  columns : con'.columns = con.columns
  scrollStart : con'.scrollStart = con.scrollStart
  scrollEnd : con'.scrollEnd = con.scrollEnd
  order : ∃ σ : Nat → Nat, Function.Injective σ ∧ (∀ r < con.rows.toNat, σ r < con.rows.toNat)
    ∧ ∀ r, (con'.lineTable r).offset = (con.lineTable (σ r)).offset

variable {con con' con'' : VCon}

theorem Shuffled.of_offset (hr : con'.rows = con.rows) (hc : con'.columns = con.columns)
    (hs : con'.scrollStart = con.scrollStart) (he : con'.scrollEnd = con.scrollEnd)
    (ho : ∀ r, (con'.lineTable r).offset = (con.lineTable r).offset) : Shuffled con con' :=
  ⟨hr, hc, hs, he, id, Function.injective_id, fun _ h => h, ho⟩

theorem Shuffled.refl : Shuffled con con :=
  .of_offset rfl rfl rfl rfl fun _ => rfl

theorem Shuffled.trans (h : Shuffled con con') (h' : Shuffled con' con'') :
    Shuffled con con'' := by
  obtain ⟨σ, hinj, hlt, ho⟩ := h.order
  obtain ⟨σ', hinj', hlt', ho'⟩ := h'.order
  refine ⟨h'.rows.trans h.rows, h'.columns.trans h.columns, h'.scrollStart.trans h.scrollStart,
    h'.scrollEnd.trans h.scrollEnd, σ ∘ σ', hinj.comp hinj', fun r hr => ?_, fun r => ?_⟩
  · rw [h.rows] at hlt'
    exact hlt _ (hlt' r hr)
  · rw [ho', ho]
    rfl

theorem Shuffled.laid (h : Shuffled con con') (hl : Laid con) : Laid con' := by
  obtain ⟨σ, hinj, hlt, ho⟩ := h.order
  refine ⟨?_, fun r hr => ?_, fun r hr r' hr' hne => ?_⟩
  · rw [h.scrollStart, h.scrollEnd]
    exact hl.region
  · rw [h.rows] at hr
    rw [ho, h.rows, h.columns]
    exact hl.fits _ (hlt r hr)
  · rw [h.rows] at hr hr'
    rw [ho, ho, h.columns]
    exact hl.apart _ (hlt r hr) _ (hlt r' hr') (hinj.ne hne)

theorem put_offset (line : VConLine) (ch : Byte) (x : Half) :
    (line.put ch x).offset = line.offset := by
  unfold VConLine.put
  split
  · rfl
  · split
    · rfl
    · rfl

theorem storeLine_offset {row : Nat} {line : VConLine}
    (h : line.offset = (con.lineTable row).offset) (r : Nat) :
    ((con.storeLine row line).lineTable r).offset = (con.lineTable r).offset := by
  rw [storeLine_line]
  split
  · next hr =>
      rw [hr]
      exact h
  · rfl

theorem putCell_shuffled (con : VCon) (ch : Byte) : Shuffled con (putCell con ch).con := by
  unfold putCell
  split
  · exact .of_offset rfl rfl rfl rfl (storeLine_offset (put_offset ..))
  · split
    · exact .of_offset rfl rfl rfl rfl (storeLine_offset rfl)
    · split
      · exact .of_offset rfl rfl rfl rfl (storeLine_offset rfl)
      · exact .of_offset rfl rfl rfl rfl
          (storeLine_offset (put_offset (con.lineTable con.cursorY.toNat) ch con.cursorX))

theorem clearLineTable_shuffled {start stop : Half} (h : start.toNat ≤ stop.toNat) :
    Shuffled con (vconBufClearLineTable con start stop).con := by
  refine .of_offset rfl rfl rfl rfl fun r => ?_
  rw [clearLineTable_line h]
  split
  · rfl
  · rfl

/-- The row that comes to `i` when the rows from `start` to `stop` are turned
by `n`. -/
def turned (start stop n i : Nat) : Nat :=
  if start ≤ i ∧ i < stop - n then i + n
  else if stop - n ≤ i ∧ i < stop then i - (stop - n) + start
  else i

theorem turned_injective {start stop n : Nat} (h : start + n < stop) :
    Function.Injective (turned start stop n) := by
  intro i j hij
  unfold turned at hij
  split at hij
  · split at hij
    · omega
    · split at hij
      · omega
      · omega
  · split at hij
    · split at hij
      · omega
      · split at hij
        · omega
        · omega
    · split at hij
      · omega
      · split at hij
        · omega
        · omega

theorem turned_lt {start stop n rows r : Nat} (h : start + n < stop) (hstop : stop ≤ rows)
    (hr : r < rows) : turned start stop n r < rows := by
  unfold turned
  split
  · omega
  · split
    · omega
    · omega

theorem scroll_turns (hregion : con.scrollStart.toNat < con.scrollEnd.toNat)
    (hend : con.scrollEnd.toNat ≤ con.rows.toNat) (lines : Half) :
    Shuffled con (vconScroll con lines).con := by
  rcases scroll_cases hregion lines with ⟨-, he⟩ | ⟨-, he⟩ | ⟨hpos, hlt, hsame, -⟩
  · rw [he]
    have h : Shuffled con _ := clearLineTable_shuffled hregion.le
    exact ⟨h.rows, h.columns, h.scrollStart, h.scrollEnd, h.order⟩
  · rw [he]
    exact .refl
  · refine ⟨by rw [hsame], by rw [hsame], by rw [hsame], by rw [hsame],
      turned con.scrollStart.toNat con.scrollEnd.toNat lines.toNat, turned_injective hlt,
      fun r hr => turned_lt hlt hend hr, fun r => ?_⟩
    rw [scroll_line hpos hlt, turned]
    split
    · rfl
    · split
      · rfl
      · rfl

theorem scroll_shuffled (hl : Laid con) (hend : con.scrollEnd.toNat ≤ con.rows.toNat)
    (lines : Half) : Shuffled con (vconScroll con lines).con :=
  scroll_turns hl.region hend lines

theorem clear_laid (hl : Laid con) : Laid (vconClear con).con := by
  have h : Shuffled con (vconBufClearLineTable con 0#16 con.rows).con :=
    clearLineTable_shuffled (Nat.zero_le _)
  exact Shuffled.laid ⟨h.rows, h.columns, h.scrollStart, h.scrollEnd, h.order⟩ hl

theorem initLineTable_laid (hregion : con.scrollStart.toNat < con.scrollEnd.toNat)
    (hsize : con.rows.toNat * con.columns.toNat ≤ 65536) : Laid (vconBufInitLineTable con).con := by
  have hoffset : ∀ r < con.rows.toNat,
      ((vconBufInitLineTable con).con.lineTable r).offset.toNat = r * con.columns.toNat := by
    intro r hr
    rw [initLineTable_line, if_pos hr, BitVec.toNat_ofNat]
    have hmul : (r + 1) * con.columns.toNat ≤ con.rows.toNat * con.columns.toNat :=
      Nat.mul_le_mul_right _ hr
    rw [Nat.add_mul] at hmul
    rcases Nat.eq_zero_or_pos con.columns.toNat with h0 | hpos
    · rw [h0]
      rfl
    · exact Nat.mod_eq_of_lt (by omega)
  have hnext : ∀ r r', r < r' →
      r * con.columns.toNat + con.columns.toNat ≤ r' * con.columns.toNat := by
    intro r r' h
    have := Nat.mul_le_mul_right con.columns.toNat h
    rwa [Nat.succ_eq_add_one, Nat.add_mul, Nat.one_mul] at this
  refine ⟨hregion, fun r hr => ?_, fun r hr r' hr' hne => ?_⟩
  · rw [hoffset r hr]
    exact hnext r _ hr
  · rw [hoffset r hr, hoffset r' hr']
    rcases Nat.lt_or_gt_of_ne hne with hlt | hgt
    · exact .inl (hnext r r' hlt)
    · exact .inr (hnext r' r hgt)

/-! ## What is used -/

/-- Inside the tables of a console of this size. -/
def Access.InRange (con : VCon) : Access → Prop
  | .line i => i < con.rows.toNat
  | .char i => i < con.rows.toNat * con.columns.toNat

instance (con : VCon) : (a : Access) → Decidable (a.InRange con)
  | .line i => inferInstanceAs (Decidable (i < con.rows.toNat))
  | .char i => inferInstanceAs (Decidable (i < con.rows.toNat * con.columns.toNat))

theorem Access.inRange_congr (hrows : con'.rows = con.rows) (hcolumns : con'.columns = con.columns)
    (a : Access) : a.InRange con' ↔ a.InRange con := by
  cases a with
  | line i => rw [Access.InRange, Access.InRange, hrows]
  | char i => rw [Access.InRange, Access.InRange, hrows, hcolumns]

theorem clearLineTable_touched {start stop : Half} (h : start.toNat ≤ stop.toNat)
    (hstop : stop.toNat ≤ con.rows.toNat) :
    ∀ a ∈ (vconBufClearLineTable con start stop).touched, a.InRange con := by
  intro a ha
  obtain ⟨i, hi, rfl⟩ := List.mem_map.mp ha
  exact ((mem_halves h).mp hi).2.trans_le hstop

theorem scroll_touched (hl : Laid con) (hend : con.scrollEnd.toNat ≤ con.rows.toNat)
    (lines : Half) : ∀ a ∈ (vconScroll con lines).touched, a.InRange con := by
  rcases scroll_cases hl.region lines with ⟨-, he⟩ | ⟨-, he⟩ | ⟨-, hlt, -, he⟩
  · rw [he]
    exact clearLineTable_touched hl.region.le hend
  · rw [he]
    intro a ha
    cases ha
  · rw [he]
    intro a ha
    rcases List.mem_append.mp ha with ha | ha
    · rcases List.mem_append.mp ha with ha | ha
      · obtain ⟨i, hi, rfl⟩ := List.mem_map.mp ha
        have := List.mem_range'_1.mp hi
        simp only [Access.InRange]
        omega
      · obtain ⟨r, hr, ha⟩ := List.mem_flatMap.mp ha
        have := List.mem_range'_1.mp hr
        rcases List.mem_pair.mp ha with rfl | rfl
        · simp only [Access.InRange]
          omega
        · simp only [Access.InRange]
          omega
    · obtain ⟨i, hi, rfl⟩ := List.mem_map.mp ha
      have := List.mem_range'_1.mp hi
      simp only [Access.InRange]
      omega

/-- A character that is written to a cell. -/
def Printed (ch : Byte) : Prop := ch ≠ 0xA#8 ∧ ch ≠ 0xD#8 ∧ ch ≠ 0x9#8

instance (ch : Byte) : Decidable (Printed ch) := inferInstanceAs (Decidable (_ ∧ _))

theorem Laid.cell (hl : Laid con) {r x : Nat} (hr : r < con.rows.toNat)
    (hx : x < con.columns.toNat) :
    (con.lineTable r).offset.toNat + x < con.rows.toNat * con.columns.toNat := by
  have := hl.fits r hr
  omega

theorem putCell_touched (hl : Laid con) {ch : Byte} (hy : con.cursorY.toNat < con.rows.toNat)
    (hx : Printed ch → con.cursorX.toNat < con.columns.toNat) :
    ∀ a ∈ (putCell con ch).touched, a.InRange con := by
  have hline : ∀ a ∈ [Access.line con.cursorY.toNat, .line con.cursorY.toNat], a.InRange con := by
    intro a ha
    rcases List.mem_pair.mp ha with rfl | rfl
    · exact hy
    · exact hy
  unfold putCell
  split
  · exact hline
  · next hn =>
      split
      · exact hline
      · next hcr =>
          split
          · exact hline
          · next ht =>
              intro a ha
              rcases List.mem_cons.mp ha with rfl | ha
              · exact hy
              rcases List.mem_pair.mp ha with rfl | rfl
              · exact hl.cell hy (hx ⟨hn, hcr, ht⟩)
              · exact hy

/-! ## When the operations stay inside -/

/-- A character can be put: the cursor is in a row of the console, or at the
end of a region that can be scrolled by one row; and in a column of the
console if there is something to print. -/
structure PutSafe (con : VCon) (ch : Byte) : Prop where
  scroll : con.cursorY = con.scrollEnd →
    con.scrollStart.toNat + 2 ≤ con.scrollEnd.toNat ∧ con.scrollEnd.toNat ≤ con.rows.toNat
  row : con.cursorY ≠ con.scrollEnd → con.cursorY.toNat < con.rows.toNat
  column : Printed ch → con.cursorX.toNat < con.columns.toNat

/-- So can every character of the string, when it comes to it. -/
def PutsSafe (con : VCon) : List Byte → Prop
  | [] => True
  | ch :: str => PutSafe con ch ∧ PutsSafe (vconPutchar con ch).con str

/-- The cursor and the scroll region are inside the console where the call
uses them. -/
def Steady (con : VCon) : ConCall → Prop
  | .putchar ch => PutSafe con ch
  | .puts str => PutsSafe con str
  | .scroll lines => lines = 0#16 ∨ con.scrollEnd.toNat ≤ con.rows.toNat
  | .clearScroll => con.scrollEnd.toNat ≤ con.rows.toNat
  | _ => True

/-- Before a character is put at the end of the region: one row scrolled,
and the cursor a row up. -/
theorem putchar_scroll (hl : Laid con) (hy : con.cursorY = con.scrollEnd)
    (h2 : con.scrollStart.toNat + 2 ≤ con.scrollEnd.toNat) :
    { (vconScroll con 1#16).con with cursorY := (vconScroll con 1#16).con.cursorY - 1#16 }
      = { con with
          lineTable := (vconScroll con 1#16).con.lineTable
          cursorY := con.scrollEnd - 1#16 } := by
  rcases scroll_cases hl.region 1#16 with ⟨hall, -⟩ | ⟨h0, -⟩ | ⟨-, -, he, -⟩
  · have : (1#16 : Half).toNat = 1 := rfl
    omega
  · cases h0
  · rw [he, hy]

theorem putchar_spec (hl : Laid con) {ch : Byte} (h : PutSafe con ch) :
    Shuffled con (vconPutchar con ch).con
    ∧ ∀ a ∈ (vconPutchar con ch).touched, a.InRange con := by
  by_cases hy : con.cursorY = con.scrollEnd
  · obtain ⟨h2, hend⟩ := h.scroll hy
    have hs := scroll_shuffled hl hend 1#16
    rw [vconPutchar, if_pos hy]
    simp only [putchar_scroll hl hy h2]
    have hmid : Shuffled con { con with
        lineTable := (vconScroll con 1#16).con.lineTable
        cursorY := con.scrollEnd - 1#16 } := ⟨rfl, rfl, rfl, rfl, hs.order⟩
    have hrow : (con.scrollEnd - 1#16).toNat < con.rows.toNat := by
      rw [BitVec.toNat_sub]
      simp only [BitVec.toNat_ofNat]
      have := con.scrollEnd.isLt
      omega
    refine ⟨hmid.trans (putCell_shuffled _ ch), fun a ha => ?_⟩
    rcases List.mem_append.mp ha with ha | ha
    · exact scroll_touched hl hend 1#16 a ha
    · exact (a.inRange_congr hmid.rows hmid.columns).mp
        (putCell_touched (hmid.laid hl) hrow h.column a ha)
  · rw [vconPutchar, if_neg hy]
    exact ⟨putCell_shuffled con ch, putCell_touched hl (h.row hy) h.column⟩

theorem puts_spec : ∀ (str : List Byte) {con : VCon}, Laid con → PutsSafe con str →
    Shuffled con (vconPuts con str).con ∧ ∀ a ∈ (vconPuts con str).touched, a.InRange con
  | [], _, _, _ => ⟨.refl, fun _ ha => by cases ha⟩
  | ch :: str, con, hl, ⟨h, hstr⟩ => by
      obtain ⟨hs, ht⟩ := putchar_spec hl h
      obtain ⟨hs', ht'⟩ := puts_spec str (hs.laid hl) hstr
      refine ⟨hs.trans hs', fun a ha => ?_⟩
      rcases List.mem_append.mp ha with ha | ha
      · exact ht a ha
      · exact (a.inRange_congr hs.rows hs.columns).mp (ht' a ha)

theorem putcharAt_spec (hl : Laid con) (ch : Byte) (x y : Half) :
    Shuffled con (vconPutcharAt con ch x y).con
    ∧ ∀ a ∈ (vconPutcharAt con ch x y).touched, a.InRange con := by
  unfold vconPutcharAt
  split
  · exact ⟨.refl, fun _ ha => by cases ha⟩
  · next hin =>
      rw [not_outside] at hin
      split
      · refine ⟨.of_offset rfl rfl rfl rfl (storeLine_offset (put_offset ..)), fun a ha => ?_⟩
        rcases List.mem_pair.mp ha with rfl | rfl
        · exact hin.2
        · exact hin.2
      · refine ⟨.of_offset rfl rfl rfl rfl
          (storeLine_offset (put_offset (con.lineTable y.toNat) ch x)), fun a ha => ?_⟩
        rcases List.mem_cons.mp ha with rfl | ha
        · exact hin.2
        rcases List.mem_pair.mp ha with rfl | rfl
        · exact hl.cell hin.2 hin.1
        · exact hin.2

theorem putsAt_spec : ∀ (str : List Byte) {con : VCon} (x y : Half), Laid con →
    Shuffled con (vconPutsAt con x y str).con
    ∧ ∀ a ∈ (vconPutsAt con x y str).touched, a.InRange con
  | [], _, _, _, _ => ⟨.refl, fun _ ha => by cases ha⟩
  | ch :: str, con, x, y, hl => by
      obtain ⟨hs, ht⟩ := putcharAt_spec hl ch x y
      rw [vconPutsAt]
      split
      · exact ⟨hs, ht⟩
      · obtain ⟨hs', ht'⟩ := putsAt_spec str (x + 1#16) y (hs.laid hl)
        refine ⟨hs.trans hs', fun a ha => ?_⟩
        rcases List.mem_append.mp ha with ha | ha
        · exact ht a ha
        · exact (a.inRange_congr hs.rows hs.columns).mp (ht' a ha)

theorem setScroll_laid (hl : Laid con) (start stop : Half) :
    Laid (vconSetScroll con start stop).con := by
  unfold vconSetScroll
  split
  · exact hl
  · next h =>
      simp only [ge_iff_le, BitVec.le_def, not_or, not_le] at h
      exact ⟨h.1, hl.fits, hl.apart⟩

/-- The size asked for is not larger than this one. -/
def ConCall.NotLarger (rows columns : Half) : ConCall → Prop
  | .resize rows' columns' _ => rows' ≤ rows ∧ columns' ≤ columns
  | _ => True

theorem resize_laid (hregion : con.scrollStart.toNat < con.scrollEnd.toNat)
    {rows columns rows' columns' : Half} {behind : Nat → VConChar}
    (hsize : rows.toNat * columns.toNat ≤ 65536) (hr : rows' ≤ rows) (hc : columns' ≤ columns) :
    Laid (vconResize con rows' columns' behind).con
    ∧ ∀ a ∈ (vconResize con rows' columns' behind).touched,
      a.InRange (vconResize con rows' columns' behind).con := by
  have hclamp : ∀ {v v' m : Half}, v' ≤ v → (if v' > m then m else v').toNat ≤ v.toNat := by
    intro v v' m hv
    rw [BitVec.le_def] at hv
    split
    · next hm =>
        rw [gt_iff_lt, BitVec.lt_def] at hm
        omega
    · exact hv
  refine ⟨initLineTable_laid hregion ?_, fun a ha => ?_⟩
  · exact (Nat.mul_le_mul (hclamp hr) (hclamp hc)).trans hsize
  · obtain ⟨i, hi, rfl⟩ := List.mem_map.mp ha
    exact List.mem_range.mp hi

/-- A steady call stays inside the tables and leaves the rows laid out. -/
theorem call_safe (hl : Laid con) {c : ConCall} {rows columns : Half}
    (hsize : rows.toNat * columns.toNat ≤ 65536) (hn : c.NotLarger rows columns)
    (h : Steady con c) :
    Laid (con.call c).con ∧ ∀ a ∈ (con.call c).touched, a.InRange (con.call c).con := by
  have hshuffled : ∀ {r : VConResult}, Shuffled con r.con → (∀ a ∈ r.touched, a.InRange con) →
      Laid r.con ∧ ∀ a ∈ r.touched, a.InRange r.con :=
    fun hs ht => ⟨hs.laid hl, fun a ha => (a.inRange_congr hs.rows hs.columns).mpr (ht a ha)⟩
  have hempty : ∀ {con : VCon}, ∀ a ∈ ([] : List Access), a.InRange con := by simp
  cases c with
  | putchar ch => exact hshuffled (putchar_spec hl h).1 (putchar_spec hl h).2
  | puts str => exact hshuffled (puts_spec str hl h).1 (puts_spec str hl h).2
  | putcharAt ch x y => exact hshuffled (putcharAt_spec hl ch x y).1 (putcharAt_spec hl ch x y).2
  | putsAt str x y => exact hshuffled (putsAt_spec str x y hl).1 (putsAt_spec str x y hl).2
  | setCursor x y =>
      simp only [VCon.call, vconSetCursor]
      split
      · exact ⟨hl, hempty⟩
      · exact ⟨⟨hl.region, hl.fits, hl.apart⟩, hempty⟩
  | setScroll start stop =>
      refine ⟨setScroll_laid hl start stop, ?_⟩
      simp only [VCon.call, vconSetScroll]
      split
      · exact hempty
      · exact hempty
  | scroll lines =>
      rcases h with rfl | hend
      · rcases scroll_cases hl.region 0#16 with ⟨hall, -⟩ | ⟨-, he⟩ | ⟨hpos, -⟩
        · have := hl.region
          simp only [BitVec.toNat_ofNat] at hall
          omega
        · simp only [VCon.call, he]
          exact ⟨hl, hempty⟩
        · cases hpos
      · exact hshuffled (scroll_shuffled hl hend lines) (scroll_touched hl hend lines)
  | clear =>
      refine ⟨clear_laid hl, ?_⟩
      exact clearLineTable_touched (Nat.zero_le _) (Nat.le_refl _)
  | clearScroll =>
      have hs : Shuffled con (vconBufClearLineTable con con.scrollStart con.scrollEnd).con :=
        clearLineTable_shuffled hl.region.le
      exact ⟨Shuffled.laid ⟨hs.rows, hs.columns, hs.scrollStart, hs.scrollEnd, hs.order⟩ hl,
        clearLineTable_touched hl.region.le h⟩
  | resize rows' columns' behind => exact resize_laid hl.region hsize hn.1 hn.2

/-- A console as its owner sets it up. -/
def newConsole (rows columns : Half) (lineTable : Nat → VConLine) (charTable : Nat → VConChar) :
    VCon :=
  (vconBufInitLineTable (vconInit rows columns lineTable charTable)).con

theorem newConsole_laid {rows columns : Half} {lineTable : Nat → VConLine}
    {charTable : Nat → VConChar} (hr : 1 ≤ rows.toNat)
    (hsize : rows.toNat * columns.toNat ≤ 65536) :
    Laid (newConsole rows columns lineTable charTable) :=
  initLineTable_laid hr hsize

/-- In every run of steady calls, each call uses only entries and cells of
the console. -/
theorem console_indices_safe {rows columns : Half} {lineTable : Nat → VConLine}
    {charTable : Nat → VConChar} {tr : List (VCon × ConCall)} (hr : 1 ≤ rows.toNat)
    (hsize : rows.toNat * columns.toNat ≤ 65536)
    (hrun : Steps conStep (newConsole rows columns lineTable charTable) tr con)
    (hn : ∀ x ∈ tr, x.2.NotLarger rows columns) (hsteady : ∀ x ∈ tr, Steady x.1 x.2) :
    ∀ x ∈ tr, ∀ a ∈ (x.1.call x.2).touched, a.InRange (x.1.call x.2).con := by
  suffices h : Laid con ∧ ∀ x ∈ tr, Laid x.1 by
    exact fun x hx => (call_safe (h.2 x hx) hsize (hn x hx) (hsteady x hx)).2
  induction hrun with
  | refl => exact ⟨newConsole_laid hr hsize, by simp⟩
  | @tail tr t t' c _ hst ih =>
      have hlast : (t, c) ∈ tr ++ [(t, c)] := List.mem_append_right _ (List.mem_singleton.mpr rfl)
      obtain ⟨ht, hall⟩ := ih (fun x hx => hn x (List.mem_append_left _ hx))
        fun x hx => hsteady x (List.mem_append_left _ hx)
      obtain rfl := Except.ok.inj hst
      refine ⟨(call_safe ht hsize (hn _ hlast) (hsteady _ hlast)).1, fun x hx => ?_⟩
      rcases List.mem_append.mp hx with hx | hx
      · exact hall x hx
      · obtain rfl := List.mem_singleton.mp hx
        exact ht

/-- A console of two rows and two columns. -/
def smallConsole : VCon := newConsole 2#16 2#16 (fun _ => ⟨0#16, 0#16⟩) fun _ => vconNullCell

/-- Two newlines take the cursor to the end of the region, and the next
character scrolls. -/
theorem console_indices_safe_scroll : ∃ con tr, Steps conStep smallConsole tr con
    ∧ tr.map Prod.snd = [.putchar 0xA#8, .putchar 0xA#8, .putchar 0x61#8]
    ∧ ∀ x ∈ tr, ∀ a ∈ (x.1.call x.2).touched, a.InRange (x.1.call x.2).con := by
  let con₁ := (smallConsole.call (.putchar 0xA#8)).con
  let con₂ := (con₁.call (.putchar 0xA#8)).con
  have hrun : Steps conStep smallConsole ([] ++ [(smallConsole, .putchar 0xA#8)]
      ++ [(con₁, .putchar 0xA#8)] ++ [(con₂, .putchar 0x61#8)]) (con₂.call (.putchar 0x61#8)).con :=
    .tail (.tail (.tail .refl rfl) rfl) rfl
  have h₀ : PutSafe smallConsole 0xA#8 := ⟨by decide, by decide, by decide⟩
  have h₁ : PutSafe con₁ 0xA#8 := ⟨by decide +kernel, by decide +kernel, by decide +kernel⟩
  have h₂ : PutSafe con₂ 0x61#8 := ⟨by decide +kernel, by decide +kernel, by decide +kernel⟩
  refine ⟨_, _, hrun, rfl, console_indices_safe (by decide) (by decide) hrun ?_ ?_⟩
  · simp [ConCall.NotLarger]
  · simpa using ⟨h₀, h₁, h₂⟩

/-- With a region of one row, a newline takes the cursor to its end; the
next character clears the region, and is put 65535 rows down. -/
theorem console_indices_unsafe : ∃ con tr, Steps conStep smallConsole tr con
    ∧ (∀ x ∈ tr, x.2.NotLarger 2#16 2#16)
    ∧ ∃ x ∈ tr, ∃ a ∈ (x.1.call x.2).touched, ¬a.InRange (x.1.call x.2).con := by
  let con₁ := (smallConsole.call (.setScroll 0#16 1#16)).con
  let con₂ := (con₁.call (.putchar 0xA#8)).con
  have hrun : Steps conStep smallConsole ([] ++ [(smallConsole, .setScroll 0#16 1#16)]
      ++ [(con₁, .putchar 0xA#8)] ++ [(con₂, .putchar 0x61#8)]) (con₂.call (.putchar 0x61#8)).con :=
    .tail (.tail (.tail .refl rfl) rfl) rfl
  have ha : Access.line 65535 ∈ (con₂.call (.putchar 0x61#8)).touched := by decide +kernel
  have hrows : (con₂.call (.putchar 0x61#8)).con.rows.toNat = 2 := by decide +kernel
  refine ⟨_, _, hrun, by simp [ConCall.NotLarger], (con₂, .putchar 0x61#8), by simp, _, ha, ?_⟩
  simp only [Access.InRange, hrows]
  decide

end SpKernel
