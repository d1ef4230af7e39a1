import SpKernel.ConsoleSafety

/-!
# Scrolling turns the region

`vcon_scroll` moves entries of the line table, not characters: the
entries of the first rows of the region go to its end, with no columns,
and the others move up. No place in the character table is lost or used
twice (`Shuffled.offsets_perm`), so rows that have characters of their
own keep them (`scroll_rotation`), however often the region is scrolled
(`scrolls_offsets`).

By as many rows as the region has, or more, it is cleared instead, and
then no entry moves (`clearScroll_emptied`). `Rotated` says which row
each row of the region shows in the first case, and that those at the end
are empty; `Emptied` says that all are.
-/

namespace SpKernel

open Lib

/-- The places of the rows in the character table. -/
def offsets (con : VCon) : List Half :=
  (List.range con.rows.toNat).map fun r => (con.lineTable r).offset

/-- The row is one of the scroll region. -/
def VCon.InScroll (con : VCon) (r : Nat) : Prop :=
  con.scrollStart.toNat ≤ r ∧ r < con.scrollEnd.toNat

instance (con : VCon) (r : Nat) : Decidable (con.InScroll r) :=
  inferInstanceAs (Decidable (_ ∧ _))

/-- The row has the characters and the length of the other. -/
structure ShowsRow (line former : VConLine) : Prop where
  offset : line.offset = former.offset
  columns : line.columns = former.columns

/-- What scrolling leaves as it is. -/
structure ScrollKeeps (con con' : VCon) : Prop where
  charTable : con'.charTable = con.charTable
  rows : con'.rows = con.rows
  scrollStart : con'.scrollStart = con.scrollStart
  scrollEnd : con'.scrollEnd = con.scrollEnd
  outside : ∀ r, ¬con.InScroll r → con'.lineTable r = con.lineTable r

/-- The rows of the region have moved up by `n`, and the last `n` are empty. -/
structure Rotated (con con' : VCon) (n : Nat) : Prop where
  moved : ∀ r, con.scrollStart.toNat ≤ r → r + n < con.scrollEnd.toNat →
    ShowsRow (con'.lineTable r) (con.lineTable (r + n))
  entered : ∀ r, con.scrollEnd.toNat - n ≤ r → r < con.scrollEnd.toNat →
    (con'.lineTable r).columns = 0
  dirty : ∀ r, con.InScroll r → (con'.lineTable r).dirty = true

/-- The rows of the region are empty. -/
structure Emptied (con con' : VCon) : Prop where
  columns : ∀ r, con.InScroll r → (con'.lineTable r).columns = 0
  dirty : ∀ r, con.InScroll r → (con'.lineTable r).dirty = true

variable {con con' : VCon}

/-! ## Places -/

/-- Rows that have changed their order have the places they had. -/
theorem Shuffled.offsets_perm (h : Shuffled con con') : (offsets con').Perm (offsets con) := by
  obtain ⟨σ, hinj, hlt, ho⟩ := h.order
  have hrange : ((List.range con.rows.toNat).map σ).Perm (List.range con.rows.toNat) := by
    refine (List.subperm_of_subset (List.nodup_range.map hinj) ?_).perm_of_length_le ?_
    · intro r hr
      obtain ⟨i, hi, rfl⟩ := List.mem_map.mp hr
      exact List.mem_range.mpr (hlt i (List.mem_range.mp hi))
    · rw [List.length_map]
  rw [offsets, offsets, h.rows]
  have hmap := hrange.map fun r => (con.lineTable r).offset
  rw [List.map_map] at hmap
  refine (List.Perm.of_eq ?_).trans hmap
  exact List.map_congr_left fun r _ => ho r

/-- However often the region is scrolled, the places are those it had. -/
theorem scrolls_offsets (ns : List Half) : ∀ {con : VCon},
    con.scrollStart.toNat < con.scrollEnd.toNat → con.scrollEnd.toNat ≤ con.rows.toNat →
    (offsets (ns.foldl (fun con n => (vconScroll con n).con) con)).Perm (offsets con) := by
  induction ns with
  | nil => exact fun _ _ => .refl _
  | cons n ns ih =>
      intro con hregion hrows
      have hturn := scroll_turns hregion hrows n
      rw [List.foldl_cons]
      refine (ih ?_ ?_).trans hturn.offsets_perm
      · rw [hturn.scrollStart, hturn.scrollEnd]
        exact hregion
      · rw [hturn.scrollEnd, hturn.rows]
        exact hrows

/-! ## Rows -/

/-- Clearing the region takes the columns of its rows, and nothing else. -/
theorem clearScroll_emptied (hregion : con.scrollStart.toNat < con.scrollEnd.toNat) :
    ScrollKeeps con (vconClearScroll con).con ∧ Emptied con (vconClearScroll con).con := by
  have hline : ∀ r, (vconClearScroll con).con.lineTable r
      = if con.InScroll r then ⟨(con.lineTable r).offset, flagDirty⟩ else con.lineTable r :=
    clearLineTable_line hregion.le
  refine ⟨⟨rfl, rfl, rfl, rfl, fun r hr => ?_⟩, ⟨fun r hr => ?_, fun r hr => ?_⟩⟩
  · rw [hline, if_neg hr]
  · rw [hline, if_pos hr]
    exact columns_dirty _
  · rw [hline, if_pos hr]
    exact dirty_alone _

/-- By fewer rows than the region has, the first rows go to its end. -/
theorem scroll_rotated {n : Half} (h0 : 0 < n.toNat)
    (h : con.scrollStart.toNat + n.toNat < con.scrollEnd.toNat) :
    Rotated con (vconScroll con n).con n.toNat := by
  refine ⟨fun r hr hn => ?_, fun r hr hn => ?_, fun r hr => ?_⟩
  · rw [scroll_line h0 h, if_pos ⟨hr, by omega⟩]
    exact ⟨rfl, columns_or_flags _ _ (by decide)⟩
  · rw [scroll_line h0 h, if_neg (by omega), if_pos ⟨hr, hn⟩]
    exact columns_dirty _
  · obtain ⟨hstart, hend⟩ := hr
    rw [scroll_line h0 h]
    by_cases hn : r < con.scrollEnd.toNat - n.toNat
    · rw [if_pos ⟨hstart, hn⟩]
      exact dirty_or _ _ (by decide)
    · rw [if_neg fun hup => hn hup.2, if_pos ⟨Nat.le_of_not_lt hn, hend⟩]
      exact dirty_alone _

theorem scroll_keeps (hregion : con.scrollStart.toNat < con.scrollEnd.toNat) (n : Half) :
    ScrollKeeps con (vconScroll con n).con := by
  rcases scroll_cases hregion n with ⟨-, he⟩ | ⟨-, he⟩ | ⟨h0, h, he, -⟩
  · rw [he]
    exact (clearScroll_emptied hregion).1
  · rw [he]
    exact ⟨rfl, rfl, rfl, rfl, fun _ _ => rfl⟩
  · refine ⟨by rw [he], by rw [he], by rw [he], by rw [he], fun r hr => ?_⟩
    have hout : ¬(con.scrollStart.toNat ≤ r ∧ r < con.scrollEnd.toNat) := hr
    rw [scroll_line h0 h, if_neg (by omega), if_neg (by omega)]

/-- Scrolling turns the rows of the region and empties those that come in;
the rows have the places they had, each one its own. -/
theorem scroll_rotation (hregion : con.scrollStart.toNat < con.scrollEnd.toNat)
    (hrows : con.scrollEnd.toNat ≤ con.rows.toNat) (hapart : (offsets con).Nodup) (n : Half) :
    ScrollKeeps con (vconScroll con n).con
    ∧ (0 < n.toNat → con.scrollStart.toNat + n.toNat < con.scrollEnd.toNat →
      Rotated con (vconScroll con n).con n.toNat)
    ∧ (con.scrollEnd.toNat ≤ con.scrollStart.toNat + n.toNat →
      Emptied con (vconScroll con n).con)
    ∧ (n = 0#16 → (vconScroll con n).con = con)
    ∧ (offsets (vconScroll con n).con).Perm (offsets con)
    ∧ (offsets (vconScroll con n).con).Nodup := by
  have hperm := (scroll_turns hregion hrows n).offsets_perm
  refine ⟨scroll_keeps hregion n, scroll_rotated, fun hall => ?_, ?_, hperm,
    hperm.nodup_iff.mpr hapart⟩
  · rcases scroll_cases hregion n with ⟨-, he⟩ | ⟨h0, -⟩ | ⟨-, h, -⟩
    · rw [he]
      exact (clearScroll_emptied hregion).2
    · omega
    · omega
  · rintro rfl
    rcases scroll_cases hregion 0#16 with ⟨hall, -⟩ | ⟨-, he⟩ | ⟨h0, -⟩
    · rw [BitVec.toNat_ofNat, Nat.zero_mod] at hall
      omega
    · rw [he]
    · cases h0

/-- Two rows scrolled by one: the second is the first now, and the first is
the second. -/
theorem scroll_rotation_small :
    Rotated smallConsole (vconScroll smallConsole 1#16).con 1
    ∧ offsets (vconScroll smallConsole 1#16).con = [2#16, 0#16] := by
  have hregion : smallConsole.scrollStart.toNat < smallConsole.scrollEnd.toNat := by decide
  have h := scroll_rotation hregion (by decide) (by decide +kernel) 1#16
  exact ⟨h.2.1 (by decide) (by decide), by decide +kernel⟩

end SpKernel
