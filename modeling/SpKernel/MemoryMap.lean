import SpKernel.Pages

/-!
# The memory map (`memory_map.c`)

At boot the BIOS leaves a list of memory regions. `disp_memory_map` finds
the highest address in them, and `setup_page_availibility_table` chooses
a place for the page availability table and marks the pages that must not
be handed out: those of the regions that are not free, the first
megabyte, everything above the highest address, and the table itself.

What is marked is found by sampling: a region is visited in steps of a
page from its first address, whether or not that is the start of a page.
What lies in no region at all is not visited. `setup_marks` says which
pages are marked, and `pages_sound_iff` for which maps that is enough.

The loops have one form, `markLoop`, with the test that ends them as a
parameter. `mark_spec` says what one marks: the pages of the addresses
that it comes to. `markEntries_spec` and `markUpper_spec` are those of
the regions and of the addresses above the highest one.

A region whose length is not a multiple of a page, or that starts within
one, has a last page that is not visited, and this is also how the table
loses its own last page. `pages_sound_iff` has as its condition what that
comes to on the map alone: that every page with a byte that is not free
has been visited. `pages_unsound_hole` is a map with a hole, which no
region describes.

That the loops end is a result of its own (`mark_iff`, `setup_returns`),
used in `MapLoops`.
-/

namespace SpKernel

open Lib

/-- `memory_map_entry`, read through its 32-bit fields. -/
structure MmEntry where
  baseL : Word
  baseH : Word
  lengthL : Word
  lengthH : Word
  type : Word
deriving DecidableEq

/-- The 64-bit field `length`. -/
def MmEntry.length (e : MmEntry) : Nat := 2 ^ 32 * e.lengthH.toNat + e.lengthL.toNat

abbrev freeType : Word := 1#32
abbrev mb : Word := 0x100000#32
abbrev maxMem : Word := 0xFFFFFFFF#32

/-- One round of `disp_memory_map`. -/
def raiseMax (maxAddress : Word) (e : MmEntry) : Word :=
  if 0 < e.baseH then maxAddress
  else
    let current := e.baseL + e.lengthL
    if maxAddress < current then current - 1 else maxAddress

/-- `disp_memory_map`: `max_address`, from the entries `map[1]` to
`map[mm_size]`. -/
def dispMemoryMap (map : List MmEntry) : Word := map.foldl raiseMax 0

/-- The table can be put at the start of this entry. -/
def MmEntry.fits (e : MmEntry) : Bool :=
  !decide (0 < e.baseH ∨ e.baseL < mb) && decide (patSize ≤ e.lengthL.toNat)

/-- The search for space: the first entry that is above the first
megabyte and large enough, or else `NULL`. -/
def tableSpace (map : List MmEntry) : Word :=
  match map.find? MmEntry.fits with
  | some e => e.baseL
  | none => 0

/-- `for( ; test( offset ); offset += PAGE_SIZE ) set_pat( base + offset, 0xFF );` -/
def markLoop (test : Word → Bool) (base : Word) : Nat → Word → MemMgr → Except Fault MemMgr
  | 0, _, _ => .error .diverge
  | fuel + 1, offset, mm =>
      if test offset then
        markLoop test base fuel (offset + 0x1000) (setPat mm (base + offset) 0xFF)
      else .ok mm

/-- The loop from 0. After `2 ^ 20` rounds the offset is 0 again. -/
def mark (test : Word → Bool) (base : Word) (mm : MemMgr) : Except Fault MemMgr :=
  markLoop test base (2 ^ 20 + 1) 0 mm

/-- Set the addresses of an entry as used, unless it is a legal section. -/
def markEntry (mm : MemMgr) (e : MmEntry) : Except Fault MemMgr :=
  if 0 < e.baseH ∨ e.type = freeType then .ok mm
  else mark (fun offset => decide (offset.toNat < e.length)) e.baseL mm

/-- Set from the top memory address to the end. -/
def markUpper (maxAddress : Word) (mm : MemMgr) : Except Fault MemMgr :=
  if maxAddress < maxMem - 0x1000 then
    mark (fun offset => decide (offset + maxAddress < maxMem)) (maxAddress + 1) mm
  else .error (.panic "Couldn't mark upper memory as used!")

/-- `setup_page_availibility_table`, with the address of the table. A
table at `NULL`, or one that comes to address 0 past the end of memory,
is cleared over the descriptor tables, the map and the kernel. -/
def setupPageAvailibilityTable (map : List MmEntry) (maxAddress : Word) (mm : MemMgr) :
    Except Fault (Word × MemMgr) :=
  let table := tableSpace map
  if table = 0 ∨ 2 ^ 32 < table.toNat + patSize then .error .null
  else do
    let mm := { mm with pat := fun _ => 0 }
    let mm ← map.foldlM markEntry mm
    let mm ← mark (fun offset => decide (offset < mb)) 0 mm
    let mm ← markUpper maxAddress mm
    let mm ← mark (fun offset => decide (offset.toNat < patSize)) table mm
    .ok (table, { mm with lastAvailible := 0 })

variable {map : List MmEntry} {mm mm' : MemMgr} {test : Word → Bool} {base table : Word} {i : Nat}

/-! ## The loops -/

/-- The offset of round `j`. -/
abbrev offsetOf (j : Nat) : Word := BitVec.ofNat 32 (4096 * j)

theorem offsetOf_succ (off : Word) (j : Nat) :
    off + 0x1000 + offsetOf j = off + offsetOf (j + 1) := by
  rw [offsetOf, offsetOf, Nat.mul_succ, BitVec.ofNat_add, BitVec.add_assoc,
    BitVec.add_comm (BitVec.ofNat 32 (4096 * j))]
  rfl

theorem toNat_offsetOf {j : Nat} (h : j < 2 ^ 20) : (offsetOf j).toNat = 4096 * j := by
  rw [offsetOf, BitVec.toNat_ofNat]
  omega

/-- A loop that ends has marked the pages it came to. -/
theorem markLoop_spec : ∀ (fuel : Nat) (off : Word) {mm : MemMgr},
    markLoop test base fuel off mm = .ok mm' → ∃ n < fuel, (∀ j < n, test (off + offsetOf j))
      ∧ ¬test (off + offsetOf n)
      ∧ ∀ i, patBit mm' i ↔ patBit mm i ∨ ∃ j < n, pageOf (base + (off + offsetOf j)) = i
  | 0, _, _, h => by cases h
  | fuel + 1, off, mm, h => by
      rw [markLoop] at h
      split at h
      · rename_i ht
        obtain ⟨n, hn, hall, hstop, hbits⟩ := markLoop_spec fuel _ h
        simp only [offsetOf_succ] at hall hstop hbits
        have hzero : off + offsetOf 0 = off := BitVec.add_zero off
        refine ⟨n + 1, Nat.succ_lt_succ hn, fun j hj => ?_, hstop, fun i => ?_⟩
        · cases j with
          | zero => rwa [hzero]
          | succ j => exact hall j (Nat.lt_of_succ_lt_succ hj)
        · rw [hbits, patBit_mark, Bool.or_eq_true, decide_eq_true_eq]
          constructor
          · rintro ((he | hi) | ⟨j, hj, he⟩)
            · exact .inr ⟨0, Nat.succ_pos n, by rw [hzero, he]⟩
            · exact .inl hi
            · exact .inr ⟨j + 1, Nat.succ_lt_succ hj, he⟩
          · rintro (hi | ⟨j, hj, he⟩)
            · exact .inl (.inr hi)
            · cases j with
              | zero => exact .inl (.inl (by rw [← he, hzero]))
              | succ j => exact .inr ⟨j, Nat.lt_of_succ_lt_succ hj, he⟩
      · rename_i ht
        obtain rfl := Except.ok.inj h
        refine ⟨0, Nat.succ_pos fuel, fun j hj => absurd hj (Nat.not_lt_zero j), ?_, fun i => ?_⟩
        · exact fun hc => ht (BitVec.add_zero off ▸ hc)
        · simp

theorem mark_spec (h : mark test base mm = .ok mm') : ∃ n ≤ 2 ^ 20, (∀ j < n, test (offsetOf j))
    ∧ ¬test (offsetOf n)
    ∧ ∀ i, patBit mm' i ↔ patBit mm i ∨ ∃ j < n, pageOf (base + offsetOf j) = i := by
  obtain ⟨n, hn, hall, hstop, hbits⟩ := markLoop_spec _ _ h
  simp only [zero_add] at hall hstop hbits
  exact ⟨n, Nat.lt_succ_iff.mp hn, hall, hstop, hbits⟩

theorem markLoop_ok : ∀ (fuel : Nat) (off : Word) (mm : MemMgr) {n : Nat}, n < fuel →
    ¬test (off + offsetOf n) → ∃ mm', markLoop test base fuel off mm = .ok mm'
  | 0, _, _, n, hn, _ => absurd hn (Nat.not_lt_zero n)
  | fuel + 1, off, mm, n, hn, hstop => by
      rw [markLoop]
      split
      · rename_i ht
        cases n with
        | zero => exact absurd ht (BitVec.add_zero off ▸ hstop)
        | succ n =>
            rw [← offsetOf_succ] at hstop
            exact markLoop_ok fuel _ _ (Nat.lt_of_succ_lt_succ hn) hstop
      · exact ⟨mm, rfl⟩

theorem mark_ok {n : Nat} (hn : n ≤ 2 ^ 20) (hstop : ¬test (offsetOf n)) (base : Word)
    (mm : MemMgr) : ∃ mm', mark test base mm = .ok mm' :=
  markLoop_ok _ _ mm (Nat.lt_succ_of_le hn) (by rwa [zero_add])

/-! ## What is marked -/

/-- The entry is not free and the loop over its addresses comes to page
`i`. -/
def MmEntry.Marks (e : MmEntry) (i : Nat) : Prop :=
  e.baseH = 0 ∧ e.type ≠ freeType
    ∧ ∃ j, 4096 * j < e.length ∧ pageOf (e.baseL + offsetOf j) = i

theorem baseH_pos (e : MmEntry) : 0 < e.baseH ↔ e.baseH ≠ 0 := by
  rw [BitVec.lt_def, ne_eq, ← BitVec.toNat_inj]
  exact Nat.pos_iff_ne_zero

theorem baseH_eq_zero {e : MmEntry} (hb : ¬0 < e.baseH) : e.baseH = 0 := by
  by_contra hc
  exact hb ((baseH_pos e).mpr hc)

theorem markEntry_spec {e : MmEntry} (h : markEntry mm e = .ok mm') (i : Nat) :
    patBit mm' i ↔ patBit mm i ∨ e.Marks i := by
  rw [markEntry] at h
  split at h
  · rename_i hskip
    have hno : ¬e.Marks i := fun hc => by
      rcases hskip with hb | ht
      · exact (baseH_pos e).mp hb hc.1
      · exact hc.2.1 ht
    rw [← Except.ok.inj h, or_iff_left hno]
  · rename_i hskip
    obtain ⟨hb, ht⟩ := not_or.mp hskip
    have hb := baseH_eq_zero hb
    obtain ⟨n, hn, hall, hstop, hbits⟩ := mark_spec h
    simp only [decide_eq_true_eq] at hall hstop
    -- a loop that would come back to offset 0 has not begun
    have hlt : n < 2 ^ 20 := by
      rcases Nat.lt_or_eq_of_le hn with hlt | rfl
      · exact hlt
      · exact absurd (hall 0 (by decide)) hstop
    rw [toNat_offsetOf hlt] at hstop
    rw [hbits]
    apply or_congr_right
    constructor
    · rintro ⟨j, hj, he⟩
      have := hall j hj
      rw [toNat_offsetOf (by omega)] at this
      exact ⟨hb, ht, j, this, he⟩
    · rintro ⟨-, -, j, hj, he⟩
      exact ⟨j, by omega, he⟩

theorem markEntries_spec : ∀ (map : List MmEntry) {mm : MemMgr},
    map.foldlM markEntry mm = .ok mm' → ∀ i, patBit mm' i ↔ patBit mm i ∨ ∃ e ∈ map, e.Marks i
  | [], mm, h, i => by
      rw [← Except.ok.inj h]
      simp
  | e :: map, mm, h, i => by
      rw [List.foldlM_cons] at h
      obtain ⟨mm₁, h₁, h⟩ := bind_eq_ok.mp h
      rw [markEntries_spec map h, markEntry_spec h₁, or_assoc]
      simp only [List.mem_cons, exists_eq_or_imp]

theorem mark_first {n : Nat} (hn : n < 2 ^ 20)
    (h : mark (fun offset => decide (offset.toNat < 4096 * n)) base mm = .ok mm') (i : Nat) :
    patBit mm' i ↔ patBit mm i ∨ ∃ j < n, pageOf (base + offsetOf j) = i := by
  obtain ⟨n', hn', hall, hstop, hbits⟩ := mark_spec h
  simp only [decide_eq_true_eq] at hall hstop
  have heq : n' = n := by
    have hle : n' ≤ n := by
      by_contra hc
      have := hall n (by omega)
      rw [toNat_offsetOf hn] at this
      omega
    rw [toNat_offsetOf (by omega)] at hstop
    omega
  rw [hbits, heq]

/-- The loop over upper memory ends only if the highest address is the
last of a page, and then it has marked all pages above. -/
theorem markUpper_spec {maxAddress : Word} (h : markUpper maxAddress mm = .ok mm') :
    maxAddress.toNat % 4096 = 4095 ∧ maxAddress.toNat < 0xFFFFEFFF
      ∧ ∀ i < 2 ^ 20, patBit mm' i ↔ patBit mm i ∨ maxAddress.toNat < 4096 * i := by
  rw [markUpper] at h
  split at h
  · rename_i hmax
    have hmax : maxAddress.toNat < 0xFFFFEFFF := hmax
    obtain ⟨n, hn, hall, hstop, hbits⟩ := mark_spec h
    have hsum : ∀ j, (offsetOf j + maxAddress).toNat
        = (4096 * j + maxAddress.toNat) % 2 ^ 32 := by
      intro j
      rw [BitVec.toNat_add, offsetOf, BitVec.toNat_ofNat, Nat.mod_add_mod]
    have htest : ∀ j, decide (offsetOf j + maxAddress < maxMem) = true
        ↔ (4096 * j + maxAddress.toNat) % 2 ^ 32 < 4294967295 := by
      intro j
      rw [decide_eq_true_eq, BitVec.lt_def, hsum]
      rfl
    simp only [htest] at hall hstop
    have hend : 4096 * n + maxAddress.toNat = 4294967295 := by
      by_contra hc
      have := hall (n - 1)
      omega
    refine ⟨by omega, hmax, fun i hi => ?_⟩
    rw [hbits]
    have hpage : ∀ j < n, pageOf (maxAddress + 1 + offsetOf j)
        = (maxAddress.toNat + 1) / 4096 + j := by
      intro j hj
      have hone : (1 : Word).toNat = 1 := rfl
      rw [pageOf, BitVec.toNat_add, BitVec.toNat_add, hone, toNat_offsetOf (by omega)]
      omega
    apply or_congr_right
    constructor
    · rintro ⟨j, hj, he⟩
      rw [hpage j hj] at he
      omega
    · intro hlt
      refine ⟨i - (maxAddress.toNat + 1) / 4096, by omega, ?_⟩
      rw [hpage _ (by omega)]
      omega
  · cases h

/-- The pages that are marked when the table has been set up. -/
theorem setup_marks {maxAddress : Word}
    (h : setupPageAvailibilityTable map maxAddress mm = .ok (table, mm')) :
    table = tableSpace map ∧ table ≠ 0 ∧ table.toNat + patSize ≤ 2 ^ 32
    ∧ maxAddress.toNat % 4096 = 4095
    ∧ ∀ i < 2 ^ 20, patBit mm' i ↔ (∃ e ∈ map, e.Marks i) ∨ i < 256
      ∨ maxAddress.toNat < 4096 * i ∨ pageOf table ≤ i ∧ i < pageOf table + 32 := by
  simp only [setupPageAvailibilityTable] at h
  split at h
  · cases h
  · rename_i hplace
    obtain ⟨hne, hend⟩ := not_or.mp hplace
    obtain ⟨mm₁, h₁, h⟩ := bind_eq_ok.mp h
    obtain ⟨mm₂, h₂, h⟩ := bind_eq_ok.mp h
    obtain ⟨mm₃, h₃, h⟩ := bind_eq_ok.mp h
    obtain ⟨mm₄, h₄, h⟩ := bind_eq_ok.mp h
    simp only [Except.ok.injEq, Prod.mk.injEq] at h
    obtain ⟨rfl, rfl⟩ := h
    have hmb : (fun offset : Word => decide (offset < mb))
        = fun offset => decide (offset.toNat < 4096 * 256) :=
      funext fun offset => decide_eq_decide.mpr Iff.rfl
    rw [hmb] at h₂
    obtain ⟨hmax, -, hupper⟩ := markUpper_spec h₃
    refine ⟨rfl, hne, Nat.le_of_not_lt hend, hmax, fun i hi => ?_⟩
    have hlow : (∃ j < 256, pageOf (0 + offsetOf j) = i) ↔ i < 256 := by
      have hpage : ∀ j < 256, pageOf (0 + offsetOf j) = j := by
        intro j hj
        rw [zero_add, pageOf, toNat_offsetOf (by omega)]
        omega
      constructor
      · rintro ⟨j, hj, he⟩
        rwa [← he, hpage j hj]
      · exact fun hi => ⟨i, hi, hpage i hi⟩
    have htab : (∃ j < 32, pageOf (tableSpace map + offsetOf j) = i)
        ↔ pageOf (tableSpace map) ≤ i ∧ i < pageOf (tableSpace map) + 32 := by
      have hpage : ∀ j < 32, pageOf (tableSpace map + offsetOf j)
          = pageOf (tableSpace map) + j := by
        intro j hj
        simp only [patSize] at hend
        rw [pageOf, BitVec.toNat_add, toNat_offsetOf (by omega), pageOf]
        omega
      constructor
      · rintro ⟨j, hj, he⟩
        rw [hpage j hj] at he
        omega
      · rintro ⟨h1, h2⟩
        refine ⟨i - pageOf (tableSpace map), by omega, ?_⟩
        rw [hpage _ (by omega)]
        omega
    have hzero : patBit { mm with pat := fun _ => 0 } i = false := BitVec.getLsbD_zero
    have h₄' : patBit mm₄ i ↔ _ := mark_first (n := 32) (by decide) h₄ i
    change patBit mm₄ i ↔ _
    rw [h₄', hupper i hi, mark_first (n := 256) (by decide) h₂, markEntries_spec map h₁, hlow, htab,
      hzero]
    simp only [Bool.false_eq_true, false_or, or_assoc]

/-! ## The highest address -/

/-- The end of an entry, as `disp_memory_map` computes it. -/
def MmEntry.stop (e : MmEntry) : Nat := (e.baseL + e.lengthL).toNat

theorem raiseMax_lt (maxAddress : Word) (e : MmEntry) (n : Nat) :
    n < (raiseMax maxAddress e).toNat ↔ n < maxAddress.toNat ∨ e.baseH = 0 ∧ n + 1 < e.stop := by
  rw [raiseMax]
  split
  · rename_i hb
    exact (or_iff_left fun hc => (baseH_pos e).mp hb hc.1).symm
  · rename_i hb
    have hb := baseH_eq_zero hb
    simp only [hb, true_and, MmEntry.stop]
    generalize e.baseL + e.lengthL = current
    split
    · rename_i hlt
      have hlt : maxAddress.toNat < current.toNat := hlt
      have hone : (1 : Word).toNat = 1 := rfl
      have hlt' := current.isLt
      rw [BitVec.toNat_sub, hone]
      omega
    · rename_i hlt
      have hle : ¬maxAddress.toNat < current.toNat := hlt
      omega

/-- Every address below the end of an entry is at or below the highest
address. -/
theorem lt_dispMemoryMap (map : List MmEntry) (n : Nat) :
    n < (dispMemoryMap map).toNat ↔ ∃ e ∈ map, e.baseH = 0 ∧ n + 1 < e.stop := by
  have hfold : ∀ (map : List MmEntry) (m : Word), n < (map.foldl raiseMax m).toNat
      ↔ n < m.toNat ∨ ∃ e ∈ map, e.baseH = 0 ∧ n + 1 < e.stop := by
    intro map
    induction map with
    | nil => simp
    | cons e map ih =>
        intro m
        rw [List.foldl_cons, ih, raiseMax_lt, or_assoc]
        simp only [List.mem_cons, exists_eq_or_imp]
  rw [dispMemoryMap, hfold]
  exact or_iff_right (Nat.not_lt_zero n)

/-! ## Which maps are enough -/

/-- The entry is free memory in the first four gigabytes. -/
def MmEntry.Free (e : MmEntry) : Prop := e.baseH = 0 ∧ e.type = freeType

/-- The `n` bytes from `a` on lie in the entry. -/
def MmEntry.Contains (e : MmEntry) (a n : Nat) : Prop :=
  e.baseL.toNat ≤ a ∧ a + n ≤ e.baseL.toNat + e.length

instance (e : MmEntry) : Decidable e.Free := inferInstanceAs (Decidable (_ ∧ _))

instance (e : MmEntry) (a n : Nat) : Decidable (e.Contains a n) :=
  inferInstanceAs (Decidable (_ ∧ _))

/-- Only good pages are left available, and the table is in free memory. -/
structure PagesSound (map : List MmEntry) (maxAddress table : Word) (mm : MemMgr) : Prop where
  free : ∀ i < 2 ^ 20, patBit mm i = false → ∃ e ∈ map, e.Free ∧ e.Contains (4096 * i) 4096
  above : ∀ i < 2 ^ 20, patBit mm i = false → mb.toNat ≤ 4096 * i
  below : ∀ i < 2 ^ 20, patBit mm i = false → 4096 * i + 4095 ≤ maxAddress.toNat
  apart : ∀ i < 2 ^ 20, patBit mm i = false →
    4096 * i + 4096 ≤ table.toNat ∨ table.toNat + patSize ≤ 4096 * i
  table : ∃ e ∈ map, e.Free ∧ e.Contains table.toNat patSize

/-- The first entry `t` that is large enough for the table has its start
in free memory, no part of the table is on a page of its own that the
marking does not come to, and the map has no holes: every page from the
first megabyte to the highest end of an entry is inside a free entry,
belongs to the table, or is one that the marking comes to. -/
structure WholeMap (map : List MmEntry) (t : MmEntry) : Prop where
  table : ∃ e ∈ map, e.Free ∧ e.Contains t.baseL.toNat patSize
  tail : PageAligned t.baseL ∨ (∃ e ∈ map, e.Marks (pageOf t.baseL + 32))
    ∨ ∀ e ∈ map, e.baseH = 0 → e.stop ≤ 4096 * (pageOf t.baseL + 32)
  whole : ∀ i, 256 ≤ i → (∃ e ∈ map, e.baseH = 0 ∧ 4096 * i < e.stop) →
    (i < pageOf t.baseL ∨ pageOf t.baseL + 32 ≤ i) → (∀ e ∈ map, ¬e.Marks i) →
    ∃ e ∈ map, e.Free ∧ e.Contains (4096 * i) 4096

theorem fits_of_tableSpace (h : tableSpace map ≠ 0) :
    ∃ t, map.find? MmEntry.fits = some t ∧ tableSpace map = t.baseL := by
  rw [tableSpace] at h ⊢
  split at h
  · rename_i t ht
    exact ⟨t, ht, rfl⟩
  · exact absurd rfl h

theorem MmEntry.fits_base {t : MmEntry} (h : t.fits = true) : 256 ≤ pageOf t.baseL := by
  rw [MmEntry.fits, Bool.and_eq_true, Bool.not_eq_true', decide_eq_false_iff_not] at h
  have hlt : ¬t.baseL.toNat < 0x100000 := fun hc => h.1 (.inr hc)
  rw [pageOf]
  omega

/-- The pages that are left available when the table has been set up. -/
theorem setup_available
    (h : setupPageAvailibilityTable map (dispMemoryMap map) mm = .ok (table, mm')) :
    ∃ t, map.find? MmEntry.fits = some t ∧ table = t.baseL ∧ 256 ≤ pageOf t.baseL
    ∧ (dispMemoryMap map).toNat % 4096 = 4095
    ∧ ∀ i < 2 ^ 20, patBit mm' i = false ↔ (∀ e ∈ map, ¬e.Marks i) ∧ 256 ≤ i
      ∧ 4096 * i ≤ (dispMemoryMap map).toNat ∧ (i < pageOf t.baseL ∨ pageOf t.baseL + 32 ≤ i) := by
  obtain ⟨htab, hne, -, hmod, hbits⟩ := setup_marks h
  obtain ⟨t, ht, hbase⟩ := fits_of_tableSpace (htab ▸ hne)
  have htab : table = t.baseL := htab.trans hbase
  subst htab
  refine ⟨t, ht, rfl, MmEntry.fits_base (List.find?_some ht), hmod, fun i hi => ?_⟩
  rw [← Bool.not_eq_true, hbits i hi]
  push Not
  refine and_congr_right fun _ => and_congr_right fun _ => and_congr_right fun _ => ?_
  omega

/-- A page is below the highest address as soon as its first byte is
below an end. -/
theorem le_dispMemoryMap (map : List MmEntry) {i : Nat} (hi : 0 < i) :
    4096 * i ≤ (dispMemoryMap map).toNat ↔ ∃ e ∈ map, e.baseH = 0 ∧ 4096 * i < e.stop := by
  have hlt := lt_dispMemoryMap map (4096 * i - 1)
  rw [Nat.sub_add_cancel (by omega)] at hlt
  rw [← hlt]
  omega

/-- When the table has been set up, everything is in order exactly if the
map accounts for every page and for the place of the table. -/
theorem pages_sound_iff
    (h : setupPageAvailibilityTable map (dispMemoryMap map) mm = .ok (table, mm')) :
    PagesSound map (dispMemoryMap map) table mm'
      ↔ ∃ t, map.find? MmEntry.fits = some t ∧ WholeMap map t := by
  obtain ⟨t, ht, rfl, hlow, hmod, hfree⟩ := setup_available h
  have hmax := (dispMemoryMap map).isLt
  have hpage : 4096 * pageOf t.baseL ≤ t.baseL.toNat
      ∧ t.baseL.toNat < 4096 * pageOf t.baseL + 4096 := by
    rw [pageOf]
    omega
  constructor
  · intro hs
    refine ⟨t, ht, hs.table, ?_, fun i h1 h2 h3 h4 => ?_⟩
    · by_contra hc
      push Not at hc
      obtain ⟨h1, h2, h3⟩ := hc
      have hle := (le_dispMemoryMap map (by omega)).mpr h3
      have hlt : pageOf t.baseL + 32 < 2 ^ 20 := by omega
      have := hs.apart _ hlt ((hfree _ hlt).mpr ⟨h2, by omega, hle, .inr (Nat.le_refl _)⟩)
      rw [PageAligned] at h1
      simp only [patSize] at this
      omega
    · have hle := (le_dispMemoryMap map (by omega)).mpr h2
      have hlt : i < 2 ^ 20 := by omega
      exact hs.free i hlt ((hfree i hlt).mpr ⟨h4, h1, hle, h3⟩)
  · rintro ⟨t', ht', hw⟩
    obtain rfl := Option.some.inj (ht.symm.trans ht')
    refine ⟨fun i hi hb => ?_, fun i hi hb => ?_, fun i hi hb => ?_, fun i hi hb => ?_, hw.table⟩
    all_goals obtain ⟨h1, h2, h3, h4⟩ := (hfree i hi).mp hb
    · exact hw.whole i h2 ((le_dispMemoryMap map (by omega)).mp h3) h4 h1
    · change 0x100000 ≤ _
      omega
    · omega
    · simp only [patSize]
      rcases h4 with h4 | h4
      · exact .inl (by omega)
      · refine .inr ?_
        -- the page behind the table is left available only if the table ends before it
        by_cases he : i = pageOf t.baseL + 32
        · rcases hw.tail with ha | ⟨e, hm, hma⟩ | hstop
          · rw [PageAligned] at ha
            omega
          · exact absurd (he ▸ hma) (h1 e hm)
          · obtain ⟨e, hm, hb0, hlt⟩ := (le_dispMemoryMap map (by omega)).mp h3
            have := hstop e hm hb0
            rw [he] at hlt
            omega
        · omega

/-! ## Loops that end -/

/-- A loop over addresses ends exactly if its test fails for some multiple
of the page size. -/
theorem mark_iff : (∃ mm', mark test base mm = .ok mm') ↔ ∃ n < 2 ^ 20, ¬test (offsetOf n) := by
  constructor
  · rintro ⟨mm', h⟩
    obtain ⟨n, hn, hall, hstop, -⟩ := mark_spec h
    rcases Nat.lt_or_eq_of_le hn with hlt | rfl
    · exact ⟨n, hlt, hstop⟩
    · exact absurd (hall 0 (by decide)) hstop
  · rintro ⟨n, hn, hstop⟩
    exact mark_ok hn.le hstop base mm

theorem markEntry_iff (mm : MemMgr) {e : MmEntry} : (∃ mm', markEntry mm e = .ok mm')
    ↔ (e.baseH = 0 → e.type ≠ freeType → e.length ≤ 0xFFFFF000) := by
  unfold markEntry
  split
  · rename_i hskip
    refine iff_of_true ⟨mm, rfl⟩ fun hb ht => ?_
    rcases hskip with hc | hc
    · exact absurd hb ((baseH_pos e).mp hc)
    · exact absurd hc ht
  · rename_i hskip
    obtain ⟨hb, ht⟩ := not_or.mp hskip
    have hb := baseH_eq_zero hb
    rw [mark_iff]
    simp only [decide_eq_true_eq, hb, true_implies]
    constructor
    · rintro ⟨n, hn, hstop⟩ -
      rw [toNat_offsetOf hn] at hstop
      omega
    · intro hle
      refine ⟨2 ^ 20 - 1, by decide, ?_⟩
      have := hle ht
      rw [toNat_offsetOf (by decide)]
      omega

theorem markEntries_iff : ∀ {es : List MmEntry} (mm : MemMgr),
    (∃ mm', es.foldlM markEntry mm = .ok mm')
      ↔ ∀ e ∈ es, e.baseH = 0 → e.type ≠ freeType → e.length ≤ 0xFFFFF000
  | [], mm => iff_of_true ⟨mm, rfl⟩ fun e he => absurd he List.not_mem_nil
  | e :: es, mm => by
      rw [List.forall_mem_cons, ← markEntry_iff mm]
      constructor
      · rintro ⟨mm', h⟩
        obtain ⟨mm₁, h₁, h⟩ := bind_eq_ok.mp h
        exact ⟨⟨mm₁, h₁⟩, (markEntries_iff mm₁).mp ⟨mm', h⟩⟩
      · rintro ⟨⟨mm₁, h₁⟩, hes⟩
        obtain ⟨mm', h⟩ := (markEntries_iff mm₁).mpr hes
        exact ⟨mm', by rw [List.foldlM_cons, h₁, ok_bind, h]⟩

/-- Above a highest address that is the last of a page the loop ends. -/
theorem markUpper_ok {maxAddress : Word} (hmod : maxAddress.toNat % 4096 = 4095)
    (hmax : maxAddress.toNat < 0xFFFFEFFF) (mm : MemMgr) :
    ∃ mm', markUpper maxAddress mm = .ok mm' := by
  have hlt : maxAddress < maxMem - 0x1000 := hmax
  rw [markUpper, if_pos hlt, mark_iff]
  refine ⟨(0xFFFFFFFF - maxAddress.toNat) / 4096, by omega, ?_⟩
  have hsum : (offsetOf ((0xFFFFFFFF - maxAddress.toNat) / 4096) + maxAddress).toNat
      = 0xFFFFFFFF := by
    rw [BitVec.toNat_add, toNat_offsetOf (by omega)]
    omega
  rw [decide_eq_true_eq, BitVec.lt_def, hsum]
  decide

/-- No loop runs for ever if the reserved entries are smaller than the
address space and the highest address is the last of a page. -/
theorem setup_returns (mm : MemMgr)
    (hlen : ∀ e ∈ map, e.baseH = 0 → e.type ≠ freeType → e.length ≤ 0xFFFFF000)
    (hne : tableSpace map ≠ 0) (hend : (tableSpace map).toNat + patSize ≤ 2 ^ 32)
    {maxAddress : Word} (hmod : maxAddress.toNat % 4096 = 4095)
    (hmax : maxAddress.toNat < 0xFFFFEFFF) :
    ∃ mm', setupPageAvailibilityTable map maxAddress mm = .ok (tableSpace map, mm') := by
  obtain ⟨mm₁, h₁⟩ := (markEntries_iff { mm with pat := fun _ => 0 }).mpr hlen
  obtain ⟨mm₂, h₂⟩ : ∃ mm', mark (fun offset => decide (offset < mb)) 0 mm₁ = .ok mm' :=
    mark_iff.mpr ⟨256, by decide, by decide⟩
  obtain ⟨mm₃, h₃⟩ := markUpper_ok hmod hmax mm₂
  obtain ⟨mm₄, h₄⟩ : ∃ mm', mark (fun offset => decide (offset.toNat < patSize))
      (tableSpace map) mm₃ = .ok mm' :=
    mark_iff.mpr ⟨32, by decide, by decide⟩
  have hplace : ¬(tableSpace map = 0 ∨ 2 ^ 32 < (tableSpace map).toNat + patSize) :=
    not_or.mpr ⟨hne, Nat.not_lt.mpr hend⟩
  refine ⟨{ mm₄ with lastAvailible := 0 }, ?_⟩
  simp only [setupPageAvailibilityTable, hplace, ↓reduceIte, h₁, h₂, h₃, h₄, ok_bind]

/-- Eight megabytes, with a reserved region below the first megabyte. -/
def smallMap : List MmEntry :=
  [⟨0, 0, 0x9F000, 0, 1⟩, ⟨0x9F000, 0, 0x61000, 0, 2⟩, ⟨0x100000, 0, 0x700000, 0, 1⟩]

theorem pages_sound_small : ∃ mm', setupPageAvailibilityTable smallMap (dispMemoryMap smallMap)
      lowPageUsed = .ok (0x100000, mm')
    ∧ PagesSound smallMap (dispMemoryMap smallMap) 0x100000 mm' := by
  obtain ⟨mm', h⟩ : ∃ mm', setupPageAvailibilityTable smallMap (dispMemoryMap smallMap) lowPageUsed
      = .ok (tableSpace smallMap, mm') :=
    setup_returns lowPageUsed (by decide) (by decide) (by decide) (by decide) (by decide)
  refine ⟨mm', h, (pages_sound_iff h).mpr ⟨_, rfl, ?_, .inl (by decide), ?_⟩⟩
  · exact ⟨⟨0x100000, 0, 0x700000, 0, 1⟩, by decide, by decide, by decide⟩
  · rintro i h1 ⟨e, he, -, hlt⟩ - -
    refine ⟨⟨0x100000, 0, 0x700000, 0, 1⟩, by decide, by decide, ?_⟩
    have hstop : ∀ e ∈ smallMap, e.stop ≤ 0x800000 := by decide
    have := hstop e he
    refine ⟨?_, ?_⟩
    · change 0x100000 ≤ _
      omega
    · change _ ≤ 0x100000 + 0x700000
      omega

/-- A map with a hole: nothing is known about the third megabyte. -/
def holeMap : List MmEntry := [⟨0x100000, 0, 0x100000, 0, 1⟩, ⟨0x300000, 0, 0x100000, 0, 1⟩]

/-- The pages of the hole are left available. -/
theorem pages_unsound_hole : ∃ mm', setupPageAvailibilityTable holeMap (dispMemoryMap holeMap)
      lowPageUsed = .ok (0x100000, mm')
    ∧ patBit mm' 0x200 = false ∧ ¬PagesSound holeMap (dispMemoryMap holeMap) 0x100000 mm' := by
  obtain ⟨mm', h⟩ : ∃ mm', setupPageAvailibilityTable holeMap (dispMemoryMap holeMap) lowPageUsed
      = .ok (tableSpace holeMap, mm') :=
    setup_returns lowPageUsed (by decide) (by decide) (by decide) (by decide) (by decide)
  obtain ⟨t, ht, -, -, -, hfree⟩ := setup_available h
  obtain rfl : ⟨0x100000, 0, 0x100000, 0, 1⟩ = t := Option.some.inj ht
  have hb : patBit mm' 0x200 = false := by
    refine (hfree 0x200 (by decide)).mpr ⟨?_, by decide, by decide, by decide⟩
    have hall : ∀ e ∈ holeMap, e.type = freeType := by decide
    exact fun e he hm => hm.2.1 (hall e he)
  refine ⟨mm', h, hb, fun hs => ?_⟩
  obtain ⟨e, he, -, hc⟩ := hs.free 0x200 (by decide) hb
  have hno : ∀ e ∈ holeMap, ¬e.Contains (4096 * 0x200) 4096 := by decide
  exact hno e he hc

end SpKernel
