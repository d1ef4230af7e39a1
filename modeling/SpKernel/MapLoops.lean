import SpKernel.MemoryMap

/-!
# Do the loops over the memory map end?

`disp_memory_map` and `setup_page_availibility_table` count entries and
step addresses in 32 bits, and both counters can come round. A loop over
the entries ends unless the count is the largest one (`forEntries_eq`,
`forEntries_endless`). A loop over addresses ends if some multiple of the
page size fails its test (`mark_iff`): for a reserved entry that is a
question of its length, for the loop above the highest address one of its
last twelve bits, since `offset + max_address` is never greater than
`MAX_MEM` and reaches it or jumps over.

In `MemoryMap` the count is the length of the list of entries. Here the
loops are those of the source, over a table in memory and a count that
need not be that of the table, and they are run with fuel: `Terminates`
says that the run returns or ends in the panic about upper memory, and a
loop that has no end does neither (`not_terminates_diverge`).

`memory_init_terminates_iff` puts the conditions together (`LoopsEnd`):
the count, the lengths of the reserved entries, the last bits of the
highest address, and that the table has a place. `memory_init_endless` is
a map with one entry whose highest address is in the middle of a page, so
that the loop above it steps over `MAX_MEM`.
-/

namespace SpKernel

open Lib

/-! ## Definitions -/

/-- `for( uint32_t ii = 1; ii <= mm_size; ++ii ) body( map[ii] )`, from `ii`
on. After `2 ^ 32` rounds `ii` has had every value. -/
def forEntries {σ : Type} (map : Word → MmEntry) (mmSize : Word)
    (body : σ → MmEntry → Except Fault σ) : Nat → Word → σ → Except Fault σ
  | 0, _, _ => .error .diverge
  | fuel + 1, ii, s =>
      if ii ≤ mmSize then do
        let s ← body s (map ii)
        forEntries map mmSize body fuel (ii + 1) s
      else .ok s

/-- The entries `map[1]` to `map[mm_size]`. -/
def entriesOf (map : Word → MmEntry) (mmSize : Word) : List MmEntry :=
  (List.range' 1 mmSize.toNat).map fun n => map (BitVec.ofNat 32 n)

/-- `disp_memory_map`: one loop prints the entries, one finds the highest
address. -/
def dispLoops (map : Word → MmEntry) (mmSize : Word) : Except Fault Word := do
  forEntries map mmSize (fun _ _ => .ok ()) (2 ^ 32) 1 ()
  forEntries map mmSize (fun maxAddress e => .ok (raiseMax maxAddress e)) (2 ^ 32) 1 0

/-- `disp_memory_map` and then `setup_page_availibility_table`. -/
def memoryInit (map : Word → MmEntry) (mmSize : Word) (mm : MemMgr) :
    Except Fault (Word × MemMgr) := do
  let maxAddress ← dispLoops map mmSize
  setupPageAvailibilityTable (entriesOf map mmSize) maxAddress mm

/-- The run ends normally or in the panic. -/
def Terminates {α : Type} (x : Except Fault α) : Prop :=
  (∃ r, x = .ok r) ∨ x = .error (.panic "Couldn't mark upper memory as used!")

/-- The last address of an entry, as `disp_memory_map` takes it: 0 if the
end is address 0. -/
def MmEntry.lastAddress (e : MmEntry) : Nat := (e.baseL + e.lengthL).toNat - 1

/-- The highest last address in the first four gigabytes, 0 if there is
none. -/
def highest (es : List MmEntry) : Nat :=
  ((es.filter fun e => decide (e.baseH = 0)).map MmEntry.lastAddress).foldr max 0

/-- The count is not the largest one; some entry above the first megabyte is
as large as the table, and the first such leaves room for it below the end
of memory; no reserved entry is larger than the last multiple of the page
size; and the highest address is the last of a page, or so high that the
panic comes before the loop. -/
structure LoopsEnd (map : Word → MmEntry) (mmSize : Word) : Prop where
  count : mmSize ≠ 0xFFFFFFFF
  table : ∃ e, (entriesOf map mmSize).find? MmEntry.fits = some e
    ∧ e.baseL.toNat + patSize ≤ 2 ^ 32
  reserved : ∀ e ∈ entriesOf map mmSize, e.baseH = 0 → e.type ≠ freeType →
    e.length ≤ 0xFFFFF000
  upper : highest (entriesOf map mmSize) % 4096 = 4095
    ∨ 0xFFFFEFFF ≤ highest (entriesOf map mmSize)

/-! ## Loops over the entries -/

section Entries

variable {σ : Type} {map : Word → MmEntry} {mmSize : Word}

/-- With the largest count the loop goes on as long as its body does. -/
theorem forEntries_endless (map : Word → MmEntry) {body : σ → MmEntry → Except Fault σ}
    (hbody : ∀ s e, ∃ s', body s e = .ok s') : ∀ (fuel : Nat) (ii : Word) (s : σ),
    forEntries map 0xFFFFFFFF body fuel ii s = .error .diverge := by
  intro fuel
  induction fuel with
  | zero => exact fun _ _ => rfl
  | succ fuel ih =>
      intro ii s
      have hle : ii ≤ 0xFFFFFFFF := Nat.le_of_lt_succ ii.isLt
      obtain ⟨s', hs'⟩ := hbody s (map ii)
      rw [forEntries, if_pos hle, hs', ok_bind, ih]

/-- With any other count the loop visits the entries once. -/
theorem forEntries_eq (map : Word → MmEntry) (hsize : mmSize ≠ 0xFFFFFFFF)
    (body : σ → MmEntry → Except Fault σ) (s : σ) :
    forEntries map mmSize body (2 ^ 32) 1 s = (entriesOf map mmSize).foldlM body s := by
  have hlt : mmSize.toNat < 0xFFFFFFFF := by
    have hne : mmSize.toNat ≠ 0xFFFFFFFF := fun he => hsize (BitVec.eq_of_toNat_eq he)
    have := mmSize.isLt
    omega
  have hloop : ∀ (n i fuel : Nat) (s : σ), i + n = mmSize.toNat + 1 → n < fuel →
      forEntries map mmSize body fuel (BitVec.ofNat 32 i) s
        = ((List.range' i n).map fun n => map (BitVec.ofNat 32 n)).foldlM body s := by
    intro n
    induction n with
    | zero =>
        intro i fuel s hi hf
        obtain ⟨fuel, rfl⟩ : ∃ f, fuel = f + 1 := ⟨fuel - 1, by omega⟩
        have hstop : ¬BitVec.ofNat 32 i ≤ mmSize := by
          rw [BitVec.le_def, BitVec.toNat_ofNat]
          omega
        rw [forEntries, if_neg hstop]
        rfl
    | succ n ih =>
        intro i fuel s hi hf
        obtain ⟨fuel, rfl⟩ : ∃ f, fuel = f + 1 := ⟨fuel - 1, by omega⟩
        have hgo : BitVec.ofNat 32 i ≤ mmSize := by
          rw [BitVec.le_def, BitVec.toNat_ofNat]
          omega
        have hnext : BitVec.ofNat 32 i + 1 = BitVec.ofNat 32 (i + 1) :=
          (BitVec.ofNat_add i 1).symm
        rw [forEntries, if_pos hgo, List.range'_succ, List.map_cons, List.foldlM_cons, hnext]
        cases body s (map (BitVec.ofNat 32 i)) with
        | error f => rfl
        | ok s' => exact ih (i + 1) fuel s' (by omega) (by omega)
  exact hloop mmSize.toNat 1 (2 ^ 32) s (Nat.add_comm ..) (by omega)

theorem foldlM_ok (f : σ → MmEntry → σ) : ∀ (es : List MmEntry) (s : σ),
    es.foldlM (fun s e => (.ok (f s e) : Except Fault σ)) s = .ok (es.foldl f s)
  | [], _ => rfl
  | e :: es, s => by rw [List.foldlM_cons, ok_bind, foldlM_ok f es, List.foldl_cons]

theorem dispLoops_eq (hsize : mmSize ≠ 0xFFFFFFFF) :
    dispLoops map mmSize = .ok (dispMemoryMap (entriesOf map mmSize)) := by
  have hprint := forEntries_eq map hsize (fun (_ : Unit) _ => .ok ()) ()
  have hraise := forEntries_eq map hsize (fun m e => .ok (raiseMax m e)) 0
  rw [foldlM_ok] at hprint hraise
  rw [dispLoops, hprint, ok_bind, hraise]
  rfl

end Entries

/-! ## Loops over addresses -/

section Addresses

variable {mm : MemMgr} {test : Word → Bool} {base : Word} {f : Fault}

theorem markLoop_error : ∀ (fuel : Nat) (off : Word) {mm : MemMgr},
    markLoop test base fuel off mm = .error f → f = .diverge
  | 0, _, _, h => (Except.error.inj h).symm
  | fuel + 1, off, mm, h => by
      rw [markLoop] at h
      split at h
      · exact markLoop_error fuel _ h
      · cases h

theorem markEntry_error {e : MmEntry} (h : markEntry mm e = .error f) : f = .diverge := by
  rw [markEntry] at h
  split at h
  · cases h
  · exact markLoop_error _ _ h

theorem markEntries_error : ∀ {es : List MmEntry} {mm : MemMgr},
    es.foldlM markEntry mm = .error f → f = .diverge
  | [], mm, h => by cases h
  | e :: es, mm, h => by
      rw [List.foldlM_cons] at h
      cases h₁ : markEntry mm e with
      | error f₁ =>
          rw [h₁] at h
          obtain rfl := Except.error.inj h
          exact markEntry_error h₁
      | ok mm₁ =>
          rw [h₁] at h
          exact markEntries_error h

/-- Above the highest address the loop ends, or is not begun, exactly if
that address is the last of a page, or too high. -/
theorem markUpper_iff (mm : MemMgr) {maxAddress : Word} : Terminates (markUpper maxAddress mm)
    ↔ maxAddress.toNat % 4096 = 4095 ∨ 0xFFFFEFFF ≤ maxAddress.toNat := by
  by_cases hmax : maxAddress < maxMem - 0x1000
  · have hlt : maxAddress.toNat < 0xFFFFEFFF := hmax
    rw [or_iff_left (by omega)]
    constructor
    · rintro (⟨mm', h⟩ | h)
      · exact (markUpper_spec h).1
      · rw [markUpper, if_pos hmax] at h
        cases markLoop_error _ _ h
    · exact fun hmod => .inl (markUpper_ok hmod hlt mm)
  · have hge : 0xFFFFEFFF ≤ maxAddress.toNat := Nat.le_of_not_lt hmax
    refine iff_of_true (.inr ?_) (.inr hge)
    rw [markUpper, if_neg hmax]

end Addresses

/-! ## The highest address and the place of the table -/

theorem lt_foldr_max {n : Nat} {l : List Nat} : n < l.foldr max 0 ↔ ∃ x ∈ l, n < x := by
  induction l with
  | nil => simp
  | cons x l ih => simp only [List.foldr_cons, lt_max_iff, ih, List.exists_mem_cons_iff]

theorem dispMemoryMap_eq (es : List MmEntry) : (dispMemoryMap es).toNat = highest es := by
  refine eq_of_forall_lt_iff fun n => ?_
  rw [lt_dispMemoryMap, highest, lt_foldr_max]
  simp only [List.mem_map, List.mem_filter, decide_eq_true_eq]
  constructor
  · rintro ⟨e, he, hb, hn⟩
    refine ⟨e.lastAddress, ⟨e, ⟨he, hb⟩, rfl⟩, ?_⟩
    rw [MmEntry.stop] at hn
    rw [MmEntry.lastAddress]
    omega
  · rintro ⟨_, ⟨e, ⟨he, hb⟩, rfl⟩, hn⟩
    refine ⟨e, he, hb, ?_⟩
    rw [MmEntry.lastAddress] at hn
    rw [MmEntry.stop]
    omega

theorem table_iff {es : List MmEntry} :
    (∃ e, es.find? MmEntry.fits = some e ∧ e.baseL.toNat + patSize ≤ 2 ^ 32)
      ↔ tableSpace es ≠ 0 ∧ (tableSpace es).toNat + patSize ≤ 2 ^ 32 := by
  rw [tableSpace]
  cases hfind : es.find? MmEntry.fits with
  | none => simp
  | some e =>
      have hlow := MmEntry.fits_base (List.find?_some hfind)
      have hne : e.baseL ≠ 0 := by
        intro he
        rw [he, pageOf] at hlow
        exact absurd hlow (by decide)
      simp only [Option.some.injEq, exists_eq_left']
      exact (and_iff_right hne).symm

/-! ## Whole runs -/

section Runs

variable {map : Word → MmEntry} {mmSize : Word} {es : List MmEntry} {mm : MemMgr}

theorem not_terminates_diverge {α : Type} : ¬Terminates (.error .diverge : Except Fault α) := by
  rintro (⟨r, h⟩ | h)
  · cases h
  · cases h

theorem setup_terminates_iff {maxAddress : Word} :
    Terminates (setupPageAvailibilityTable es maxAddress mm)
    ↔ (tableSpace es ≠ 0 ∧ (tableSpace es).toNat + patSize ≤ 2 ^ 32)
      ∧ (∀ e ∈ es, e.baseH = 0 → e.type ≠ freeType → e.length ≤ 0xFFFFF000)
      ∧ (maxAddress.toNat % 4096 = 4095 ∨ 0xFFFFEFFF ≤ maxAddress.toNat) := by
  simp only [setupPageAvailibilityTable]
  by_cases hplace : tableSpace es = 0 ∨ 2 ^ 32 < (tableSpace es).toNat + patSize
  · rw [if_pos hplace]
    refine iff_of_false ?_ fun hc => ?_
    · rintro (⟨r, h⟩ | h)
      · cases h
      · cases h
    · rcases hplace with he | hlt
      · exact hc.1.1 he
      · exact Nat.not_lt.mpr hc.1.2 hlt
  rw [if_neg hplace]
  obtain ⟨hne, hend⟩ := not_or.mp hplace
  rw [and_iff_right ⟨hne, Nat.le_of_not_lt hend⟩,
    ← markEntries_iff { mm with pat := fun _ => 0 }]
  cases h₁ : es.foldlM markEntry { mm with pat := fun _ => 0 } with
  | error f =>
      obtain rfl := markEntries_error h₁
      refine iff_of_false not_terminates_diverge fun hc => ?_
      obtain ⟨mm₁, hc⟩ := hc.1
      cases hc
  | ok mm₁ =>
      rw [and_iff_right ⟨mm₁, rfl⟩]
      obtain ⟨mm₂, h₂⟩ : ∃ mm', mark (fun offset => decide (offset < mb)) 0 mm₁ = .ok mm' :=
        mark_iff.mpr ⟨256, by decide, by decide⟩
      rw [ok_bind, h₂, ok_bind, ← markUpper_iff mm₂]
      cases h₃ : markUpper maxAddress mm₂ with
      | error f =>
          constructor
          · rintro (⟨r, h⟩ | h)
            · cases h
            · exact .inr (congrArg _ (Except.error.inj h))
          · rintro (⟨r, h⟩ | h)
            · cases h
            · exact .inr (congrArg _ (Except.error.inj h))
      | ok mm₃ =>
          obtain ⟨mm₄, h₄⟩ : ∃ mm', mark (fun offset => decide (offset.toNat < patSize))
              (tableSpace es) mm₃ = .ok mm' :=
            mark_iff.mpr ⟨32, by decide, by decide⟩
          rw [ok_bind, h₄, ok_bind]
          exact iff_of_true (.inl ⟨_, rfl⟩) (.inl ⟨_, rfl⟩)

/-- For every count and every table of entries, `disp_memory_map` and
`setup_page_availibility_table` return or panic exactly if the four
conditions of `LoopsEnd` hold. -/
theorem memory_init_terminates_iff (map : Word → MmEntry) (mmSize : Word) (mm : MemMgr) :
    Terminates (memoryInit map mmSize mm) ↔ LoopsEnd map mmSize := by
  by_cases hsize : mmSize = 0xFFFFFFFF
  · have hprint : ∀ (s : Unit) (e : MmEntry), ∃ s', (fun (_ : Unit) _ => .ok ()) s e
        = (.ok s' : Except Fault Unit) := fun s _ => ⟨s, rfl⟩
    have hloop := forEntries_endless map hprint (2 ^ 32) 1 ()
    refine iff_of_false ?_ fun h => h.count hsize
    rw [memoryInit, dispLoops, hsize, hloop]
    exact not_terminates_diverge
  · rw [memoryInit, dispLoops_eq hsize, ok_bind, setup_terminates_iff, dispMemoryMap_eq,
      ← table_iff]
    exact ⟨fun ⟨ht, hr, hu⟩ => ⟨hsize, ht, hr, hu⟩, fun h => ⟨h.table, h.reserved, h.upper⟩⟩

/-- One free entry of 128 KB and a half page from the first megabyte on. -/
def raggedMap (_ : Word) : MmEntry := ⟨0x100000, 0, 0x20800, 0, 1⟩

/-- The highest address is in the middle of a page: the loop above it
steps over `MAX_MEM`. -/
theorem memory_init_endless : ¬Terminates (memoryInit raggedMap 1 lowPageUsed) := by
  rw [memoryInit, dispLoops_eq (by decide), ok_bind, setup_terminates_iff]
  rintro ⟨-, -, hupper⟩
  exact absurd hupper (by decide)

end Runs

end SpKernel
