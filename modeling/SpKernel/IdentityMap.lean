import SpKernel.MemoryMap
import SpKernel.Runs

/-!
# The identity mapping and the directories made from it

`setup_initial_page_table` maps every address to itself (`Identity`), and
every directory that `new_page_directory` returns shares its first table.
What the first one built stays as long as its pages stay in use and
nobody writes to them (`KeepsMapping`): that covers requests for pages
and new directories, and anything else that leaves these pages alone.

`identity_mapping` is about all states after such calls. The allocator is
asked for two things only, which `setup_page_availibility_table` sees to
(`handsOut_setup`): its cursor is inside the table, and page 0 is in use.
`get_next_page` then hands out zeroed pages that are pairwise distinct
and not at `NULL`.

A request for a page is one of the things that keep the mapping
(`keeps_page`), since the page it gives is none of those in use, and a
new directory is two requests and two writes to the pages they give
(`keeps_directory`). What a new directory maps is the entries below four
megabytes and nothing else (`phys_new`).
-/

namespace SpKernel

open Lib

/-! ## Definitions -/

/-- `get_next_page` can be called, and never returns page 0. -/
structure HandsOut (mm : MemMgr) : Prop where
  cursor : mm.lastAvailible < patSize
  zero : Marked mm 0

/-- The page directory and its 1024 tables are still in use and have the
same words. -/
structure KeepsMapping (mm mm' : MemMgr) : Prop where
  handsOut : HandsOut mm'
  pageDirectory : mm'.pageDirectory = mm.pageDirectory
  pageTable : mm'.pageTable = mm.pageTable
  directoryMarked : Marked mm' mm.pageDirectory
  tablesMarked : ∀ i < 1024, Marked mm' (tableOf mm mm.pageDirectory i)
  directory : ∀ i < 1024,
    readWord mm'.mem mm.pageDirectory i = readWord mm.mem mm.pageDirectory i
  tables : ∀ i < 1024, ∀ j < 1024,
    readWord mm'.mem (tableOf mm mm.pageDirectory i) j
      = readWord mm.mem (tableOf mm mm.pageDirectory i) j

/-- The states after `setup_initial_page_table`: pages are requested,
directories are created, and whatever else happens keeps the mapping. -/
inductive AfterSetup (mm₀ : MemMgr) : MemMgr → Prop
  | setup {mm : MemMgr} : setupInitialPageTable mm₀ = .ok mm → AfterSetup mm₀ mm
  | page {mm mm' : MemMgr} {a : Word} :
      AfterSetup mm₀ mm → getNextPage mm = .ok (a, mm') → AfterSetup mm₀ mm'
  | directory {mm mm' : MemMgr} {d : Word} :
      AfterSetup mm₀ mm → newPageDirectory mm = .ok (d, mm') → AfterSetup mm₀ mm'
  | other {mm mm' : MemMgr} : AfterSetup mm₀ mm → KeepsMapping mm mm' → AfterSetup mm₀ mm'

/-- Setting up the page availability table prepares the allocator. -/
theorem handsOut_setup {map : List MmEntry} {maxAddress table : Word} {mm mm' : MemMgr}
    (h : setupPageAvailibilityTable map maxAddress mm = .ok (table, mm')) : HandsOut mm' := by
  obtain ⟨-, -, -, -, hbits⟩ := setup_marks h
  refine ⟨?_, (hbits 0 (by decide)).mpr (.inr (.inl (by decide)))⟩
  simp only [setupPageAvailibilityTable] at h
  split at h
  · cases h
  · obtain ⟨mm₁, -, h⟩ := bind_eq_ok.mp h
    obtain ⟨mm₂, -, h⟩ := bind_eq_ok.mp h
    obtain ⟨mm₃, -, h⟩ := bind_eq_ok.mp h
    obtain ⟨mm₄, -, h⟩ := bind_eq_ok.mp h
    obtain ⟨-, rfl⟩ := Prod.mk.inj (Except.ok.inj h)
    exact (by decide : 0 < patSize)

/-! ## What keeps the mapping -/

variable {mm mm' : MemMgr} {a d : Word}

namespace Identity

/-- A table of the identity mapping is a page in use. -/
theorem table_marked (h : Identity mm) {i : Nat} (hi : i < 1024) :
    tableOf mm mm.pageDirectory i ≠ 0 ∧ Marked mm (tableOf mm mm.pageDirectory i) := by
  have hne : tableOf mm mm.pageDirectory i ≠ 0 := by
    intro hz
    -- the address 4 MB * i is mapped to itself; its second page is not 0
    have hi' : pdeIndex (BitVec.ofNat 32 (4194304 * i + 4096)) = i := by
      rw [pdeIndex_eq, BitVec.toNat_ofNat]
      omega
    have hphys := h.phys (BitVec.ofNat 32 (4194304 * i + 4096))
    rw [getPhysAddress, hi', if_pos hz] at hphys
    have hbase := base_toNat (BitVec.ofNat 32 (4194304 * i + 4096))
    rw [← hphys, BitVec.toNat_ofNat] at hbase
    have h0 : (0 : Word).toNat = 0 := rfl
    omega
  exact ⟨hne, (h.spaces.table _ (List.mem_singleton.mpr rfl) i hi hne).1⟩

theorem keeps (h : Identity mm) (hk : KeepsMapping mm mm') : Identity mm' := by
  have hd := hk.pageDirectory
  have hs := h.spaces
  have hmem : mm.pageDirectory ∈ [mm.pageDirectory] := List.mem_singleton.mpr rfl
  have htab : ∀ i < 1024, tableOf mm' mm.pageDirectory i = tableOf mm mm.pageDirectory i :=
    fun i hi => congrArg base (hk.directory i hi)
  have hfirst := hs.first _ hmem
  refine ⟨⟨hk.handsOut.cursor, hk.handsOut.zero, ?_, ?_, ?_, ?_, ?_, ?_, ?_⟩, fun v => ?_⟩
  · rw [hk.pageTable, ← hfirst]
    exact hk.tablesMarked 0 (by decide)
  · rw [hk.pageTable]
    exact hs.sharedNull
  · rw [hd]
    exact hs.aligned
  · rw [hd]
    exact List.forall_mem_singleton.mpr hk.directoryMarked
  · rw [hd]
    refine List.forall_mem_singleton.mpr ?_
    rw [htab 0 (by decide), hk.pageTable, hfirst]
  · rw [hd]
    refine List.forall_mem_singleton.mpr fun i hi hne => ?_
    rw [htab i hi] at hne ⊢
    exact ⟨hk.tablesMarked i hi, (hs.table _ hmem i hi hne).2⟩
  · rw [hd]
    refine List.forall_mem_singleton.mpr
      (List.forall_mem_singleton.mpr fun i hi i' hi' hne he => ?_)
    rw [htab i hi] at hne he
    rw [htab i' hi'] at he
    exact hs.apart _ hmem _ hmem i hi i' hi' hne he
  · rw [hd, ← h.phys v]
    simp only [getPhysAddress, htab _ (pdeIndex_lt v),
      hk.tables _ (pdeIndex_lt v) _ (pteIndex_lt v)]

theorem keeps_page (h : Identity mm) (ht : Taken mm a mm') : KeepsMapping mm mm' := by
  have hs := h.spaces
  have hmem : mm.pageDirectory ∈ [mm.pageDirectory] := List.mem_singleton.mpr rfl
  exact ⟨⟨ht.cursor, ht.grown.marks _ hs.zero⟩, ht.pageDirectory, ht.pageTable,
    ht.grown.marks _ (hs.marked _ hmem), fun i hi => ht.grown.marks _ (h.table_marked hi).2,
    fun i hi => ht.read (hs.marked _ hmem) (hs.aligned _ hmem) hi,
    fun i hi j hj => ht.read (h.table_marked hi).2 (tableOf_aligned ..) hj⟩

theorem keeps_directory (h : Identity mm) (hn : NewSpace mm d mm') : KeepsMapping mm mm' := by
  have hs := h.spaces
  have hmem : mm.pageDirectory ∈ [mm.pageDirectory] := List.mem_singleton.mpr rfl
  exact ⟨⟨hn.grown.cursor, hn.grown.marks _ hs.zero⟩, hn.grown.pageDirectory,
    hn.grown.pageTable, hn.grown.marks _ (hs.marked _ hmem),
    fun i hi => hn.grown.marks _ (h.table_marked hi).2,
    fun i hi => hn.read _ i (hs.aligned _ hmem) hi (hs.marked _ hmem),
    fun i hi j hj => hn.read _ j (tableOf_aligned ..) hj (h.table_marked hi).2⟩

/-- A new directory maps the first four megabytes to themselves and nothing
else. -/
theorem phys_new (h : Identity mm) (hn : NewSpace mm d mm') (v : Word) :
    getPhysAddress mm' d v = if v < secondPde then base v else 0 := by
  have hs := h.spaces
  have hlow : v < secondPde ↔ pdeIndex v = 0 := by
    have hsec : (secondPde : Word).toNat = 2 ^ 22 := rfl
    rw [BitVec.lt_def, hsec, pdeIndex_eq]
    omega
  rw [getPhysAddress, hn.tables _ (pdeIndex_lt v)]
  by_cases h0 : pdeIndex v = 0
  · have hfirst := hs.first _ (List.mem_singleton.mpr rfl)
    rw [if_pos h0, if_neg hs.sharedNull, if_pos (hlow.mpr h0), ← h.phys v,
      hn.read _ _ (base_aligned _) (pteIndex_lt v) hs.shared, getPhysAddress, h0, hfirst,
      if_neg hs.sharedNull]
  · rw [if_neg h0, if_pos rfl, if_neg fun hc => h0 (hlow.mp hc)]

end Identity

/-! ## All states after the setup -/

theorem AfterSetup.identity {mm₀ : MemMgr} (h0 : HandsOut mm₀) (h : AfterSetup mm₀ mm) :
    Identity mm := by
  induction h with
  | setup hok => exact setupInitialPageTable_spec h0.cursor h0.zero hok
  | page _ hget ih => exact ih.keeps (ih.keeps_page (taken_of_ok ih.spaces.cursor hget))
  | directory _ hnew ih =>
      exact ih.keeps (ih.keeps_directory (newPageDirectory_spec ih.spaces.cursor hnew))
  | other _ hk ih => exact ih.keeps hk

/-- After `setup_initial_page_table` every address is mapped to its page in
the page directory, and in every directory that `new_page_directory` returns
exactly the addresses below four megabytes are. -/
theorem identity_mapping {mm₀ : MemMgr} (h0 : HandsOut mm₀) (h : AfterSetup mm₀ mm) :
    (∀ v, getPhysAddress mm mm.pageDirectory v = base v)
      ∧ ∀ d mm', newPageDirectory mm = .ok (d, mm') → ∀ v,
        getPhysAddress mm' d v = if v < secondPde then base v else 0 := by
  have hid := h.identity h0
  exact ⟨hid.phys, fun d mm' hnew v =>
    hid.phys_new (newPageDirectory_spec hid.spaces.cursor hnew) v⟩

/-- The mapping set up when all pages but the first are free. -/
theorem identity_mapping_low : ∃ mm d mm', setupInitialPageTable lowPageUsed = .ok mm
    ∧ newPageDirectory mm = .ok (d, mm')
    ∧ getPhysAddress mm mm.pageDirectory 0xDEADBEEF = 0xDEADB000
    ∧ getPhysAddress mm' d 0x123456 = 0x123000 ∧ getPhysAddress mm' d 0xDEADBEEF = 0 := by
  have h0 : HandsOut lowPageUsed := ⟨by decide, by decide⟩
  obtain ⟨mm, hset, hspare⟩ := setupInitialPageTable_ok (n := 1) h0.zero
    (lowPageUsed_spare.le (by decide))
  obtain ⟨d, mm₁, hget, -, -⟩ := hspare.take
  obtain ⟨mm', hnew⟩ : ∃ mm', newPageDirectory mm = .ok (d, mm') :=
    ⟨_, by rw [newPageDirectory, hget, ok_bind]⟩
  obtain ⟨hid, hdir⟩ := identity_mapping h0 (.setup hset)
  refine ⟨mm, d, mm', hset, hnew, ?_, ?_, ?_⟩
  · rw [hid]
    decide
  · rw [hdir d mm' hnew]
    decide
  · rw [hdir d mm' hnew]
    decide

end SpKernel
