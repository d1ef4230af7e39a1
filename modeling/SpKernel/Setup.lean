import SpKernel.Machine
import SpKernel.Spaces

/-!
# The identity mapping

`setup_initial_page_table` builds a directory with 1024 tables of 1024
entries each, in which every page is mapped to itself. The loop
invariant, `Filled mm d n`, says that the first `n` tables of the
directory `d` are pages of their own with the right entries. A table that
is filled later is a fresh page, so it is none of the pages written
before (`setupTables_spec`).

`Identity` is what the whole of it gives: the directory translates every
address to itself, and its pages are marked as in use. This survives what
the initialisation does next, which is to take pages and give them back
(`takePages_spec`).

The initialisation panics if memory runs out; `Spare mm n` says that it
does not for the next `n` pages. It is what the witnesses need, as they
have to show that there is a first state at all: `Spare.take` gives a
page and leaves one less, and `initMemory_ok` puts the numbers together.
-/

namespace SpKernel

open Lib

/-! ## One table -/

/-- The entry of the initial table `ii` for its page `jj`. -/
def identityEntry (ii jj : Nat) : Word := BitVec.ofNat 32 (ii <<< 22 ||| jj <<< 12) ||| pageFlags

theorem fillTable_read {curPt b : Word} (hc : PageAligned curPt) (hb : PageAligned b) (ii : Nat)
    (m : Mem) {j : Nat} (hj : j < 1024) : ∀ jj ≤ 1024, readWord (fillTable curPt ii m jj) b j
      = if b = curPt ∧ j < jj then identityEntry ii j else readWord m b j
  | 0, _ => by simp [fillTable]
  | jj + 1, hle => by
      have hstep : fillTable curPt ii m (jj + 1)
          = writeWord (fillTable curPt ii m jj) curPt jj (identityEntry ii jj) := by
        rw [fillTable, List.range_succ, List.foldl_append]
        rfl
      rw [hstep, readWord_writeWord hc hb (by omega) hj,
        fillTable_read hc hb ii m hj jj (by omega)]
      by_cases hbc : b = curPt
      · subst hbc
        rcases Nat.lt_trichotomy j jj with hlt | rfl | hgt
        · simp [hlt, Nat.lt_succ_of_lt hlt, Nat.ne_of_gt hlt]
        · simp
        · have h1 : ¬j < jj := by omega
          have h2 : ¬j < jj + 1 := by omega
          have h3 : jj ≠ j := by omega
          simp [h1, h2, h3]
      · simp [hbc, Ne.symm hbc]

/-- The first `n` tables of the directory are in place. -/
structure Filled (mm : MemMgr) (d : Word) (n : Nat) : Prop where
  cursor : mm.lastAvailible < patSize
  zero : Marked mm 0
  directory : mm.pageDirectory = d
  aligned : PageAligned d
  dirMarked : Marked mm d
  notNull : ∀ i < n, tableOf mm d i ≠ 0
  marked : ∀ i < n, Marked mm (tableOf mm d i)
  notDir : ∀ i < n, tableOf mm d i ≠ d
  apart : ∀ i < n, ∀ i' < n, tableOf mm d i = tableOf mm d i' → i = i'
  entries : ∀ i < n, ∀ j < 1024, readWord mm.mem (tableOf mm d i) j = identityEntry i j

theorem setupTable_spec {mm mm' : MemMgr} {d : Word} {n : Nat} (h : Filled mm d n)
    (hn : n < 1024) (hok : setupTable mm n = .ok mm') : Filled mm' d (n + 1) := by
  obtain ⟨⟨t, mm₁⟩, hget, hok⟩ := bind_eq_ok.mp hok
  obtain rfl := Except.ok.inj hok
  have ht := taken_of_ok h.cursor hget
  have hd₁ : mm₁.pageDirectory = d := ht.pageDirectory.trans h.directory
  have htd : t ≠ d := ht.ne h.dirMarked
  -- the memory after the round, seen through reads
  have hnew : ∀ b j, PageAligned b → j < 1024 →
      readWord (fillTable t n (writeWord mm₁.mem mm₁.pageDirectory n (t ||| pageFlags)) 1024) b j
        = if b = t then identityEntry n j
          else if b = d ∧ j = n then t ||| pageFlags
          else readWord mm₁.mem b j := by
    intro b j hb hj
    rw [fillTable_read ht.aligned hb n _ hj 1024 le_rfl, hd₁,
      readWord_writeWord h.aligned hb hn hj]
    simp only [hj, and_true, eq_comm]
  generalize fillTable t n (writeWord mm₁.mem mm₁.pageDirectory n (t ||| pageFlags)) 1024 = m
    at hnew ⊢
  have hread : ∀ b j, PageAligned b → j < 1024 → Marked mm b → b ≠ d →
      readWord m b j = readWord mm.mem b j := by
    intro b j hb hj hm hbd
    rw [hnew b j hb hj, if_neg fun hc => ht.ne hm hc.symm, if_neg fun hc => hbd hc.1,
      ht.read hm hb hj]
  have htab : ∀ i < 1024, tableOf { mm₁ with mem := m } d i
      = if i = n then t else tableOf mm d i := by
    intro i hi
    simp only [tableOf]
    rw [hnew d i h.aligned hi, if_neg htd.symm]
    by_cases hin : i = n
    · rw [if_pos ⟨rfl, hin⟩, if_pos hin, base_or_flags ht.aligned]
    · rw [if_neg fun hc => hin hc.2, if_neg hin, ht.read h.dirMarked h.aligned hi]
  have hold : ∀ i, i < n + 1 → i ≠ n → i < n := fun i hi hne => by omega
  have hfresh : ∀ i < n, tableOf mm d i ≠ t := fun i hi => (ht.ne (h.marked i hi)).symm
  have hlt : ∀ i, i < n + 1 → i < 1024 := fun i hi => by omega
  refine ⟨ht.cursor, ht.grown.marks _ h.zero, hd₁, h.aligned, ht.grown.marks _ h.dirMarked, ?_,
    ?_, ?_, ?_, ?_⟩
  · intro i hi
    rw [htab i (hlt i hi)]
    split
    · exact ht.ne h.zero
    · exact h.notNull i (hold i hi ‹_›)
  · intro i hi
    rw [htab i (hlt i hi)]
    split
    · exact ht.marked
    · exact ht.grown.marks _ (h.marked i (hold i hi ‹_›))
  · intro i hi
    rw [htab i (hlt i hi)]
    split
    · exact htd
    · exact h.notDir i (hold i hi ‹_›)
  · intro i hi i' hi'
    rw [htab i (hlt i hi), htab i' (hlt i' hi')]
    split
    · rename_i he
      split
      · rename_i he'
        exact fun _ => he.trans he'.symm
      · exact fun hc => absurd hc.symm (hfresh i' (hold i' hi' ‹_›))
    · split
      · exact fun hc => absurd hc (hfresh i (hold i hi ‹_›))
      · exact h.apart i (hold i hi ‹_›) i' (hold i' hi' ‹_›)
  · intro i hi j hj
    rw [htab i (hlt i hi)]
    split
    · rename_i he
      rw [hnew t j ht.aligned hj, if_pos rfl, he]
    · have hi' := hold i hi ‹_›
      rw [hread _ j (tableOf_aligned ..) hj (h.marked i hi') (h.notDir i hi'), h.entries i hi' j hj]

/-! ## All tables -/

theorem setupTables_spec {d : Word} : ∀ n ≤ 1024, ∀ {mm mm' : MemMgr}, Filled mm d 0 →
    (List.range n).foldlM setupTable mm = .ok mm' → Filled mm' d n
  | 0, _, mm, mm', h, hok => by
      obtain rfl := Except.ok.inj hok
      exact h
  | n + 1, hn, mm, mm', h, hok => by
      rw [List.range_succ, List.foldlM_append] at hok
      obtain ⟨mm₁, h₁, hok⟩ := bind_eq_ok.mp hok
      rw [List.foldlM_cons] at hok
      obtain ⟨mm₂, h₂, hok⟩ := bind_eq_ok.mp hok
      obtain rfl := Except.ok.inj hok
      exact setupTable_spec (setupTables_spec n (by omega) h h₁) (by omega) h₂

theorem identityEntry_base (v : Word) :
    base (identityEntry (pdeIndex v) (pteIndex v)) = base v := by
  have hv := v.isLt
  have hor : pdeIndex v <<< 22 ||| pteIndex v <<< 12 = v.toNat / 4096 * 4096 := by
    rw [← Nat.shiftLeft_add_eq_or_of_lt, Nat.shiftLeft_eq, Nat.shiftLeft_eq, pdeIndex_eq,
      pteIndex_eq]
    · unfold pageOf
      omega
    · have := pteIndex_lt v
      rw [Nat.shiftLeft_eq]
      omega
  have hal : PageAligned (BitVec.ofNat 32 (v.toNat / 4096 * 4096)) := by
    unfold PageAligned
    rw [BitVec.toNat_ofNat]
    omega
  rw [identityEntry, hor, base_or_flags hal]
  refine BitVec.eq_of_toNat_eq ?_
  rw [base_toNat, BitVec.toNat_ofNat]
  omega

/-- What memory initialisation leaves: an address space in which every
page is mapped to itself. -/
structure Identity (mm : MemMgr) : Prop where
  spaces : Spaces mm [mm.pageDirectory]
  phys : ∀ v, getPhysAddress mm mm.pageDirectory v = base v

theorem setupInitialPageTable_spec {mm mm' : MemMgr} (hlast : mm.lastAvailible < patSize)
    (hzero : Marked mm 0) (hok : setupInitialPageTable mm = .ok mm') : Identity mm' := by
  obtain ⟨⟨d, mm₁⟩, hget, hrest⟩ := bind_eq_ok.mp hok
  obtain ⟨mm₂, hloop, hdir⟩ := bind_eq_ok.mp hrest
  have ht := taken_of_ok hlast hget
  have h0 : Filled { mm₁ with pageDirectory := d } d 0 :=
    ⟨ht.cursor, ht.grown.marks _ hzero, rfl, ht.aligned, ht.marked, nofun, nofun, nofun, nofun,
      nofun⟩
  have h := setupTables_spec 1024 le_rfl h0 hloop
  obtain rfl := h.directory
  simp only [setPageDirectory] at hdir
  split at hdir
  · cases hdir
  obtain rfl := Except.ok.inj hdir
  refine ⟨⟨h.cursor, h.zero, h.marked 0 (by decide), h.notNull 0 (by decide), ?_, ?_, ?_, ?_, ?_⟩,
    fun v => ?_⟩
  · exact List.forall_mem_singleton.mpr h.aligned
  · exact List.forall_mem_singleton.mpr h.dirMarked
  · exact List.forall_mem_singleton.mpr rfl
  · refine List.forall_mem_singleton.mpr fun i hi _ => ⟨h.marked i hi, fun hc => ?_⟩
    exact h.notDir i hi (List.mem_singleton.mp hc)
  · refine List.forall_mem_singleton.mpr (List.forall_mem_singleton.mpr fun i hi i' hi' _ he => ?_)
    exact .inr ⟨rfl, h.apart i hi i' hi' he⟩
  · have htab : tableOf mm₂ mm₂.pageDirectory (pdeIndex v) ≠ 0 := h.notNull _ (pdeIndex_lt v)
    have hent := h.entries _ (pdeIndex_lt v) _ (pteIndex_lt v)
    rw [← identityEntry_base v, ← hent]
    exact if_neg htab

theorem Identity.take {mm mm' : MemMgr} {a : Word} (h : Identity mm) (ht : Taken mm a mm') :
    Identity mm' := by
  have hd : mm'.pageDirectory = mm.pageDirectory := ht.pageDirectory
  refine ⟨hd ▸ ht.spaces h.spaces, fun v => ?_⟩
  rw [hd, ht.phys h.spaces (List.mem_singleton.mpr rfl), h.phys]

theorem Identity.test {mm mm' : MemMgr} {a : Word} (h : Identity mm) (ht : Taken mm a mm') :
    Identity (freePage mm' a).2 := by
  rw [freePage_aligned ht.aligned]
  have hbits : ∀ n, patBit mm n = true → patBit (setPat mm' a 0) n = true := by
    intro n hn
    have hne : n ≠ pageOf a := by
      rintro rfl
      rw [ht.wasFree] at hn
      cases hn
    rw [patBit_clear, ht.bits]
    simp [hne, hn]
  have hgrown : Grown mm (setPat mm' a 0) := ⟨ht.cursor, hbits, ht.pageTable, ht.pageDirectory⟩
  have hd : mm'.pageDirectory = mm.pageDirectory := ht.pageDirectory
  have htab : ∀ d ∈ [mm.pageDirectory], ∀ i < 1024,
      tableOf (setPat mm' a 0) d i = tableOf mm d i := fun d hd i hi => ht.tableOf h.spaces hd hi
  refine ⟨(show (setPat mm' a 0).pageDirectory = _ from hd) ▸ h.spaces.of_tables hgrown htab,
    fun v => ?_⟩
  exact ((h.take ht).phys v)

theorem takePages_spec : ∀ (l : List Nat) {mm mm' : MemMgr}, Identity mm →
    l.foldlM (fun mm _ => Prod.snd <$> getNextPage mm) mm = .ok mm' → Identity mm'
  | [], mm, mm', h, hok => by
      obtain rfl := Except.ok.inj hok
      exact h
  | _ :: l, mm, mm', h, hok => by
      rw [List.foldlM_cons] at hok
      obtain ⟨mm₁, h₁, hok⟩ := bind_eq_ok.mp hok
      cases hget : getNextPage mm with
      | error e =>
          rw [hget] at h₁
          cases h₁
      | ok x =>
          rw [hget] at h₁
          obtain rfl := Except.ok.inj h₁
          exact takePages_spec l (h.take (taken_of_ok h.spaces.cursor hget)) hok

theorem initMemory_spec {mm mm' : MemMgr} {pages : Nat} (hlast : mm.lastAvailible < patSize)
    (hzero : Marked mm 0) (hok : initMemory mm pages = .ok mm') : Identity mm' := by
  obtain ⟨mm₁, hset, hok⟩ := bind_eq_ok.mp hok
  obtain ⟨⟨a, mm₂⟩, hget, hok⟩ := bind_eq_ok.mp hok
  obtain ⟨⟨b, mm₃⟩, hget', hok⟩ := bind_eq_ok.mp hok
  have h₁ := setupInitialPageTable_spec hlast hzero hset
  have h₂ := h₁.test (taken_of_ok h₁.spaces.cursor hget)
  have h₃ := h₂.take (taken_of_ok h₂.spaces.cursor hget')
  exact takePages_spec _ h₃ hok

/-! ## Enough memory -/

/-- At least `n` pages are free. -/
def Spare (mm : MemMgr) (n : Nat) : Prop :=
  mm.lastAvailible < patSize
    ∧ ∃ s : Finset Nat, n ≤ s.card ∧ ∀ i ∈ s, i < 2 ^ 20 ∧ patBit mm i = false

theorem Spare.take {mm : MemMgr} {n : Nat} (h : Spare mm (n + 1)) :
    ∃ a mm', getNextPage mm = .ok (a, mm') ∧ Taken mm a mm' ∧ Spare mm' n := by
  obtain ⟨hlast, s, hcard, hs⟩ := h
  rcases getNextPage_spec hlast with ⟨a, mm', hget, ht⟩ | ⟨-, hall⟩
  · refine ⟨a, mm', hget, ht, ht.cursor, s.erase (pageOf a), ?_, fun i hi => ?_⟩
    · have := Finset.pred_card_le_card_erase (s := s) (a := pageOf a)
      omega
    · obtain ⟨hne, hi⟩ := Finset.mem_erase.mp hi
      refine ⟨(hs i hi).1, ?_⟩
      rw [ht.bits, (hs i hi).2]
      simp [hne]
  · obtain ⟨i, hi⟩ : s.Nonempty := Finset.card_pos.mp (by omega)
    have := (hs i hi).2
    rw [hall i (hs i hi).1] at this
    cases this

theorem Spare.mono {mm mm' : MemMgr} {n : Nat} (h : Spare mm n)
    (hlast : mm'.lastAvailible < patSize)
    (hpat : ∀ i, patBit mm i = false → patBit mm' i = false) : Spare mm' n := by
  obtain ⟨-, s, hcard, hs⟩ := h
  exact ⟨hlast, s, hcard, fun i hi => ⟨(hs i hi).1, hpat i (hs i hi).2⟩⟩

theorem Spare.le {mm : MemMgr} {m n : Nat} (h : Spare mm n) (hle : m ≤ n) : Spare mm m := by
  obtain ⟨hlast, s, hcard, hs⟩ := h
  exact ⟨hlast, s, hle.trans hcard, hs⟩

theorem setupTables_ok : ∀ (l : List Nat) {mm : MemMgr} {n : Nat}, Spare mm (l.length + n) →
    ∃ mm', l.foldlM setupTable mm = .ok mm' ∧ Spare mm' n ∧ mm'.pageDirectory = mm.pageDirectory
  | [], mm, n, h => ⟨mm, rfl, by simpa using h, rfl⟩
  | i :: l, mm, n, h => by
      have h' : Spare mm (l.length + n + 1) := by
        rwa [List.length_cons, Nat.add_right_comm] at h
      obtain ⟨t, mm₁, hget, ht, h₁⟩ := h'.take
      obtain ⟨mm₂, hset, h₂, hd₂⟩ : ∃ mm₂, setupTable mm i = .ok mm₂ ∧ Spare mm₂ (l.length + n)
          ∧ mm₂.pageDirectory = mm.pageDirectory := by
        simp only [setupTable, hget, ok_bind]
        generalize fillTable t i _ 1024 = m
        exact ⟨_, rfl, h₁.mono h₁.1 fun _ hi => hi, ht.pageDirectory⟩
      obtain ⟨mm', hrest, h', hd'⟩ := setupTables_ok l h₂
      refine ⟨mm', ?_, h', hd'.trans hd₂⟩
      rw [List.foldlM_cons, hset]
      exact hrest

theorem setupInitialPageTable_ok {mm : MemMgr} {n : Nat} (hzero : Marked mm 0)
    (h : Spare mm (n + 1025)) : ∃ mm', setupInitialPageTable mm = .ok mm' ∧ Spare mm' n := by
  obtain ⟨d, mm₁, hget, ht, h₁⟩ := h.take
  have h₁' : Spare { mm₁ with pageDirectory := d } ((List.range 1024).length + n) := by
    rw [List.length_range, Nat.add_comm]
    exact h₁.mono h₁.1 fun _ hi => hi
  obtain ⟨mm₂, hloop, h₂, hd₂⟩ := setupTables_ok (List.range 1024) h₁'
  have hd : mm₂.pageDirectory ≠ 0 := hd₂ ▸ ht.ne hzero
  refine ⟨{ mm₂ with
    pageTable := readWord mm₂.mem mm₂.pageDirectory 0, cr3 := mm₂.pageDirectory }, ?_, ?_⟩
  · simp only [setupInitialPageTable, hget, ok_bind, hloop, setPageDirectory, hd, ↓reduceIte]
  · exact h₂.mono h₂.1 fun _ hi => hi

theorem initMemory_ok {mm : MemMgr} {n : Nat} (hzero : Marked mm 0) (h : Spare mm (n + 1027)) :
    ∃ mm', initMemory mm 0 = .ok mm' ∧ Spare mm' n := by
  obtain ⟨mm₃, hset, h₃⟩ := setupInitialPageTable_ok (n := n + 2) hzero h
  obtain ⟨a, mm₄, hget₄, ht₄, h₄⟩ := h₃.take
  have h₅ : Spare (freePage mm₄ a).2 (n + 1) := by
    rw [freePage_aligned ht₄.aligned]
    refine h₄.mono h₄.1 fun i hi => ?_
    rw [patBit_clear, hi, Bool.and_false]
  obtain ⟨b, mm₆, hget₆, -, h₆⟩ := h₅.take
  refine ⟨mm₆, ?_, h₆⟩
  simp only [initMemory, hset, ok_bind, hget₄, hget₆]
  rfl

end SpKernel
