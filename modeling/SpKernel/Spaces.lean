import SpKernel.Paging

/-!
# Address spaces as flat maps

A two-level page table stands for the function `getPhysAddress mm space`
from virtual pages to physical ones. This module proves that `_k_mmap`
updates that function at the pages its loop visits and nowhere else.

`Spaces mm dirs` is the representation invariant, for all directories
that have been handed out at once: every directory and every table is a
marked page, no directory is a table, all of them share the table of slot
0 (`page_table`), and no other table occurs twice. A page that
`get_next_page` hands out is unmarked before, hence none of these.

The loops do three things to the tables, each with its own lemmas: a page
is taken (`Taken.spaces`, `Taken.phys`), a table is linked
(`spaces_link`, `phys_link`), an entry is written (`setEntry_spec`).
`mapPlain_spec` and `mapFree_spec` are the inductions over the pages of a
range (`pagesUpTo`), and `kMmap_cases` has everything that a call which
returns can have done. A new directory is one more space, with the shared
table and nothing else (`newPageDirectory_spec`).

Two results follow.

- `mmap_refines_flat_map`: over every sequence of calls, each space is
  the map that an abstract machine of flat maps makes of it.
- `mmap_maps_range_iff`: a successful call has mapped the range that was
  asked for exactly if the bound of its loop does not overflow
  (`RangeFits`). Where it does, the call maps nothing and reports
  success.
-/

namespace SpKernel

open Lib

def Marked (mm : MemMgr) (a : Word) : Prop := patBit mm (pageOf a) = true

instance (mm : MemMgr) (a : Word) : Decidable (Marked mm a) :=
  inferInstanceAs (Decidable (_ = _))

/-- The representation invariant of the address spaces `dirs`. -/
structure Spaces (mm : MemMgr) (dirs : List Word) : Prop where
  cursor : mm.lastAvailible < patSize
  zero : Marked mm 0
  shared : Marked mm (base mm.pageTable)
  sharedNull : base mm.pageTable ≠ 0
  aligned : ∀ d ∈ dirs, PageAligned d
  marked : ∀ d ∈ dirs, Marked mm d
  first : ∀ d ∈ dirs, tableOf mm d 0 = base mm.pageTable
  table : ∀ d ∈ dirs, ∀ i < 1024, tableOf mm d i ≠ 0 →
    Marked mm (tableOf mm d i) ∧ tableOf mm d i ∉ dirs
  apart : ∀ d ∈ dirs, ∀ d' ∈ dirs, ∀ i < 1024, ∀ i' < 1024, tableOf mm d i ≠ 0 →
    tableOf mm d i = tableOf mm d' i' → (i = 0 ∧ i' = 0) ∨ (d = d' ∧ i = i')

/-- Marks are only added and the shared table stays. -/
structure Grown (mm mm' : MemMgr) : Prop where
  cursor : mm'.lastAvailible < patSize
  marks : ∀ n, patBit mm n = true → patBit mm' n = true
  pageTable : mm'.pageTable = mm.pageTable
  pageDirectory : mm'.pageDirectory = mm.pageDirectory

theorem Grown.trans {a b c : MemMgr} (h : Grown a b) (h' : Grown b c) : Grown a c :=
  ⟨h'.cursor, fun n hn => h'.marks n (h.marks n hn), h'.pageTable.trans h.pageTable,
    h'.pageDirectory.trans h.pageDirectory⟩

theorem Grown.setMem {mm mm' : MemMgr} (h : Grown mm mm') (m : Mem) :
    Grown mm { mm' with mem := m } :=
  ⟨h.cursor, h.marks, h.pageTable, h.pageDirectory⟩

theorem Spaces.grown {mm : MemMgr} {dirs : List Word} (h : Spaces mm dirs) : Grown mm mm :=
  ⟨h.cursor, fun _ hn => hn, rfl, rfl⟩

theorem Spaces.of_tables {mm mm' : MemMgr} {dirs : List Word} (h : Spaces mm dirs)
    (hg : Grown mm mm') (ht : ∀ d ∈ dirs, ∀ i < 1024, tableOf mm' d i = tableOf mm d i) :
    Spaces mm' dirs where
  cursor := hg.cursor
  zero := hg.marks _ h.zero
  shared := hg.pageTable ▸ hg.marks _ h.shared
  sharedNull := hg.pageTable ▸ h.sharedNull
  aligned := h.aligned
  marked := fun d hd => hg.marks _ (h.marked d hd)
  first := fun d hd => by rw [ht d hd 0 (by decide), hg.pageTable, h.first d hd]
  table := by
    intro d hd i hi hne
    rw [ht d hd i hi] at hne ⊢
    exact ⟨hg.marks _ (h.table d hd i hi hne).1, (h.table d hd i hi hne).2⟩
  apart := by
    intro d hd d' hd' i hi i' hi' hne he
    rw [ht d hd i hi] at hne he
    rw [ht d' hd' i' hi'] at he
    exact h.apart d hd d' hd' i hi i' hi' hne he

theorem tableOf_aligned (mm : MemMgr) (d : Word) (i : Nat) : PageAligned (tableOf mm d i) :=
  base_aligned _

/-! ## A page is taken -/

theorem Taken.grown {mm mm' : MemMgr} {a : Word} (h : Taken mm a mm') : Grown mm mm' where
  cursor := h.cursor
  marks := fun n hn => by rw [h.bits, hn, Bool.or_true]
  pageTable := h.pageTable
  pageDirectory := h.pageDirectory

theorem Taken.marked {mm mm' : MemMgr} {a : Word} (h : Taken mm a mm') : Marked mm' a := by
  simp [Marked, h.bits]

theorem Taken.ne {mm mm' : MemMgr} {a b : Word} (h : Taken mm a mm') (hb : Marked mm b) :
    a ≠ b := by
  rintro rfl
  rw [Marked, h.wasFree] at hb
  cases hb

theorem Taken.read {mm mm' : MemMgr} {a b : Word} (h : Taken mm a mm') (hb : Marked mm b)
    (hal : PageAligned b) {i : Nat} (hi : i < 1024) :
    readWord mm'.mem b i = readWord mm.mem b i := by
  rw [h.mem, readWord_memset h.aligned hal hi, if_neg (h.ne hb)]

theorem Taken.read_new {mm mm' : MemMgr} {a : Word} (h : Taken mm a mm') {i : Nat}
    (hi : i < 1024) : readWord mm'.mem a i = 0 := by
  rw [h.mem, readWord_memset h.aligned h.aligned hi, if_pos rfl]

theorem Taken.tableOf {mm mm' : MemMgr} {a d : Word} {dirs : List Word}
    (h : Taken mm a mm') (hs : Spaces mm dirs) (hd : d ∈ dirs) {i : Nat} (hi : i < 1024) :
    tableOf mm' d i = tableOf mm d i := by
  rw [SpKernel.tableOf, h.read (hs.marked d hd) (hs.aligned d hd) hi, SpKernel.tableOf]

theorem Taken.spaces {mm mm' : MemMgr} {a : Word} {dirs : List Word}
    (h : Taken mm a mm') (hs : Spaces mm dirs) : Spaces mm' dirs :=
  hs.of_tables h.grown fun _ hd _ hi => h.tableOf hs hd hi

theorem Taken.phys {mm mm' : MemMgr} {a d : Word} {dirs : List Word}
    (h : Taken mm a mm') (hs : Spaces mm dirs) (hd : d ∈ dirs) (v : Word) :
    getPhysAddress mm' d v = getPhysAddress mm d v := by
  simp only [getPhysAddress, h.tableOf hs hd (pdeIndex_lt v)]
  split
  · rfl
  · rename_i hne
    rw [h.read (hs.table d hd _ (pdeIndex_lt v) hne).1 (tableOf_aligned ..) (pteIndex_lt v)]

/-! ## A table is linked -/

/-- What `dEntry` leaves: the entry is the table of `v`'s slot, and no
translation of any address space has changed. -/
structure Linked (dirs : List Word) (d v entry : Word) (mm mm' : MemMgr) : Prop where
  grown : Grown mm mm'
  spaces : Spaces mm' dirs
  slot : tableOf mm' d (pdeIndex v) = entry
  slotNull : entry ≠ 0
  phys : ∀ d' ∈ dirs, ∀ a, getPhysAddress mm' d' a = getPhysAddress mm d' a

section Link

variable {mm mm₁ : MemMgr} {dirs : List Word} {d t : Word} {i : Nat}

/-- The tables after a fresh page `t` was written into slot `i` of `d`. -/
theorem tableOf_link (hs : Spaces mm dirs) (ht : Taken mm t mm₁) (hd : d ∈ dirs)
    (hi : i < 1024) {d' : Word} (hd' : d' ∈ dirs) {i' : Nat} (hi' : i' < 1024) :
    tableOf { mm₁ with mem := writeWord mm₁.mem d i (t ||| pageFlags) } d' i'
      = if d = d' ∧ i = i' then t else tableOf mm d' i' := by
  simp only [tableOf]
  rw [readWord_writeWord (hs.aligned d hd) (hs.aligned d' hd') hi hi']
  split
  · exact base_or_flags ht.aligned
  · rw [ht.read (hs.marked d' hd') (hs.aligned d' hd') hi']

theorem spaces_link (hs : Spaces mm dirs) (ht : Taken mm t mm₁) (hd : d ∈ dirs)
    (hi : i < 1024) (h0 : tableOf mm d i = 0) :
    Spaces { mm₁ with mem := writeWord mm₁.mem d i (t ||| pageFlags) } dirs := by
  have hslot : i ≠ 0 := by
    rintro rfl
    rw [hs.first d hd] at h0
    exact hs.sharedNull h0
  have hg := ht.grown
  have hnew : ∀ d' ∈ dirs, ∀ i' < 1024, tableOf mm d' i' ≠ t := by
    intro d' hd' i' hi' he
    have hne : tableOf mm d' i' ≠ 0 := he ▸ fun hz => ht.ne hs.zero hz
    exact ht.ne (hs.table d' hd' i' hi' hne).1 he.symm
  refine ⟨hg.cursor, hg.marks _ hs.zero, ?_, ?_, hs.aligned,
    fun d' hd' => hg.marks _ (hs.marked d' hd'), ?_, ?_, ?_⟩
  · exact hg.pageTable ▸ hg.marks _ hs.shared
  · exact hg.pageTable ▸ hs.sharedNull
  · intro d' hd'
    rw [tableOf_link hs ht hd hi hd' (by decide), if_neg fun hc => hslot hc.2, hs.first d' hd']
    exact congrArg base hg.pageTable.symm
  · intro d' hd' i' hi'
    rw [tableOf_link hs ht hd hi hd' hi']
    split
    · exact fun _ => ⟨ht.marked, fun hc => ht.ne (hs.marked t hc) rfl⟩
    · exact fun hne => ⟨hg.marks _ (hs.table d' hd' i' hi' hne).1,
        (hs.table d' hd' i' hi' hne).2⟩
  · intro d₁ hd₁ d₂ hd₂ i₁ hi₁ i₂ hi₂
    rw [tableOf_link hs ht hd hi hd₁ hi₁, tableOf_link hs ht hd hi hd₂ hi₂]
    split
    · rename_i h₁
      split
      · rename_i h₂
        exact fun _ _ => .inr ⟨h₁.1.symm.trans h₂.1, h₁.2.symm.trans h₂.2⟩
      · exact fun _ he => absurd he.symm (hnew d₂ hd₂ i₂ hi₂)
    · split
      · exact fun _ he => absurd he (hnew d₁ hd₁ i₁ hi₁)
      · exact hs.apart d₁ hd₁ d₂ hd₂ i₁ hi₁ i₂ hi₂

theorem phys_link (hs : Spaces mm dirs) (ht : Taken mm t mm₁) (hd : d ∈ dirs)
    (hi : i < 1024) (h0 : tableOf mm d i = 0) {d' : Word} (hd' : d' ∈ dirs) (a : Word) :
    getPhysAddress { mm₁ with mem := writeWord mm₁.mem d i (t ||| pageFlags) } d' a
      = getPhysAddress mm d' a := by
  have hal := hs.aligned d hd
  simp only [getPhysAddress, tableOf_link hs ht hd hi hd' (pdeIndex_lt a)]
  by_cases hslot : d = d' ∧ i = pdeIndex a
  · -- the new table is empty, so its slot still translates to NULL
    obtain ⟨rfl, rfl⟩ := hslot
    have htd : d ≠ t := fun he => ht.ne (he ▸ hs.marked d hd) rfl
    rw [h0, if_pos (⟨rfl, rfl⟩ : d = d ∧ _), if_neg (ht.ne hs.zero), if_pos rfl,
      readWord_writeWord hal ht.aligned hi (pteIndex_lt a), if_neg fun hc => htd hc.1,
      ht.read_new (pteIndex_lt a)]
    decide
  · rw [if_neg hslot]
    split
    · rfl
    · rename_i hne
      obtain ⟨hm, hnot⟩ := hs.table d' hd' _ (pdeIndex_lt a) hne
      have hdt : d ≠ tableOf mm d' (pdeIndex a) := fun he => hnot (he ▸ hd)
      rw [readWord_writeWord hal (tableOf_aligned ..) hi (pteIndex_lt a),
        if_neg fun hc => hdt hc.1, ht.read hm (tableOf_aligned ..) (pteIndex_lt a)]

end Link

theorem dEntry_spec {mm mm' : MemMgr} {dirs : List Word} {d v entry : Word}
    (hs : Spaces mm dirs) (hd : d ∈ dirs) (h : dEntry mm d v = .ok (entry, mm')) :
    Linked dirs d v entry mm mm' := by
  have hi := pdeIndex_lt v
  rw [dEntry] at h
  dsimp only at h
  split at h
  · rename_i h0
    obtain ⟨⟨t, mm₁⟩, hget, hok⟩ := bind_eq_ok.mp h
    have ht := taken_of_ok hs.cursor hget
    obtain ⟨rfl, rfl⟩ := Prod.mk.inj (Except.ok.inj hok)
    refine ⟨ht.grown.setMem _, spaces_link hs ht hd hi h0, ?_, ht.ne hs.zero,
      fun d' hd' a => phys_link hs ht hd hi h0 hd' a⟩
    rw [tableOf_link hs ht hd hi hd hi, if_pos ⟨rfl, rfl⟩]
  · rename_i h0
    obtain ⟨rfl, rfl⟩ := Prod.mk.inj (Except.ok.inj h)
    exact ⟨hs.grown, hs, rfl, h0, fun _ _ _ => rfl⟩

/-! ## An entry is written -/

/-- One page of `d` has been mapped: `v`'s page to `p`. Slot 0 is shared,
so a page there changes in every address space. -/
structure Mapped (dirs : List Word) (d v p : Word) (mm mm' : MemMgr) : Prop where
  grown : Grown mm mm'
  spaces : Spaces mm' dirs
  phys : ∀ d' ∈ dirs, ∀ a, getPhysAddress mm' d' a
    = if pageOf a = pageOf v ∧ (d' = d ∨ pdeIndex a = 0) then p else getPhysAddress mm d' a

theorem setEntry_spec {mm : MemMgr} {dirs : List Word} {d v entry p : Word}
    (hs : Spaces mm dirs) (hd : d ∈ dirs) (he : tableOf mm d (pdeIndex v) = entry)
    (h0 : entry ≠ 0) (hp : PageAligned p) :
    Mapped dirs d v p mm (setEntry mm entry v p) := by
  have hi := pdeIndex_lt v
  have hnot : entry ∉ dirs := he ▸ (hs.table d hd _ hi (he ▸ h0)).2
  have hal : PageAligned entry := he ▸ tableOf_aligned ..
  have htab : ∀ d' ∈ dirs, ∀ i < 1024,
      tableOf (setEntry mm entry v p) d' i = tableOf mm d' i := by
    intro d' hd' i hi'
    simp only [tableOf, setEntry]
    rw [readWord_writeWord hal (hs.aligned d' hd') (pteIndex_lt v) hi', if_neg]
    exact fun hc => hnot (hc.1 ▸ hd')
  have hg : Grown mm (setEntry mm entry v p) := hs.grown.setMem _
  refine ⟨hg, hs.of_tables hg htab, fun d' hd' a => ?_⟩
  have ha := pdeIndex_lt a
  -- the entry written is the one of `a` exactly when the tables agree
  have hhit : entry = tableOf mm d' (pdeIndex a) ∧ pteIndex v = pteIndex a
      ↔ pageOf a = pageOf v ∧ (d' = d ∨ pdeIndex a = 0) := by
    rw [← same_page]
    constructor
    · rintro ⟨htt, hpte⟩
      rcases hs.apart d hd d' hd' _ hi _ ha (he ▸ h0) (he.trans htt) with ⟨hz, hz'⟩ | ⟨rfl, hij⟩
      · exact ⟨⟨hz'.trans hz.symm, hpte.symm⟩, .inr hz'⟩
      · exact ⟨⟨hij.symm, hpte.symm⟩, .inl rfl⟩
    · rintro ⟨⟨hpde, hpte⟩, rfl | hz⟩
      · exact ⟨by rw [← he, hpde], hpte.symm⟩
      · refine ⟨?_, hpte.symm⟩
        rw [← he, ← hpde, hz, hs.first d hd, hs.first d' hd']
  simp only [getPhysAddress, htab d' hd' _ ha]
  rw [show (setEntry mm entry v p).mem = writeWord mm.mem entry (pteIndex v) (p ||| pageFlags)
    from rfl, readWord_writeWord hal (tableOf_aligned ..) (pteIndex_lt v) (pteIndex_lt a)]
  by_cases hc : entry = tableOf mm d' (pdeIndex a) ∧ pteIndex v = pteIndex a
  · rw [if_pos hc, if_pos (hhit.mp hc), if_neg (hc.1 ▸ h0), base_or_flags hp]
  · rw [if_neg hc, if_neg fun hx => hc (hhit.mpr hx)]

/-! ## The loops -/

/-- How many pages after `v` the page of `a` comes, going up and around. -/
def pagesFrom (v a : Word) : Nat := (a - v).toNat / 4096

/-- The number of pages from an aligned location up to `done`. -/
def pagesUpTo (start done : Word) : Nat := (done.toNat - start.toNat + 4095) / 4096

/-- `n` pages of `d` have been mapped from `v` on, the `k`-th to `img k`. -/
structure MappedRange (dirs : List Word) (d v : Word) (n : Nat) (img : Nat → Word)
    (mm mm' : MemMgr) : Prop where
  grown : Grown mm mm'
  spaces : Spaces mm' dirs
  phys : ∀ d' ∈ dirs, ∀ a, getPhysAddress mm' d' a
    = if pagesFrom v a < n ∧ (d' = d ∨ pdeIndex a = 0) then img (pagesFrom v a)
      else getPhysAddress mm d' a

theorem MappedRange.nil {mm : MemMgr} {dirs : List Word} {d v : Word} {img : Nat → Word}
    (hs : Spaces mm dirs) : MappedRange dirs d v 0 img mm mm :=
  ⟨hs.grown, hs, fun _ _ _ => by simp⟩

theorem pagesFrom_next {v a : Word} (hv : PageAligned v) :
    pagesFrom v a = 0 ∧ pagesFrom (v + 4096#32) a = 2 ^ 20 - 1 ∧ pageOf a = pageOf v
    ∨ pagesFrom v a = pagesFrom (v + 4096#32) a + 1 ∧ pageOf a ≠ pageOf v := by
  have h1 := v.isLt
  have h2 := a.isLt
  unfold PageAligned at hv
  unfold pagesFrom pageOf
  simp only [BitVec.toNat_sub, BitVec.toNat_add, BitVec.toNat_ofNat]
  omega

theorem MappedRange.cons {mm mm₁ mm' : MemMgr} {dirs : List Word} {d v p : Word} {n : Nat}
    {img : Nat → Word} (hv : PageAligned v) (hn : n < 2 ^ 20)
    (hfirst : Mapped dirs d v p mm mm₁)
    (hrest : MappedRange dirs d (v + 4096#32) n (fun k => img (k + 1)) mm₁ mm')
    (himg : img 0 = p) : MappedRange dirs d v (n + 1) img mm mm' := by
  refine ⟨hfirst.grown.trans hrest.grown, hrest.spaces, fun d' hd' a => ?_⟩
  rw [hrest.phys d' hd' a, hfirst.phys d' hd' a]
  rcases pagesFrom_next (a := a) hv with ⟨h0, hlast, hp⟩ | ⟨hs, hp⟩
  · rw [if_neg (by omega), h0, himg]
    simp [hp]
  · rw [hs]
    by_cases hlt : pagesFrom (v + 4096#32) a < n
    · simp [hlt, hp]
    · simp [hlt, hp]

section Loops

variable {dirs : List Word} {d done : Word}

/-- A loop whose end lies in the last page of the address space has no
end: every aligned location is below it. -/
theorem below_top {done p : Word} (hdone : 0xFFFFF000 < done.toNat) (hp : PageAligned p) :
    p < done := by
  have := p.isLt
  unfold PageAligned at hp
  rw [BitVec.lt_def]
  omega

theorem aligned_next {p : Word} (hp : PageAligned p) : PageAligned (p + 4096#32) := by
  unfold PageAligned at hp ⊢
  rw [BitVec.toNat_add, BitVec.toNat_ofNat]
  omega

theorem mapPlain_stuck (hdone : 0xFFFFF000 < done.toNat) :
    ∀ fuel mm p v mm', PageAligned p → mapPlain d done fuel mm p v ≠ .ok mm'
  | 0, _, _, _, _, _ => nofun
  | fuel + 1, mm, p, v, mm', hp => by
      intro h
      rw [mapPlain, if_pos (below_top hdone hp)] at h
      obtain ⟨⟨entry, mm₁⟩, -, hrec⟩ := bind_eq_ok.mp h
      exact mapPlain_stuck hdone fuel _ _ _ _ (aligned_next hp) hrec

theorem mapFree_stuck (hdone : 0xFFFFF000 < done.toNat) :
    ∀ fuel mm v mm', PageAligned v → mapFree d done fuel mm v ≠ .ok mm'
  | 0, _, _, _, _ => nofun
  | fuel + 1, mm, v, mm', hv => by
      intro h
      rw [mapFree, if_pos (below_top hdone hv)] at h
      obtain ⟨⟨entry, mm₁⟩, -, h⟩ := bind_eq_ok.mp h
      obtain ⟨⟨p, mm₂⟩, -, hrec⟩ := bind_eq_ok.mp h
      exact mapFree_stuck hdone fuel _ _ _ (aligned_next hv) hrec

/-- Below the top, one round takes one page off the rest. -/
theorem pagesUpTo_next {p done : Word} (hdone : done.toNat ≤ 0xFFFFF000)
    (hp : PageAligned p) (hlt : p < done) :
    pagesUpTo p done = pagesUpTo (p + 4096#32) done + 1
    ∧ (p + 4096#32).toNat = p.toNat + 4096 ∧ pagesUpTo p done ≤ 2 ^ 20 := by
  have h1 := p.isLt
  rw [BitVec.lt_def] at hlt
  unfold PageAligned at hp
  unfold pagesUpTo
  rw [BitVec.toNat_add, BitVec.toNat_ofNat]
  omega

theorem mapPlain_spec (hd : d ∈ dirs) :
    ∀ fuel mm p v mm', Spaces mm dirs → PageAligned p → PageAligned v →
      mapPlain d done fuel mm p v = .ok mm' →
      MappedRange dirs d v (pagesUpTo p done) (fun k => p + BitVec.ofNat 32 (4096 * k)) mm mm'
  | 0, _, _, _, _, _, _, _, h => by cases h
  | fuel + 1, mm, p, v, mm', hs, hp, hv, h => by
      by_cases hdone : 0xFFFFF000 < done.toNat
      · exact absurd h (mapPlain_stuck hdone _ _ _ _ _ hp)
      rw [mapPlain] at h
      split at h
      · rename_i hlt
        obtain ⟨hn, hnext, hle⟩ := pagesUpTo_next (by omega) hp hlt
        obtain ⟨⟨entry, mm₁⟩, hent, hrec⟩ := bind_eq_ok.mp h
        have hl := dEntry_spec hs hd hent
        have hm := setEntry_spec hl.spaces hd hl.slot hl.slotNull hp (v := v)
        have hfirst : Mapped dirs d v p mm (setEntry mm₁ entry v p) :=
          ⟨hl.grown.trans hm.grown, hm.spaces, fun d' hd' a => by
            rw [hm.phys d' hd' a, hl.phys d' hd' a]⟩
        have hrest := mapPlain_spec hd fuel _ _ _ _ hm.spaces (aligned_next hp)
          (aligned_next hv) hrec
        rw [hn]
        refine .cons hv (by omega) hfirst ?_ (BitVec.add_zero p)
        have himg : (fun k => p + 4096#32 + BitVec.ofNat 32 (4096 * k))
            = fun k => p + BitVec.ofNat 32 (4096 * (k + 1)) := by
          funext k
          rw [BitVec.add_assoc, ← BitVec.ofNat_add, Nat.mul_add, Nat.add_comm]
        exact himg ▸ hrest
      · rename_i hge
        obtain rfl := Except.ok.inj h
        have hz : pagesUpTo p done = 0 := by
          rw [BitVec.lt_def] at hge
          unfold pagesUpTo
          omega
        exact hz ▸ .nil hs

/-- The pages of the second loop: pairwise distinct, and free before. -/
structure FreshPages (mm : MemMgr) (n : Nat) (img : Nat → Word) : Prop where
  aligned : ∀ k < n, PageAligned (img k)
  wasFree : ∀ k < n, patBit mm (pageOf (img k)) = false
  distinct : ∀ j < n, ∀ k < n, img j = img k → j = k

/-- Such pages, and that they are in use afterwards. -/
structure Allotted (mm : MemMgr) (n : Nat) (img : Nat → Word) (mm' : MemMgr) : Prop
    extends FreshPages mm n img where
  inUse : ∀ k < n, Marked mm' (img k)

/-- The first page and then the rest, which are free after it. -/
theorem Allotted.cons {mm mm₁ mm' : MemMgr} {n : Nat} {img : Nat → Word} {p : Word}
    (hp : PageAligned p) (hfree : patBit mm (pageOf p) = false) (hmark : Marked mm₁ p)
    (hg : Grown mm mm₁) (hg' : Grown mm₁ mm') (h : Allotted mm₁ n img mm') :
    Allotted mm (n + 1) (fun k => if k = 0 then p else img (k - 1)) mm' := by
  have hlater : ∀ k < n, img k ≠ p := by
    rintro k hk rfl
    have := h.wasFree k hk
    rw [hmark] at this
    cases this
  have hbefore : ∀ a, patBit mm₁ a = false → patBit mm a = false := by
    intro a ha
    by_contra hc
    rw [hg.marks a (Bool.not_eq_false _ ▸ hc)] at ha
    cases ha
  refine ⟨⟨?_, ?_, ?_⟩, ?_⟩
  · intro k hk
    cases k with
    | zero => exact hp
    | succ k => exact h.aligned k (by omega)
  · intro k hk
    cases k with
    | zero => exact hfree
    | succ k => exact hbefore _ (h.wasFree k (by omega))
  · intro j hj k hk he
    cases j with
    | zero =>
        cases k with
        | zero => rfl
        | succ k => exact absurd he.symm (hlater k (by omega))
    | succ j =>
        cases k with
        | zero => exact absurd he (hlater j (by omega))
        | succ k => rw [h.distinct j (by omega) k (by omega) he]
  · intro k hk
    cases k with
    | zero => exact hg'.marks _ hmark
    | succ k => exact h.inUse k (by omega)

theorem mapFree_spec (hd : d ∈ dirs) :
    ∀ fuel mm v mm', Spaces mm dirs → PageAligned v →
      mapFree d done fuel mm v = .ok mm' →
      ∃ img, Allotted mm (pagesUpTo v done) img mm'
        ∧ MappedRange dirs d v (pagesUpTo v done) img mm mm'
  | 0, _, _, _, _, _, h => by cases h
  | fuel + 1, mm, v, mm', hs, hv, h => by
      by_cases hdone : 0xFFFFF000 < done.toNat
      · exact absurd h (mapFree_stuck hdone _ _ _ _ hv)
      rw [mapFree] at h
      split at h
      · rename_i hlt
        obtain ⟨hn, hnext, hle⟩ := pagesUpTo_next (by omega) hv hlt
        obtain ⟨⟨entry, mm₁⟩, hent, h⟩ := bind_eq_ok.mp h
        obtain ⟨⟨p, mm₂⟩, hget, hrec⟩ := bind_eq_ok.mp h
        have hl := dEntry_spec hs hd hent
        have ht := taken_of_ok hl.spaces.cursor hget
        have hs₂ := ht.spaces hl.spaces
        have hm := setEntry_spec hs₂ hd (v := v)
          ((ht.tableOf hl.spaces hd (pdeIndex_lt v)).trans hl.slot) hl.slotNull ht.aligned
        have hg := (hl.grown.trans ht.grown).trans hm.grown
        have hfirst : Mapped dirs d v p mm (setEntry mm₂ entry v p) :=
          ⟨hg, hm.spaces, fun d' hd' a => by
            rw [hm.phys d' hd' a, ht.phys hl.spaces hd', hl.phys d' hd' a]⟩
        obtain ⟨img, hfresh, hrest⟩ := mapFree_spec hd fuel _ _ _ hm.spaces
          (aligned_next hv) hrec
        have hp : patBit mm (pageOf p) = false := by
          by_contra hc
          have := hl.grown.marks _ (Bool.not_eq_false _ ▸ hc)
          rw [ht.wasFree] at this
          cases this
        rw [hn]
        refine ⟨fun k => if k = 0 then p else img (k - 1), ?_, ?_⟩
        · exact .cons ht.aligned hp (hm.grown.marks _ ht.marked) hg hrest.grown hfresh
        · exact .cons hv (by omega) hfirst hrest rfl
      · rename_i hge
        obtain rfl := Except.ok.inj h
        have hz : pagesUpTo v done = 0 := by
          rw [BitVec.lt_def] at hge
          unfold pagesUpTo
          omega
        rw [hz]
        exact ⟨fun _ => 0, ⟨⟨nofun, nofun, nofun⟩, nofun⟩, .nil hs⟩

end Loops

/-! ## The calls -/

/-- Everything a `_k_mmap` that returns can have done. -/
theorem kMmap_cases {mm mm' : MemMgr} {dirs : List Word} {d v p len r : Word} {st : Status}
    (hs : Spaces mm dirs) (hd : d ∈ dirs) (h : kMmap mm d v p len = .ok (r, st, mm')) :
    (st = .failure ∧ mm' = mm ∧ ¬(PageAligned v ∧ PageAligned p))
    ∨ (st = .success ∧ d ≠ mm.pageDirectory ∧ secondPde ≤ v ∧ PageAligned v ∧ PageAligned p
      ∧ (p ≠ 0 ∧ MappedRange dirs d v (pagesUpTo p (p + len))
          (fun k => p + BitVec.ofNat 32 (4096 * k)) mm mm'
        ∨ p = 0 ∧ ∃ img, Allotted mm (pagesUpTo v (v + len)) img mm'
          ∧ MappedRange dirs d v (pagesUpTo v (v + len)) img mm mm')) := by
  rw [kMmap] at h
  split at h
  · cases h
  rename_i hguard
  obtain ⟨hdir, hlow⟩ := not_or.mp hguard
  have hmask : (v ||| p) &&& 0xFFF#32 = 0#32 ↔ PageAligned v ∧ PageAligned p := by
    rw [BitVec.and_or_distrib_right, BitVec.or_eq_zero_iff, aligned_iff, aligned_iff]
  split at h
  · rename_i hal
    obtain ⟨-, hok⟩ := Prod.mk.inj (Except.ok.inj h)
    obtain ⟨rfl, rfl⟩ := Prod.mk.inj hok
    exact .inl ⟨rfl, rfl, fun hc => hal (hmask.mpr hc)⟩
  rename_i hal
  have hal := hmask.mp (not_not.mp hal)
  have hv : secondPde ≤ v := BitVec.not_lt.mp hlow
  split at h
  · rename_i hp
    obtain ⟨mm₁, hloop, hok⟩ := bind_eq_ok.mp h
    obtain ⟨-, hok⟩ := Prod.mk.inj (Except.ok.inj hok)
    obtain ⟨rfl, rfl⟩ := Prod.mk.inj hok
    exact .inr ⟨rfl, hdir, hv, hal.1, hal.2, .inl ⟨hp,
      mapPlain_spec hd _ _ _ _ _ hs hal.2 hal.1 hloop⟩⟩
  · rename_i hp
    obtain ⟨mm₁, hloop, hok⟩ := bind_eq_ok.mp h
    obtain ⟨-, hok⟩ := Prod.mk.inj (Except.ok.inj hok)
    obtain ⟨rfl, rfl⟩ := Prod.mk.inj hok
    exact .inr ⟨rfl, hdir, hv, hal.1, hal.2, .inr ⟨not_not.mp hp,
      mapFree_spec hd _ _ _ _ hs hal.1 hloop⟩⟩

theorem kMmap_spaces {mm mm' : MemMgr} {dirs : List Word} {d v p len r : Word} {st : Status}
    (hs : Spaces mm dirs) (hd : d ∈ dirs) (h : kMmap mm d v p len = .ok (r, st, mm')) :
    Grown mm mm' ∧ Spaces mm' dirs := by
  rcases kMmap_cases hs hd h with ⟨-, rfl, -⟩ | ⟨-, -, -, -, -, ⟨-, hm⟩ | ⟨-, img, -, hm⟩⟩
  · exact ⟨hs.grown, hs⟩
  · exact ⟨hm.grown, hm.spaces⟩
  · exact ⟨hm.grown, hm.spaces⟩

/-- What `new_page_directory` leaves: `d` was a free page, has the shared
table and nothing else, and marked pages keep their content. -/
structure NewSpace (mm : MemMgr) (d : Word) (mm' : MemMgr) : Prop where
  grown : Grown mm mm'
  aligned : PageAligned d
  wasFree : ¬Marked mm d
  marked : Marked mm' d
  tables : ∀ i < 1024, tableOf mm' d i = if i = 0 then base mm.pageTable else 0
  read : ∀ b i, PageAligned b → i < 1024 → Marked mm b →
    readWord mm'.mem b i = readWord mm.mem b i

theorem newPageDirectory_spec {mm mm' : MemMgr} {d : Word} (hlast : mm.lastAvailible < patSize)
    (h : newPageDirectory mm = .ok (d, mm')) : NewSpace mm d mm' := by
  obtain ⟨⟨pde, mm₁⟩, hget, hok⟩ := bind_eq_ok.mp h
  obtain ⟨rfl, rfl⟩ := Prod.mk.inj (Except.ok.inj hok)
  have ht := taken_of_ok hlast hget
  refine ⟨ht.grown.setMem _, ht.aligned, fun hm => ht.ne hm rfl, ht.marked, ?_, ?_⟩
  · intro i hi
    simp only [tableOf]
    rw [readWord_writeWord ht.aligned ht.aligned (by decide) hi,
      readWord_memset ht.aligned ht.aligned hi, ht.pageTable]
    by_cases h0 : i = 0
    · simp [h0]
    · simp only [h0, Ne.symm h0, and_false, ↓reduceIte]
      decide
  · intro b i hb hi hm
    have hne : pde ≠ b := ht.ne hm
    rw [readWord_writeWord ht.aligned hb (by decide) hi, if_neg fun hc => hne hc.1,
      readWord_memset ht.aligned hb hi, if_neg hne, ht.read hm hb hi]

section New

variable {mm mm' : MemMgr} {dirs : List Word} {d : Word}

theorem NewSpace.tableOf_old (h : NewSpace mm d mm') (hs : Spaces mm dirs) {d' : Word}
    (hd' : d' ∈ dirs) {i : Nat} (hi : i < 1024) : tableOf mm' d' i = tableOf mm d' i :=
  congrArg base (h.read d' i (hs.aligned d' hd') hi (hs.marked d' hd'))

theorem Spaces.shared_not_mem (hs : Spaces mm dirs) : base mm.pageTable ∉ dirs := by
  intro hin
  have h0 : tableOf mm (base mm.pageTable) 0 = base mm.pageTable := hs.first _ hin
  have hnot := (hs.table _ hin 0 (by decide) (h0.symm ▸ hs.sharedNull)).2
  exact hnot (h0.symm ▸ hin)

/-- A table of the new space is the shared one, in slot 0, wherever else
it occurs. -/
theorem NewSpace.apart (h : NewSpace mm d mm') (hs : Spaces mm dirs) {d' : Word}
    (hd' : d' ∈ d :: dirs) {i i' : Nat} (hi : i < 1024) (hi' : i' < 1024)
    (hne : tableOf mm' d i ≠ 0) (he : tableOf mm' d i = tableOf mm' d' i') :
    i = 0 ∧ i' = 0 := by
  have hi0 : i = 0 := by
    by_contra hc
    rw [h.tables i hi, if_neg hc] at hne
    exact hne rfl
  refine ⟨hi0, ?_⟩
  rcases List.mem_cons.mp hd' with rfl | hin
  · by_contra hc
    rw [he, h.tables i' hi', if_neg hc] at hne
    exact hne rfl
  · rw [hi0, h.tables 0 (by decide), if_pos rfl, h.tableOf_old hs hin hi',
      ← hs.first d' hin] at he
    have h0 : tableOf mm d' 0 ≠ 0 := hs.first d' hin ▸ hs.sharedNull
    rcases hs.apart d' hin d' hin 0 (by decide) i' hi' h0 he with hz | hz
    · exact hz.2
    · exact hz.2.symm

theorem NewSpace.spaces (h : NewSpace mm d mm') (hs : Spaces mm dirs) :
    Spaces mm' (d :: dirs) := by
  have hs' := hs.of_tables h.grown fun _ hd' _ hi => h.tableOf_old hs hd' hi
  have hpt := h.grown.pageTable
  have hnot : ∀ b, Marked mm b → b ∉ dirs → b ∉ d :: dirs := by
    intro b hb hin hmem
    rcases List.mem_cons.mp hmem with rfl | hmem
    · exact h.wasFree hb
    · exact hin hmem
  refine ⟨hs'.cursor, hs'.zero, hs'.shared, hs'.sharedNull, ?_, ?_, ?_, ?_, ?_⟩
  · exact List.forall_mem_cons.mpr ⟨h.aligned, hs'.aligned⟩
  · exact List.forall_mem_cons.mpr ⟨h.marked, hs'.marked⟩
  · refine List.forall_mem_cons.mpr ⟨?_, hs'.first⟩
    rw [h.tables 0 (by decide), if_pos rfl, hpt]
  · refine List.forall_mem_cons.mpr ⟨fun i hi => ?_, fun d' hd' i hi hne => ?_⟩
    · rw [h.tables i hi]
      split
      · exact fun _ => ⟨h.grown.marks _ hs.shared, hnot _ hs.shared hs.shared_not_mem⟩
      · exact fun hz => absurd rfl hz
    · refine ⟨(hs'.table d' hd' i hi hne).1, hnot _ ?_ (hs'.table d' hd' i hi hne).2⟩
      rw [h.tableOf_old hs hd' hi] at hne ⊢
      exact (hs.table d' hd' i hi hne).1
  · intro d₁ hd₁ d₂ hd₂ i₁ hi₁ i₂ hi₂ hne he
    rcases List.mem_cons.mp hd₁ with rfl | hin₁
    · exact .inl (h.apart hs hd₂ hi₁ hi₂ hne he)
    · rcases List.mem_cons.mp hd₂ with rfl | hin₂
      · exact .inl (h.apart hs hd₁ hi₂ hi₁ (he ▸ hne) he.symm).symm
      · exact hs'.apart d₁ hin₁ d₂ hin₂ i₁ hi₁ i₂ hi₂ hne he

theorem NewSpace.phys_old (h : NewSpace mm d mm') (hs : Spaces mm dirs) {d' : Word}
    (hd' : d' ∈ dirs) (v : Word) : getPhysAddress mm' d' v = getPhysAddress mm d' v := by
  simp only [getPhysAddress, h.tableOf_old hs hd' (pdeIndex_lt v)]
  split
  · rfl
  · rename_i hne
    rw [h.read _ _ (tableOf_aligned ..) (pteIndex_lt v)
      (hs.table d' hd' _ (pdeIndex_lt v) hne).1]

end New

/-! ## Sequences of calls -/

/-- The allocator gives neither page 0 nor the shared table away. -/
structure Ready (mm : MemMgr) : Prop where
  cursor : mm.lastAvailible < patSize
  zero : Marked mm 0
  shared : Marked mm (base mm.pageTable)
  sharedNull : base mm.pageTable ≠ 0

/-- From `mm₀` on, address spaces are created and mapped into in any
order; `take` is a page that goes to some other client. -/
inductive SpaceRun (mm₀ : MemMgr) : MemMgr → List Word → Prop
  | start : SpaceRun mm₀ mm₀ []
  | new {mm mm' : MemMgr} {dirs : List Word} {d : Word} :
      SpaceRun mm₀ mm dirs → newPageDirectory mm = .ok (d, mm') →
      SpaceRun mm₀ mm' (d :: dirs)
  | mmap {mm mm' : MemMgr} {dirs : List Word} {d v p len r : Word} {st : Status} :
      SpaceRun mm₀ mm dirs → d ∈ dirs → kMmap mm d v p len = .ok (r, st, mm') →
      SpaceRun mm₀ mm' dirs
  | take {mm mm' : MemMgr} {dirs : List Word} {a : Word} :
      SpaceRun mm₀ mm dirs → getNextPage mm = .ok (a, mm') → SpaceRun mm₀ mm' dirs

theorem SpaceRun.spaces {mm₀ mm : MemMgr} {dirs : List Word} (h0 : Ready mm₀)
    (h : SpaceRun mm₀ mm dirs) : Spaces mm dirs := by
  induction h with
  | start =>
      exact ⟨h0.cursor, h0.zero, h0.shared, h0.sharedNull, nofun, nofun, nofun, nofun, nofun⟩
  | new _ hnew ih => exact (newPageDirectory_spec ih.cursor hnew).spaces ih
  | mmap _ hd hmap ih => exact (kMmap_spaces ih hd hmap).2
  | take _ hget ih => exact (taken_of_ok ih.cursor hget).spaces ih

/-- A successful `_k_mmap` changes the flat map of its address space at
the pages its loop visits, and only there: `n` pages from `v` on, going
around at the top, to the pages from `p` on or to fresh ones. -/
theorem mmap_refines_flat_map {mm₀ mm mm' : MemMgr} {dirs : List Word} {d v p len r : Word}
    (h0 : Ready mm₀) (hrun : SpaceRun mm₀ mm dirs) (hd : d ∈ dirs)
    (hmap : kMmap mm d v p len = .ok (r, .success, mm')) :
    if p ≠ 0 then
      ∀ a, getPhysAddress mm' d a
        = if pagesFrom v a < pagesUpTo p (p + len)
          then p + BitVec.ofNat 32 (4096 * pagesFrom v a)
          else getPhysAddress mm d a
    else
      ∃ img, FreshPages mm (pagesUpTo v (v + len)) img ∧ ∀ a, getPhysAddress mm' d a
        = if pagesFrom v a < pagesUpTo v (v + len) then img (pagesFrom v a)
          else getPhysAddress mm d a := by
  rcases kMmap_cases (hrun.spaces h0) hd hmap with
    ⟨hst, -⟩ | ⟨-, -, -, -, -, ⟨hp, hm⟩ | ⟨rfl, img, hfresh, hm⟩⟩
  · cases hst
  · rw [if_pos hp]
    intro a
    rw [hm.phys d hd a]
    simp
  · rw [if_neg (by simp)]
    refine ⟨img, hfresh.toFreshPages, fun a => ?_⟩
    rw [hm.phys d hd a]
    simp

/-- Pages 0 and 1 are in use, the second by the shared table. -/
def twoPagesUsed : MemMgr where
  mem := fun _ => 0
  pat := Function.update (fun _ => 0) 0 3
  lastAvailible := 0
  pageDirectory := 0xFFFFF000
  pageTable := 0x1003
  lastPde := 0
  cr3 := 0

theorem mmap_refines_flat_map_page :
    ∃ d mm mm', newPageDirectory twoPagesUsed = .ok (d, mm)
      ∧ kMmap mm d 0x400000 0x100000 4096 = .ok (0x400000, .success, mm')
      ∧ getPhysAddress mm' d 0x400123 = 0x100000
      ∧ getPhysAddress mm' d 0x401000 = getPhysAddress mm d 0x401000 := by
  have h0 : Ready twoPagesUsed := ⟨by decide, by decide, by decide, by decide⟩
  obtain ⟨d, mm, hnew, mm', hmap⟩ : ∃ d mm, newPageDirectory twoPagesUsed = .ok (d, mm)
      ∧ ∃ mm', kMmap mm d 0x400000 0x100000 4096 = .ok (0x400000, .success, mm') :=
    ⟨_, _, rfl, _, rfl⟩
  have h := mmap_refines_flat_map h0 (.new .start hnew) (List.mem_cons_self ..) hmap
  rw [if_pos (by decide)] at h
  refine ⟨d, mm, mm', hnew, hmap, ?_, ?_⟩
  · rw [h, if_pos (by decide)]
    decide
  · rw [h, if_neg (by decide)]

/-! ## Success and the requested range -/

/-- Every page of the requested range translates: to the page as far from
`p`, or to a page that was free before. -/
def WholeRange (mm mm' : MemMgr) (d v p len : Word) : Prop :=
  ∀ k : Nat, 4096 * k < len.toNat →
    getPhysAddress mm' d (v + BitVec.ofNat 32 (4096 * k)) ≠ 0
    ∧ if p ≠ 0 then
        getPhysAddress mm' d (v + BitVec.ofNat 32 (4096 * k)) = p + BitVec.ofNat 32 (4096 * k)
      else
        ¬Marked mm (getPhysAddress mm' d (v + BitVec.ofNat 32 (4096 * k)))
        ∧ Marked mm' (getPhysAddress mm' d (v + BitVec.ofNat 32 (4096 * k)))

/-- The end of the range, computed from `p` or else from `v`, does not
overflow; or there is nothing to do. -/
def RangeFits (mm : MemMgr) (d v p len : Word) : Prop :=
  if p ≠ 0 then p.toNat + len.toNat < 2 ^ 32 ∨ WholeRange mm mm d v p len
  else v.toNat + len.toNat < 2 ^ 32

section Range

variable {start len v : Word}

theorem pagesUpTo_of_fits (h : start.toNat + len.toNat < 2 ^ 32) {k : Nat}
    (hk : 4096 * k < len.toNat) : k < pagesUpTo start (start + len) := by
  rw [pagesUpTo, BitVec.toNat_add]
  omega

theorem pagesUpTo_of_overflow (h : ¬start.toNat + len.toNat < 2 ^ 32) :
    pagesUpTo start (start + len) = 0 := by
  have h1 := start.isLt
  have h2 := len.isLt
  rw [pagesUpTo, BitVec.toNat_add]
  omega

theorem pagesFrom_page {k : Nat} (hk : 4096 * k < len.toNat) :
    pagesFrom v (v + BitVec.ofNat 32 (4096 * k)) = k := by
  have h1 := len.isLt
  rw [pagesFrom, toNat_offset v (by omega)]
  omega

end Range

/-- A call for free pages whose bound overflows does nothing. -/
theorem kMmap_nothing {mm mm' : MemMgr} {d v len r : Word} {st : Status}
    (h : kMmap mm d v 0 len = .ok (r, st, mm')) (hv : ¬v.toNat + len.toNat < 2 ^ 32) :
    mm' = mm := by
  have hdone : ¬v < v + len := by
    have h1 := len.isLt
    have h2 := v.isLt
    rw [BitVec.lt_def, BitVec.toNat_add]
    omega
  rw [kMmap] at h
  split at h
  · cases h
  split at h
  · exact (congrArg (fun x => x.2.2) (Except.ok.inj h)).symm
  rw [if_neg (not_not.mpr rfl), mapFree, if_neg hdone, ok_bind] at h
  exact (congrArg (fun x => x.2.2) (Except.ok.inj h)).symm

section Whole

variable {mm mm' : MemMgr} {dirs : List Word} {d v p len : Word}

theorem wholeRange_plain (hd : d ∈ dirs) (hp : p ≠ 0)
    (hm : MappedRange dirs d v (pagesUpTo p (p + len))
      (fun k => p + BitVec.ofNat 32 (4096 * k)) mm mm') :
    WholeRange mm mm' d v p len
      ↔ p.toNat + len.toNat < 2 ^ 32 ∨ WholeRange mm mm d v p len := by
  by_cases hfit : p.toNat + len.toNat < 2 ^ 32
  · refine iff_of_true (fun k hk => ?_) (.inl hfit)
    have hphys : getPhysAddress mm' d (v + BitVec.ofNat 32 (4096 * k))
        = p + BitVec.ofNat 32 (4096 * k) := by
      rw [hm.phys d hd, pagesFrom_page hk, if_pos ⟨pagesUpTo_of_fits hfit hk, .inl rfl⟩]
    rw [hphys, if_pos hp]
    refine ⟨fun hz => hp ?_, rfl⟩
    have hz' := congrArg BitVec.toNat hz
    rw [BitVec.toNat_add, BitVec.toNat_ofNat, show (0 : Word).toNat = 0 from rfl] at hz'
    exact BitVec.eq_of_toNat_eq (show p.toNat = 0 by omega)
  · have hphys : ∀ a, getPhysAddress mm' d a = getPhysAddress mm d a := by
      intro a
      rw [hm.phys d hd, pagesUpTo_of_overflow hfit,
        if_neg fun hc => absurd hc.1 (Nat.not_lt_zero _)]
    rw [or_iff_right hfit, WholeRange, WholeRange]
    simp only [hphys, if_pos hp]

theorem wholeRange_free (hs : Spaces mm dirs) (hd : d ∈ dirs) {img : Nat → Word}
    (hfit : v.toNat + len.toNat < 2 ^ 32) (hfresh : Allotted mm (pagesUpTo v (v + len)) img mm')
    (hm : MappedRange dirs d v (pagesUpTo v (v + len)) img mm mm') :
    WholeRange mm mm' d v 0 len := by
  intro k hk
  have hlt := pagesUpTo_of_fits hfit hk
  have hfree : ¬Marked mm (img k) := by
    rw [Marked, hfresh.wasFree k hlt]
    decide
  rw [hm.phys d hd, pagesFrom_page hk, if_pos ⟨hlt, .inl rfl⟩, if_neg (not_not.mpr rfl)]
  exact ⟨fun hz => hfree (hz ▸ hs.zero), hfree, hfresh.inUse k hlt⟩

end Whole

/-- A successful `_k_mmap` has mapped the whole range exactly when the sum
that bounds its loop did not overflow, or the range was mapped so
before. -/
theorem mmap_maps_range_iff {mm₀ mm mm' : MemMgr} {dirs : List Word} {d v p len r : Word}
    (h0 : Ready mm₀) (hrun : SpaceRun mm₀ mm dirs) (hd : d ∈ dirs)
    (hmap : kMmap mm d v p len = .ok (r, .success, mm')) :
    WholeRange mm mm' d v p len ↔ RangeFits mm d v p len := by
  have hs := hrun.spaces h0
  rcases kMmap_cases hs hd hmap with
    ⟨hst, -⟩ | ⟨-, -, -, -, -, ⟨hp, hm⟩ | ⟨rfl, img, hfresh, hm⟩⟩
  · cases hst
  · rw [RangeFits, if_pos hp]
    exact wholeRange_plain hd hp hm
  · rw [RangeFits, if_neg (not_not.mpr rfl)]
    refine ⟨fun h => ?_, fun hfit => wholeRange_free hs hd hfit hfresh hm⟩
    by_contra hfit
    obtain rfl := kMmap_nothing hmap hfit
    have hv := v.isLt
    -- no page is both free before and in use after a call that does nothing
    obtain ⟨-, hpage⟩ := h 0 (by omega)
    rw [if_neg (not_not.mpr rfl)] at hpage
    exact hpage.1 hpage.2

theorem mmap_maps_range_page :
    ∃ d mm mm', newPageDirectory twoPagesUsed = .ok (d, mm)
      ∧ kMmap mm d 0x400000 0x100000 4096 = .ok (0x400000, .success, mm')
      ∧ WholeRange mm mm' d 0x400000 0x100000 4096 := by
  have h0 : Ready twoPagesUsed := ⟨by decide, by decide, by decide, by decide⟩
  obtain ⟨d, mm, hnew, mm', hmap⟩ : ∃ d mm, newPageDirectory twoPagesUsed = .ok (d, mm)
      ∧ ∃ mm', kMmap mm d 0x400000 0x100000 4096 = .ok (0x400000, .success, mm') :=
    ⟨_, _, rfl, _, rfl⟩
  refine ⟨d, mm, mm', hnew, hmap, ?_⟩
  refine (mmap_maps_range_iff h0 (.new .start hnew) (List.mem_cons_self ..) hmap).mpr ?_
  rw [RangeFits, if_pos (by decide)]
  exact .inl (by decide)

/-- The range `[0x100000, 2 ^ 32)`: its end is 0, nothing is mapped, and
the call succeeds. -/
theorem mmap_maps_nothing :
    ∃ d mm mm', newPageDirectory twoPagesUsed = .ok (d, mm)
      ∧ kMmap mm d 0x400000 0x100000 0xFFF00000 = .ok (0x400000, .success, mm')
      ∧ ¬WholeRange mm mm' d 0x400000 0x100000 0xFFF00000 := by
  obtain ⟨d, mm, hnew, mm', hmap, hnull⟩ : ∃ d mm, newPageDirectory twoPagesUsed = .ok (d, mm)
      ∧ ∃ mm', kMmap mm d 0x400000 0x100000 0xFFF00000 = .ok (0x400000, .success, mm')
      ∧ getPhysAddress mm' d 0x400000 = 0 :=
    ⟨_, _, rfl, _, rfl, by decide⟩
  refine ⟨d, mm, mm', hnew, hmap, fun h => ?_⟩
  exact (h 0 (by decide)).1 hnull

end SpKernel
