import SpKernel.MemoryMap

/-!
# The page table of the allocator in memory (`memory_map.c`)

In the source `page_availibility_table` is a pointer into the very memory
that the allocator gives away. `PageMemory` is the allocator with its
table there: a byte of the table is a byte of memory, and the `memset` of
a fresh page goes to the same memory. `SpKernel.Pages` keeps the table
apart, which is what the rest of the development works with.

The two agree exactly as long as no page with a byte of the table on it is
handed out. If all of these pages are marked at the start, every run of
the allocator in memory is a run of the one with the table apart
(`Run.sim`, step by step `getNextPage_sim`), whose properties carry over:
`sound_of_tableMarked`. If one is not, it is handed out sooner or later:
take pages until none is left, give that one back and take it again, and
its `memset` clears the bits of pages that others hold (`Run.exhaust`,
`tableMarked_of_sound`). So the allocator is sound exactly for the tables
that cover themselves, `page_allocator_sound_iff`.

`setup_page_availibility_table` marks a page for every 4096 bytes from the
first byte of the table on. For a table that does not start on a page
boundary this leaves out the page with its last bytes (`unaligned_unsound`).
-/

namespace SpKernel

open Function (update update_self update_of_ne)
open Lib

/-! ## The source -/

/-- Memory, and the variables of the allocator. -/
structure PageMemory where
  mem : Mem
  /-- `page_availibility_table` -/
  table : Word
  lastAvailible : Nat

namespace PageMemory

/-- Where `page_availibility_table[index]` is. -/
def cell (s : PageMemory) (index : Nat) : Word := s.table + BitVec.ofNat 32 index

def setPat (s : PageMemory) (address : Word) (value : Byte) : PageMemory :=
  let index := patIndex address
  let mask := patMask address
  { s with
    mem := update s.mem (s.cell index) ((s.mem (s.cell index) &&& ~~~mask) ||| (value &&& mask)) }

/-- The body of the search from `index` on, as in `SpKernel.searchPage`. -/
def searchPage (s : PageMemory) : Nat → Nat → Except Fault (Word × PageMemory)
  | 0, _ => .error .diverge
  | fuel + 1, index =>
      let byte := s.mem (s.cell index)
      if ~~~byte ≠ 0#8 then
        let address := BitVec.ofNat 32 (index <<< 15 ||| nextFree byte <<< 12)
        let s := setPat s address 0xFF
        .ok (address, { s with
          lastAvailible := index
          mem := memset s.mem address 0 pageSize })
      else
        let index := (index + 1) % patSize
        if index ≠ s.lastAvailible then searchPage s fuel index
        else .error (.panic "No more memory!")

def getNextPage (s : PageMemory) : Except Fault (Word × PageMemory) :=
  searchPage s patSize s.lastAvailible

def freePage (s : PageMemory) (address : Word) : Int × PageMemory :=
  if address &&& 0xFFF#32 ≠ 0#32 then (-1, s) else (0, setPat s address 0)

/-- Is page `n` marked as used? -/
def bit (s : PageMemory) (n : Nat) : Bool := (s.mem (s.cell (n / 8))).getLsbD (n % 8)

/-- Every page with a byte of the table on it is marked. -/
def TableMarked (s : PageMemory) : Prop := ∀ i < patSize, s.bit (pageOf (s.cell i)) = true

end PageMemory

/-! ## Runs -/

/-- The allocator together with the pages its clients hold. -/
structure MemoryAllocator where
  pages : PageMemory
  held : List Word

namespace MemoryAllocator

/-- Calls of `get_next_page` and `free_page` in any order, where
`free_page` is only given pages currently held. -/
inductive Run (s : MemoryAllocator) : MemoryAllocator → Prop
  | refl : Run s s
  | get {t : MemoryAllocator} {a : Word} {pages : PageMemory} :
      Run s t → t.pages.getNextPage = .ok (a, pages) → Run s ⟨pages, a :: t.held⟩
  | free {t : MemoryAllocator} {a : Word} :
      Run s t → a ∈ t.held → Run s ⟨(t.pages.freePage a).2, t.held.erase a⟩

/-- What is asked of one state of a run that began with the table of `s`. -/
structure Sound (s : PageMemory) (t : MemoryAllocator) : Prop where
  nodup : t.held.Nodup
  held : ∀ a ∈ t.held, PageAligned a ∧ t.pages.bit (pageOf a) = true ∧ s.bit (pageOf a) = false
  get : (∃ a pages, t.pages.getNextPage = .ok (a, pages) ∧ PageAligned a ∧ a ∉ t.held
      ∧ s.bit (pageOf a) = false ∧ t.pages.bit (pageOf a) = false
      ∧ pages.bit (pageOf a) = true
      ∧ ∀ n < 2 ^ 20, n ≠ pageOf a → pages.bit n = t.pages.bit n)
    ∨ (t.pages.getNextPage = .error (.panic "No more memory!")
      ∧ ∀ n < 2 ^ 20, t.pages.bit n = true)
  free : ∀ a, if PageAligned a then
      (t.pages.freePage a).1 = 0 ∧ (t.pages.freePage a).2.bit (pageOf a) = false
        ∧ ∀ n < 2 ^ 20, n ≠ pageOf a → (t.pages.freePage a).2.bit n = t.pages.bit n
    else t.pages.freePage a = (-1, t.pages)

end MemoryAllocator

/-! ## The two allocators, side by side -/

namespace PageMemory

/-- The table of `mm` is the one in memory, and the rest of memory is the
same. -/
structure Shows (s : PageMemory) (mm : MemMgr) : Prop where
  pat : ∀ i < patSize, mm.pat i = s.mem (s.cell i)
  cursor : mm.lastAvailible = s.lastAvailible
  rest : ∀ x, (∀ i < patSize, x ≠ s.cell i) → mm.mem x = s.mem x

variable {s : PageMemory} {mm : MemMgr}

/-- The allocator with the table of `s` apart. -/
def apart (s : PageMemory) : MemMgr where
  mem := s.mem
  pat i := s.mem (s.cell i)
  lastAvailible := s.lastAvailible
  pageDirectory := 0
  pageTable := 0
  lastPde := 0
  cr3 := 0

theorem shows_apart (s : PageMemory) : s.Shows s.apart :=
  ⟨fun _ _ => rfl, rfl, fun _ _ => rfl⟩

theorem cell_inj {i j : Nat} (hi : i < patSize) (hj : j < patSize) (h : s.cell i = s.cell j) :
    i = j :=
  offset_inj (by simp only [patSize] at hi; omega) (by simp only [patSize] at hj; omega) h

theorem patIndex_lt (a : Word) : patIndex a < patSize := by
  have h := a.isLt
  rw [patIndex_eq]
  simp only [pageOf, patSize]
  omega

theorem Shows.bit (h : s.Shows mm) {n : Nat} (hn : n < 2 ^ 20) : patBit mm n = s.bit n := by
  rw [patBit, PageMemory.bit, h.pat _ (by simp only [patSize]; omega)]

theorem pageOf_lt (a : Word) : pageOf a < 2 ^ 20 := by
  have h := a.isLt
  simp only [pageOf]
  omega

theorem Shows.setPat (h : s.Shows mm) (a : Word) (v : Byte) :
    (s.setPat a v).Shows (SpKernel.setPat mm a v) where
  cursor := h.cursor
  pat i hi := by
    change update mm.pat (patIndex a) _ i = update s.mem (s.cell (patIndex a)) _ (s.cell i)
    rw [h.pat _ (patIndex_lt a)]
    by_cases he : i = patIndex a
    · rw [he, update_self, update_self]
    · have hne : s.cell i ≠ s.cell (patIndex a) := fun hc => he (cell_inj hi (patIndex_lt a) hc)
      rw [update_of_ne he, update_of_ne hne]
      exact h.pat i hi
  rest x hx := by
    have hx : ∀ i < patSize, x ≠ s.cell i := hx
    change mm.mem x = update s.mem (s.cell (patIndex a)) _ x
    rw [update_of_ne (hx _ (patIndex_lt a))]
    exact h.rest x hx

/-- The `memset` of a page with nothing of the table on it. -/
theorem Shows.memset (h : s.Shows mm) {a : Word} (index : Nat)
    (hapart : ∀ i < patSize, pageOf (s.cell i) ≠ pageOf a) (ha : PageAligned a) :
    ({ s with lastAvailible := index, mem := memset s.mem a 0 pageSize } : PageMemory).Shows
      { mm with lastAvailible := index, mem := memset mm.mem a 0 pageSize } where
  cursor := rfl
  pat i hi := by
    have hout : ¬(s.cell i - a).toNat < pageSize := by
      intro hin
      refine hapart i hi ?_
      have hx : s.cell i = a + BitVec.ofNat 32 (s.cell i - a).toNat := (add_offset a _).symm
      generalize (s.cell i - a).toNat = k at hin hx
      have hlt := a.isLt
      unfold PageAligned at ha
      simp only [pageSize] at hin
      rw [hx, pageOf, pageOf, BitVec.toNat_add, BitVec.toNat_ofNat]
      omega
    change mm.pat i = if (s.cell i - a).toNat < pageSize then 0 else s.mem (s.cell i)
    rw [if_neg hout]
    exact h.pat i hi
  rest x hx := by
    change (if (x - a).toNat < pageSize then 0 else mm.mem x)
      = if (x - a).toNat < pageSize then 0 else s.mem x
    rw [h.rest x hx]

/-- The same search, in a state where the pages of the table are marked. -/
theorem searchPage_sim (h : s.Shows mm) (hmarked : s.TableMarked) :
    ∀ fuel index, index < patSize →
      (∃ e, s.searchPage fuel index = .error e ∧ SpKernel.searchPage mm fuel index = .error e)
      ∨ ∃ a s' mm', s.searchPage fuel index = .ok (a, s')
        ∧ SpKernel.searchPage mm fuel index = .ok (a, mm') ∧ s'.Shows mm' ∧ s'.table = s.table
  | 0, _, _ => .inl ⟨_, rfl, rfl⟩
  | fuel + 1, index, hi => by
      rw [PageMemory.searchPage, SpKernel.searchPage, h.pat index hi, h.cursor]
      by_cases hbyte : ~~~s.mem (s.cell index) ≠ 0#8
      · have hpat : ~~~mm.pat index ≠ 0#8 := by rwa [h.pat index hi]
        obtain ⟨haligned, hfree, -⟩ := take_spec hi hpat
        rw [h.pat index hi] at haligned hfree
        generalize BitVec.ofNat 32 (index <<< 15 ||| nextFree (s.mem (s.cell index)) <<< 12) = a
          at haligned hfree
        rw [h.bit (pageOf_lt a)] at hfree
        have hapart : ∀ i < patSize, pageOf (s.cell i) ≠ pageOf a := fun i hlt he => by
          rw [← he, hmarked i hlt] at hfree
          cases hfree
        rw [if_pos hbyte, if_pos hbyte]
        exact .inr ⟨a, _, _, rfl, rfl, (h.setPat a 0xFF).memset index hapart haligned, rfl⟩
      · rw [if_neg hbyte, if_neg hbyte]
        dsimp only
        split
        · exact searchPage_sim h hmarked fuel _ (Nat.mod_lt _ (by decide))
        · exact .inl ⟨_, rfl, rfl⟩

theorem getNextPage_sim (h : s.Shows mm) (hmarked : s.TableMarked)
    (hlast : s.lastAvailible < patSize) :
    (∃ e, s.getNextPage = .error e ∧ SpKernel.getNextPage mm = .error e)
    ∨ ∃ a s' mm', s.getNextPage = .ok (a, s') ∧ SpKernel.getNextPage mm = .ok (a, mm')
      ∧ s'.Shows mm' ∧ s'.table = s.table := by
  rw [SpKernel.getNextPage, h.cursor]
  exact searchPage_sim h hmarked _ _ hlast

theorem freePage_sim (h : s.Shows mm) (a : Word) :
    (s.freePage a).1 = (SpKernel.freePage mm a).1
      ∧ (s.freePage a).2.Shows (SpKernel.freePage mm a).2 ∧ (s.freePage a).2.table = s.table := by
  rw [PageMemory.freePage, SpKernel.freePage]
  by_cases ha : a &&& 0xFFF#32 ≠ 0#32
  · rw [if_pos ha, if_pos ha]
    exact ⟨rfl, h, rfl⟩
  · rw [if_neg ha, if_neg ha]
    exact ⟨rfl, h.setPat a 0, rfl⟩

/-- The pages of the table keep their marks as long as the allocator apart
keeps them. -/
theorem Shows.tableMarked {s₀ : PageMemory} {mm₀ : MemMgr} (h : s.Shows mm) (h₀ : s₀.Shows mm₀)
    (htable : s.table = s₀.table) (hmarked : s₀.TableMarked)
    (hkept : ∀ n, patBit mm₀ n = true → patBit mm n = true) : s.TableMarked := by
  intro i hi
  have hcell : s.cell i = s₀.cell i := by rw [cell, cell, htable]
  have hlt := pageOf_lt (s₀.cell i)
  rw [hcell, ← h.bit hlt]
  exact hkept _ ((h₀.bit hlt).trans (hmarked i hi))

end PageMemory

namespace MemoryAllocator

open PageMemory

variable {s : PageMemory} {t : MemoryAllocator}

/-! ## Tables that cover themselves -/

/-- A run with the table in memory is one with the table apart. -/
theorem Run.sim (hlast : s.lastAvailible < patSize) (hmarked : s.TableMarked)
    (h : Run ⟨s, []⟩ t) :
    ∃ mm, PageRun { mm := s.apart, held := [] } { mm := mm, held := t.held }
      ∧ t.pages.Shows mm ∧ t.pages.table = s.table := by
  induction h with
  | refl => exact ⟨_, .refl, shows_apart s, rfl⟩
  | @get t a pages _ hget ih =>
      obtain ⟨mm, hrun, hshows, htable⟩ := ih
      have hheld : Held s.apart _ := PageRun.spec hlast hrun
      have hcursor : t.pages.lastAvailible < patSize := hshows.cursor ▸ hheld.cursor
      have hstill := hshows.tableMarked (shows_apart s) htable hmarked hheld.kept
      rcases getNextPage_sim hshows hstill hcursor with
        ⟨e, he, -⟩ | ⟨b, s', mm', hs, hmm, hnext, ht⟩
      · rw [hget] at he
        cases he
      · obtain ⟨rfl, rfl⟩ := Prod.mk.inj (Except.ok.inj (hget.symm.trans hs))
        exact ⟨mm', .get hrun hmm, hnext, ht.trans htable⟩
  | @free t a _ ha ih =>
      obtain ⟨mm, hrun, hshows, htable⟩ := ih
      obtain ⟨-, hnext, ht⟩ := freePage_sim hshows a
      exact ⟨_, .free hrun ha, hnext, ht.trans htable⟩

/-- What holds of the allocator with the table apart holds of the one in
memory. -/
theorem sound_of_tableMarked (hlast : s.lastAvailible < patSize) (hmarked : s.TableMarked)
    (h : Run ⟨s, []⟩ t) : Sound s t := by
  obtain ⟨mm, hrun, hshows, htable⟩ := h.sim hlast hmarked
  have hinv : Held s.apart _ := PageRun.spec hlast hrun
  have hcursor : t.pages.lastAvailible < patSize := hshows.cursor ▸ hinv.cursor
  have hstill := hshows.tableMarked (shows_apart s) htable hmarked hinv.kept
  have hbit : ∀ {n}, n < 2 ^ 20 → patBit mm n = t.pages.bit n := fun hn => hshows.bit hn
  have hstart : ∀ a, patBit s.apart (pageOf a) = s.bit (pageOf a) := fun a =>
    (shows_apart s).bit (pageOf_lt a)
  obtain ⟨⟨hnodup, hheld⟩, hget, hfree⟩ := page_allocator_sound hlast hrun
  refine ⟨hnodup, fun a ha => ?_, ?_, fun a => ?_⟩
  · obtain ⟨haligned, hused, hfresh⟩ := hheld a ha
    exact ⟨haligned, hbit (pageOf_lt a) ▸ hused, hstart a ▸ hfresh⟩
  · rcases getNextPage_sim hshows hstill hcursor with
      ⟨e, he, hmm⟩ | ⟨a, s', mm', hs, hmm, hnext, -⟩
    · refine .inr ?_
      rcases hget with ⟨b, mm', hok, -⟩ | ⟨herr, hall⟩
      · rw [hmm] at hok
        cases hok
      · rw [hmm] at herr
        cases herr
        exact ⟨he, fun n hn => hbit hn ▸ hall n hn⟩
    · refine .inl ⟨a, s', hs, ?_⟩
      rcases hget with ⟨b, mm'', hok, haligned, hnew, hfresh, hwas, hused, hother⟩ | ⟨herr, -⟩
      · obtain ⟨rfl, rfl⟩ := Prod.mk.inj (Except.ok.inj (hmm.symm.trans hok))
        refine ⟨haligned, hnew, hstart a ▸ hfresh, hbit (pageOf_lt a) ▸ hwas,
          hnext.bit (pageOf_lt a) ▸ hused, fun n hn hne => ?_⟩
        rw [← hnext.bit hn, ← hbit hn]
        exact hother n hne
      · rw [hmm] at herr
        cases herr
  · obtain ⟨hret, hnext, -⟩ := freePage_sim hshows a
    have hspec := hfree a
    by_cases ha : PageAligned a
    · rw [if_pos ha] at hspec ⊢
      obtain ⟨hzero, hcleared, hother⟩ := hspec
      refine ⟨hret.trans hzero, hnext.bit (pageOf_lt a) ▸ hcleared, fun n hn hne => ?_⟩
      rw [← hnext.bit hn, ← hbit hn]
      exact hother n hne
    · rw [if_neg ha, PageMemory.freePage, if_pos fun hc => ha ((aligned_iff a).mp hc)]

/-! ## Tables that do not -/

theorem searchPage_zero {p p' : PageMemory} {a : Word} : ∀ {fuel index : Nat},
    p.searchPage fuel index = .ok (a, p') → p'.table = p.table
      ∧ ∀ x, (x - a).toNat < pageSize → p'.mem x = 0
  | 0, _, h => by cases h
  | fuel + 1, index, h => by
      rw [PageMemory.searchPage] at h
      dsimp only at h
      split at h
      · obtain ⟨rfl, rfl⟩ := Prod.mk.inj (Except.ok.inj h)
        exact ⟨rfl, fun x hx => if_pos hx⟩
      · split at h
        · exact searchPage_zero h
        · cases h

/-- The pages that are free. -/
def spare (p : PageMemory) : Finset Nat := (Finset.range (2 ^ 20)).filter fun n => p.bit n = false

/-- What was free at the start and no longer is, is held. -/
def Accounted (s : PageMemory) (t : MemoryAllocator) : Prop :=
  ∀ n < 2 ^ 20, s.bit n = false → t.pages.bit n = true → ∃ a ∈ t.held, pageOf a = n

/-- If every run is sound, there is one that takes all pages. -/
theorem Run.exhaust (hsound : ∀ t, Run ⟨s, []⟩ t → Sound s t) :
    ∀ (c : Nat) (t : MemoryAllocator), (spare t.pages).card = c → Run ⟨s, []⟩ t →
      Accounted s t →
      ∃ t', Run ⟨s, []⟩ t' ∧ Accounted s t' ∧ ∀ n < 2 ^ 20, t'.pages.bit n = true := by
  intro c
  induction c with
  | zero =>
      intro t hc hrun hacc
      refine ⟨t, hrun, hacc, fun n hn => ?_⟩
      by_contra hfree
      have hmem : n ∈ spare t.pages :=
        Finset.mem_filter.mpr ⟨Finset.mem_range.mpr hn, Bool.eq_false_of_not_eq_true hfree⟩
      rw [Finset.card_eq_zero.mp hc] at hmem
      exact Finset.notMem_empty n hmem
  | succ c ih =>
      intro t hc hrun hacc
      rcases (hsound t hrun).get with
        ⟨a, pages, hget, -, -, -, hwas, hused, hother⟩ | ⟨-, hall⟩
      · have hspare : spare pages = (spare t.pages).erase (pageOf a) := by
          ext n
          simp only [spare, Finset.mem_erase, Finset.mem_filter, Finset.mem_range]
          constructor
          · rintro ⟨hn, hfree⟩
            have hne : n ≠ pageOf a := fun he => by rw [he, hused] at hfree; cases hfree
            exact ⟨hne, hn, (hother n hn hne).symm.trans hfree⟩
          · rintro ⟨hne, hn, hfree⟩
            exact ⟨hn, (hother n hn hne).trans hfree⟩
        have hmem : pageOf a ∈ spare t.pages :=
          Finset.mem_filter.mpr ⟨Finset.mem_range.mpr (pageOf_lt a), hwas⟩
        refine ih ⟨pages, a :: t.held⟩ ?_ (.get hrun hget) fun n hn hfresh hnow => ?_
        · rw [hspare, Finset.card_erase_of_mem hmem, hc, Nat.add_sub_cancel]
        · by_cases hne : n = pageOf a
          · exact ⟨a, List.mem_cons_self, hne.symm⟩
          · obtain ⟨b, hb, he⟩ := hacc n hn hfresh ((hother n hn hne).symm.trans hnow)
            exact ⟨b, List.mem_cons_of_mem _ hb, he⟩
      · refine ⟨t, hrun, hacc, hall⟩

/-- Two neighbouring pages have their bits in one byte of the table. -/
theorem bits_of_zero {p : PageMemory} {i : Nat} (h : p.mem (p.cell i) = 0) :
    p.bit (8 * i) = false ∧ p.bit (8 * i + 1) = false := by
  rw [PageMemory.bit, PageMemory.bit, Nat.mul_div_cancel_left i (by decide),
    show (8 * i + 1) / 8 = i by omega, h]
  exact ⟨BitVec.getLsbD_zero, BitVec.getLsbD_zero⟩

theorem offset_page {x a : Word} (h : pageOf x = pageOf a) (ha : PageAligned a) :
    (x - a).toNat < pageSize := by
  have hx := x.isLt
  have hlt := a.isLt
  unfold PageAligned at ha
  unfold pageOf at h
  simp only [pageSize]
  rw [BitVec.toNat_sub]
  omega

/-- A page with a byte of the table on it that is not marked comes to be
handed out when all others are taken, and then that byte is cleared. -/
theorem tableMarked_of_sound (hsound : ∀ t, Run ⟨s, []⟩ t → Sound s t) (htable : ∀ t,
    Run ⟨s, []⟩ t → t.pages.table = s.table) : s.TableMarked := by
  intro i hi
  by_contra hfree
  have hpage := pageOf_lt (s.cell i)
  obtain ⟨t, hrun, hacc, hfull⟩ := Run.exhaust hsound _ ⟨s, []⟩ rfl .refl
    fun n _ hfresh hnow => absurd (hfresh.symm.trans hnow) Bool.false_ne_true
  obtain ⟨a, ha, hpa⟩ := hacc _ hpage (Bool.eq_false_of_not_eq_true hfree) (hfull _ hpage)
  have haligned := ((hsound t hrun).held a ha).1
  have hfreed := (hsound t hrun).free a
  rw [if_pos haligned] at hfreed
  obtain ⟨-, hcleared, hkept⟩ := hfreed
  have hrun' : Run ⟨s, []⟩ ⟨(t.pages.freePage a).2, t.held.erase a⟩ := .free hrun ha
  rcases (hsound _ hrun').get with ⟨b, pages, hget, hb, -, -, hwas, hused, hother⟩ | ⟨-, hall⟩
  · -- it is the only page that is free
    have hpb : pageOf b = pageOf a := by
      by_contra hne
      rw [hkept _ (pageOf_lt b) hne, hfull _ (pageOf_lt b)] at hwas
      cases hwas
    have hstill : ∀ n < 2 ^ 20, pages.bit n = true := fun n hn => by
      by_cases hne : n = pageOf b
      · rw [hne]
        exact hused
      · rw [hother n hn hne, hkept n hn (hpb ▸ hne)]
        exact hfull n hn
    obtain ⟨htab, hzero⟩ := searchPage_zero hget
    have hcell : pages.cell i = s.cell i := by
      rw [cell, cell, htab.trans (htable _ hrun')]
    have hbyte := hzero (pages.cell i) (offset_page (hcell ▸ hpa.symm.trans hpb.symm) hb)
    have hlow := hstill (8 * i) (by simp only [patSize] at hi; omega)
    rw [(bits_of_zero hbyte).1] at hlow
    cases hlow
  · have hused := hall _ (pageOf_lt a)
    rw [hcleared] at hused
    cases hused

theorem Run.table (h : Run ⟨s, []⟩ t) : t.pages.table = s.table := by
  induction h with
  | refl => rfl
  | get _ hget ih => exact (searchPage_zero hget).1.trans ih
  | @free t a _ _ ih =>
      rw [PageMemory.freePage]
      split
      · exact ih
      · exact ih

/-! ## The table that `setup_page_availibility_table` leaves -/

/-- The pages of the table are those that the last loop marks, and for a
table that does not start on a page boundary the one behind them. -/
theorem tableMarked_iff {map : List MmEntry} {maxAddress table : Word} {mm mm' : MemMgr}
    (h : setupPageAvailibilityTable map maxAddress mm = .ok (table, mm')) (htable : s.table = table)
    (hpat : ∀ i < patSize, mm'.pat i = s.mem (s.cell i)) :
    s.TableMarked ↔ PageAligned table ∨ patBit mm' (pageOf table + 32) = true := by
  obtain ⟨-, -, hend, -, hmarks⟩ := setup_marks h
  have hcell : ∀ i < patSize, pageOf (s.cell i) = (table.toNat + i) / 4096 := by
    intro i hi
    simp only [patSize] at hi hend
    rw [cell, htable, pageOf, BitVec.toNat_add, BitVec.toNat_ofNat]
    omega
  have hbit : ∀ {n}, n < 2 ^ 20 → s.bit n = patBit mm' n := by
    intro n hn
    rw [PageMemory.bit, patBit, hpat _ (by simp only [patSize]; omega)]
  have hlow : ∀ n < 2 ^ 20, pageOf table ≤ n → n < pageOf table + 32 → patBit mm' n = true :=
    fun n hn h1 h2 => (hmarks n hn).mpr (.inr (.inr (.inr ⟨h1, h2⟩)))
  simp only [patSize, pageOf] at hend hlow hcell ⊢
  constructor
  · intro hall
    by_contra hc
    obtain ⟨haligned, hfree⟩ := not_or.mp hc
    unfold PageAligned at haligned
    -- the last byte of the table
    have hlast := hall 0x1FFFF (by simp only [patSize]; omega)
    rw [pageOf, hcell _ (by decide), hbit (by omega)] at hlast
    rw [show (table.toNat + 0x1FFFF) / 4096 = table.toNat / 4096 + 32 by omega] at hlast
    exact hfree hlast
  · intro hor i hi
    simp only [patSize] at hi
    rw [pageOf, hcell i hi, hbit (by omega)]
    by_cases hin : (table.toNat + i) / 4096 < table.toNat / 4096 + 32
    · exact hlow _ (by omega) (by omega) hin
    · rcases hor with haligned | hmarked
      · unfold PageAligned at haligned
        omega
      · rwa [show (table.toNat + i) / 4096 = table.toNat / 4096 + 32 by omega]

/-- Over the table that was set up the allocator is sound exactly if the
table starts on a page boundary, or what is behind it cannot be used. -/
theorem setup_sound_iff {map : List MmEntry} {maxAddress table : Word} {mm mm' : MemMgr}
    (h : setupPageAvailibilityTable map maxAddress mm = .ok (table, mm')) (htable : s.table = table)
    (hpat : ∀ i < patSize, mm'.pat i = s.mem (s.cell i)) (hlast : s.lastAvailible = 0) :
    (∀ t, Run ⟨s, []⟩ t → Sound s t)
      ↔ PageAligned table ∨ patBit mm' (pageOf table + 32) = true := by
  rw [← tableMarked_iff h htable hpat]
  refine ⟨fun hs => tableMarked_of_sound hs fun _ hrun => hrun.table, fun hmarked t hrun => ?_⟩
  exact sound_of_tableMarked (by rw [hlast]; decide) hmarked hrun

/-- The allocator is sound over every run exactly if the pages with the
table on them are marked at the start: then held pages are distinct and
were not marked, `get_next_page` takes one page that is not marked and
changes no other bit, or all are marked and it panics; and `free_page`
clears the bit of an aligned address alone. -/
theorem page_allocator_sound_iff (hlast : s.lastAvailible < patSize) :
    (∀ t, Run ⟨s, []⟩ t → Sound s t) ↔ s.TableMarked :=
  ⟨fun h => tableMarked_of_sound h fun _ hrun => hrun.table,
    fun hmarked _ hrun => sound_of_tableMarked hlast hmarked hrun⟩

/-- Memory of two megabytes above the table's first page, as the allocator
finds it: the pages from 0x120 to 0x1FF are free. -/
def twoMegabytes (table : Word) : PageMemory where
  mem x := if 0x24 ≤ (x - table).toNat ∧ (x - table).toNat < 0x40 then 0 else 0xFF
  table := table
  lastAvailible := 0

theorem twoMegabytes_byte (table : Word) {i : Nat} (hi : i < patSize) :
    (twoMegabytes table).mem ((twoMegabytes table).cell i)
      = if 0x24 ≤ i ∧ i < 0x40 then 0 else 0xFF := by
  have hoff : ((twoMegabytes table).cell i - table).toNat = i :=
    toNat_offset table (by simp only [patSize] at hi; omega)
  change (if 0x24 ≤ ((twoMegabytes table).cell i - table).toNat
    ∧ ((twoMegabytes table).cell i - table).toNat < 0x40 then (0 : Byte) else 0xFF) = _
  rw [hoff]

/-- A table on a page boundary. -/
theorem page_allocator_sound_aligned : (twoMegabytes 0x100000).lastAvailible < patSize
    ∧ (twoMegabytes 0x100000).bit 0x120 = false
    ∧ ∀ t, Run ⟨twoMegabytes 0x100000, []⟩ t → Sound (twoMegabytes 0x100000) t := by
  refine ⟨by decide, by decide, (page_allocator_sound_iff (by decide)).mpr fun i hi => ?_⟩
  have hi' := hi
  simp only [patSize] at hi'
  have hpage : pageOf ((twoMegabytes 0x100000).cell i) = 0x100 + i / 4096 := by
    change (0x100000#32 + BitVec.ofNat 32 i).toNat / 4096 = _
    rw [BitVec.toNat_add, BitVec.toNat_ofNat, BitVec.toNat_ofNat]
    omega
  rw [hpage, PageMemory.bit, twoMegabytes_byte _ (by simp only [patSize]; omega),
    if_neg (by omega)]
  have hff : ∀ j < 8, (0xFF : Byte).getLsbD j = true := by decide
  exact hff _ (Nat.mod_lt _ (by decide))

/-- A map with one entry, which does not start on a page boundary. -/
def unalignedMap : List MmEntry := [⟨0x100800, 0, 0xFF800, 0, 1⟩]

/-- The first page that is handed out has the end of the table on it, and
the marks of the pages from 0xFC000 on are lost. -/
theorem unaligned_unsound : ∃ mm' pages,
    setupPageAvailibilityTable unalignedMap (dispMemoryMap unalignedMap) lowPageUsed
      = .ok (0x100800, mm')
    ∧ (∀ i < patSize, mm'.pat i = (twoMegabytes 0x100800).mem ((twoMegabytes 0x100800).cell i))
    ∧ (twoMegabytes 0x100800).getNextPage = .ok (0x120000, pages)
    ∧ (twoMegabytes 0x100800).bit 0xFC000 = true ∧ pages.bit 0xFC000 = false
    ∧ ¬Sound (twoMegabytes 0x100800) ⟨twoMegabytes 0x100800, []⟩ := by
  obtain ⟨mm', h⟩ : ∃ mm', setupPageAvailibilityTable unalignedMap (dispMemoryMap unalignedMap)
      lowPageUsed = .ok (tableSpace unalignedMap, mm') :=
    setup_returns lowPageUsed (by decide) (by decide) (by decide) (by decide) (by decide)
  obtain ⟨-, -, -, -, hmarks⟩ := setup_marks h
  have hnone : ∀ i, ¬∃ e ∈ unalignedMap, e.Marks i := by
    rintro i ⟨e, he, hm⟩
    have hfree : ∀ e ∈ unalignedMap, e.type = freeType := by decide
    exact hm.2.1 (hfree e he)
  have hmax : (dispMemoryMap unalignedMap).toNat = 0x1FFFFF := by decide
  have htable : pageOf (tableSpace unalignedMap) = 0x100 := by decide
  have hbit : ∀ n < 2 ^ 20, patBit mm' n = decide (n < 0x120 ∨ 0x200 ≤ n) := by
    intro n hn
    rw [Bool.eq_iff_iff, hmarks n hn, hmax, htable, decide_eq_true_eq, or_iff_right (hnone n)]
    omega
  have hrun : okAnd (twoMegabytes 0x100800).getNextPage
      (fun x => decide (x.1 = 0x120000#32) && !x.2.bit 0xFC000) = true := by decide +kernel
  obtain ⟨⟨a, pages⟩, hget, htest⟩ := of_okAnd hrun
  rw [Bool.and_eq_true, decide_eq_true_eq, Bool.not_eq_true'] at htest
  obtain ⟨rfl, hlost⟩ := htest
  have hwas : (twoMegabytes 0x100800).bit 0xFC000 = true := by decide
  refine ⟨mm', pages, h, fun i hi => ?_, hget, hwas, hlost, fun hsound => ?_⟩
  · rw [twoMegabytes_byte _ hi]
    refine BitVec.eq_of_getLsbD_eq fun j hj => ?_
    simp only [patSize] at hi
    have hb := hbit (8 * i + j) (by omega)
    rw [patBit, show (8 * i + j) / 8 = i by omega, show (8 * i + j) % 8 = j by omega] at hb
    have hff : ∀ j < 8, (0xFF : Byte).getLsbD j = true := by decide
    rw [hb]
    split
    · rw [show (0 : Byte).getLsbD j = false from BitVec.getLsbD_zero, decide_eq_false_iff_not]
      omega
    · rw [hff j hj, decide_eq_true_eq]
      omega
  · rcases hsound.get with ⟨a, pages', hok, -, -, -, -, -, hother⟩ | ⟨herr, -⟩
    · obtain ⟨rfl, rfl⟩ := Prod.mk.inj (Except.ok.inj (hget.symm.trans hok))
      have hkept := hother 0xFC000 (by decide) (by decide)
      rw [hwas, hlost] at hkept
      cases hkept
    · rw [hget] at herr
      cases herr

end MemoryAllocator

end SpKernel
