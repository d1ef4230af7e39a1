import SpKernel.Lib.Memory
import SpKernel.Lib.Outcome
import SpKernel.Types

/-!
# The page allocator (`memory_map.c`)

One bit for each of the `2 ^ 20` physical pages, eight to a byte; a set
bit means the page is in use or must not be used. Allocation is a
next-fit search that starts at the byte where the last page was found.

The table is an object of its own here, apart from the memory it
describes. `setup_page_availibility_table` marks pages for the table, and
no page marked at the start is ever handed out (`PageRun.spec`); for a
table at a page's start these are the pages it lies in, so that the
`memset` of a fresh page does not reach it. The linker need not put the
table at a page's start: the last page it then lies in is left available,
and `get_next_page` clears a part of the table with it. `TableMemory` has
the table in the memory, with its address, and is about that.

Everything about the table is stated through `patBit`, the bit of a page
number, and `pageOf`, the page number of an address: `getNextPage_spec`
says which page an allocation takes and that it changes one bit,
`freePage_aligned` what a release does. `Held` is the invariant of the
table and the pages handed out, and `page_allocator_sound` what it gives
for every sequence of allocations and releases.
-/

namespace SpKernel

open Function (update update_self update_of_ne)
open Lib

abbrev pageSize : Nat := 4096
abbrev patSize : Nat := 0x20000

/-- The memory and the variables of the memory manager. -/
structure MemMgr where
  mem : Mem
  /-- `page_availibility_table` -/
  pat : Nat → Byte
  lastAvailible : Nat
  pageDirectory : Word
  pageTable : Word
  lastPde : Word
  cr3 : Word

def patIndex (address : Word) : Nat := ((address >>> 15) &&& 0x1FFFF#32).toNat

def patMask (address : Word) : Byte := 1#8 <<< ((address >>> 12) &&& 0x7#32).toNat

def setPat (mm : MemMgr) (address : Word) (value : Byte) : MemMgr :=
  let index := patIndex address
  let mask := patMask address
  { mm with pat := update mm.pat index ((mm.pat index &&& ~~~mask) ||| (value &&& mask)) }

def getPat (mm : MemMgr) (address : Word) : Byte :=
  mm.pat (patIndex address) &&& patMask address

/-- `for( next = 0; byte & (1 << next); ++next );` on a byte widened to
an `int`, whose bit 8 is clear. -/
def nextFree (byte : Byte) : Nat :=
  (List.range 8).findIdx fun next => !byte.getLsbD next

/-- The body of the search from `index` on. The fuel is the number of
bytes of the table: the cursor is back at its start after that many. -/
def searchPage (mm : MemMgr) : Nat → Nat → Except Fault (Word × MemMgr)
  | 0, _ => .error .diverge
  | fuel + 1, index =>
      let byte := mm.pat index
      if ~~~byte ≠ 0#8 then
        let address := BitVec.ofNat 32 (index <<< 15 ||| nextFree byte <<< 12)
        let mm := setPat mm address 0xFF
        .ok (address, { mm with
          lastAvailible := index
          mem := memset mm.mem address 0 pageSize })
      else
        let index := (index + 1) % patSize
        if index ≠ mm.lastAvailible then searchPage mm fuel index
        else .error (.panic "No more memory!")

def getNextPage (mm : MemMgr) : Except Fault (Word × MemMgr) :=
  searchPage mm patSize mm.lastAvailible

/-- `free_page`: 0 on success, -1 when the address is not aligned. -/
def freePage (mm : MemMgr) (address : Word) : Int × MemMgr :=
  if address &&& 0xFFF#32 ≠ 0#32 then (-1, mm) else (0, setPat mm address 0)

/-! ## The bit of a page -/

/-- The page number of an address. -/
def pageOf (a : Word) : Nat := a.toNat / 4096

/-- Is page `n` marked as used? -/
def patBit (mm : MemMgr) (n : Nat) : Bool := (mm.pat (n / 8)).getLsbD (n % 8)

theorem patIndex_eq (a : Word) : patIndex a = pageOf a / 8 := by
  have h := a.isLt
  simp only [patIndex, pageOf, BitVec.toNat_and, BitVec.toNat_ushiftRight,
    BitVec.toNat_ofNat, Nat.shiftRight_eq_div_pow]
  rw [show 0x1FFFF % 2 ^ 32 = 2 ^ 17 - 1 from rfl, Nat.and_two_pow_sub_one_eq_mod]
  omega

theorem patMask_eq (a : Word) : patMask a = 1#8 <<< (pageOf a % 8) := by
  simp only [patMask, pageOf, BitVec.toNat_and, BitVec.toNat_ushiftRight,
    BitVec.toNat_ofNat, Nat.shiftRight_eq_div_pow]
  rw [show 7 % 2 ^ 32 = 2 ^ 3 - 1 from rfl, Nat.and_two_pow_sub_one_eq_mod]

theorem pageOf_inj {a b : Word} (ha : PageAligned a) (hb : PageAligned b)
    (h : pageOf a = pageOf b) : a = b := by
  unfold PageAligned at ha hb
  unfold pageOf at h
  have : a.toNat = b.toNat := by omega
  exact BitVec.eq_of_toNat_eq this

theorem getLsbD_one_shiftLeft (i j : Nat) (hj : j < 8) :
    (1#8 <<< i).getLsbD j = decide (j = i) := by
  simp only [BitVec.getLsbD_shiftLeft, BitVec.getLsbD_one]
  grind

theorem getPat_ne_zero (mm : MemMgr) (a : Word) :
    getPat mm a ≠ 0 ↔ patBit mm (pageOf a) = true := by
  have hbit : ∀ j < 8, (getPat mm a).getLsbD j
      = ((mm.pat (pageOf a / 8)).getLsbD j && decide (j = pageOf a % 8)) := by
    intro j hj
    rw [getPat, patIndex_eq, patMask_eq, BitVec.getLsbD_and, getLsbD_one_shiftLeft _ _ hj]
  have hlt : pageOf a % 8 < 8 := Nat.mod_lt _ (by decide)
  constructor
  · intro hne
    by_contra hc
    refine hne (BitVec.eq_of_getLsbD_eq fun j hj => ?_)
    rw [hbit j hj]
    by_cases h : j = pageOf a % 8
    · subst h
      simpa [patBit] using hc
    · simp [h]
  · intro hset he
    have := hbit _ hlt
    rw [he] at this
    simp only [patBit] at hset
    simp [hset] at this

theorem patBit_setPat (mm : MemMgr) (a : Word) (v : Byte) (n : Nat) :
    patBit (setPat mm a v) n
      = if n = pageOf a then v.getLsbD (n % 8) else patBit mm n := by
  have hlt : n % 8 < 8 := Nat.mod_lt _ (by decide)
  simp only [patBit, setPat, patIndex_eq, patMask_eq]
  by_cases hi : n / 8 = pageOf a / 8
  · rw [hi, update_self, BitVec.getLsbD_or, BitVec.getLsbD_and, BitVec.getLsbD_and,
      BitVec.getLsbD_not, getLsbD_one_shiftLeft _ _ hlt]
    by_cases hm : n % 8 = pageOf a % 8
    · rw [if_pos (by omega)]
      simp [hm]
    · rw [if_neg (by omega)]
      simp [hm, hlt]
  · rw [update_of_ne hi, if_neg (by omega)]

theorem patBit_mark (mm : MemMgr) (a : Word) (n : Nat) :
    patBit (setPat mm a 0xFF) n = (decide (n = pageOf a) || patBit mm n) := by
  rw [patBit_setPat]
  by_cases h : n = pageOf a
  · have hff : ∀ j < 8, (0xFF#8).getLsbD j = true := by decide
    simp [h, hff _ (Nat.mod_lt _ (by decide))]
  · simp [h]

theorem patBit_clear (mm : MemMgr) (a : Word) (n : Nat) :
    patBit (setPat mm a 0) n = (!decide (n = pageOf a) && patBit mm n) := by
  rw [patBit_setPat]
  by_cases h : n = pageOf a
  · simp [h]
  · simp [h]

/-! ## The search -/

/-- What one successful `get_next_page` does. -/
structure Taken (mm : MemMgr) (a : Word) (mm' : MemMgr) : Prop where
  aligned : PageAligned a
  wasFree : patBit mm (pageOf a) = false
  bits : ∀ n, patBit mm' n = (decide (n = pageOf a) || patBit mm n)
  cursor : mm'.lastAvailible < patSize
  mem : mm'.mem = memset mm.mem a 0 pageSize
  pageDirectory : mm'.pageDirectory = mm.pageDirectory
  pageTable : mm'.pageTable = mm.pageTable
  lastPde : mm'.lastPde = mm.lastPde
  cr3 : mm'.cr3 = mm.cr3

theorem nextFree_spec {byte : Byte} (h : ~~~byte ≠ 0#8) :
    nextFree byte < 8 ∧ byte.getLsbD (nextFree byte) = false := by
  revert byte
  decide

theorem full_bit {byte : Byte} (h : ¬ ~~~byte ≠ 0#8) :
    ∀ j < 8, byte.getLsbD j = true := by
  revert byte
  decide

/-- The address rebuilt from a byte index and a bit number is that page. -/
theorem rebuild_address {index next : Nat} (hi : index < patSize) (hn : next < 8) :
    (BitVec.ofNat 32 (index <<< 15 ||| next <<< 12)).toNat = 4096 * (8 * index + next) := by
  have hor : index <<< 15 ||| next <<< 12 = index <<< 15 + next <<< 12 := by
    refine (Nat.shiftLeft_add_eq_or_of_lt ?_ index).symm
    rw [Nat.shiftLeft_eq]
    omega
  rw [hor, BitVec.toNat_ofNat, Nat.shiftLeft_eq, Nat.shiftLeft_eq]
  simp only [patSize] at hi
  omega

theorem take_spec {mm : MemMgr} {index : Nat} (hi : index < patSize)
    (h : ~~~(mm.pat index) ≠ 0#8) :
    let a := BitVec.ofNat 32 (index <<< 15 ||| nextFree (mm.pat index) <<< 12)
    Taken mm a { setPat mm a 0xFF with
      lastAvailible := index
      mem := memset mm.mem a 0 pageSize } := by
  intro a
  obtain ⟨hn, hclear⟩ := nextFree_spec h
  have ha : a.toNat = 4096 * (8 * index + nextFree (mm.pat index)) := rebuild_address hi hn
  have hp : pageOf a = 8 * index + nextFree (mm.pat index) := by
    unfold pageOf
    omega
  refine ⟨?_, ?_, fun n => patBit_mark mm a n, hi, rfl, rfl, rfl, rfl, rfl⟩
  · unfold PageAligned
    omega
  · rw [patBit, hp, show (8 * index + nextFree (mm.pat index)) / 8 = index by omega,
      show (8 * index + nextFree (mm.pat index)) % 8 = nextFree (mm.pat index) by omega]
    exact hclear

/-- The search at the `j`-th byte after the cursor, when the bytes before
it are full. -/
theorem searchPage_spec {mm : MemMgr} (hlast : mm.lastAvailible < patSize) :
    ∀ fuel j, fuel + j = patSize → 0 < fuel →
      (∀ i < j, ∀ b < 8, (mm.pat ((mm.lastAvailible + i) % patSize)).getLsbD b = true) →
      (∃ a mm', searchPage mm fuel ((mm.lastAvailible + j) % patSize) = .ok (a, mm')
        ∧ Taken mm a mm')
      ∨ (searchPage mm fuel ((mm.lastAvailible + j) % patSize)
          = .error (.panic "No more memory!")
        ∧ ∀ i < patSize, ∀ b < 8,
          (mm.pat ((mm.lastAvailible + i) % patSize)).getLsbD b = true)
  | 0, _, _, h0, _ => absurd h0 (by decide)
  | fuel + 1, j, hj, _, hfull => by
      have hi : (mm.lastAvailible + j) % patSize < patSize := Nat.mod_lt _ (by decide)
      simp only [searchPage]
      split
      · rename_i hfree
        exact .inl ⟨_, _, rfl, take_spec hi hfree⟩
      · rename_i hbyte
        have hfull' : ∀ i < j + 1, ∀ b < 8,
            (mm.pat ((mm.lastAvailible + i) % patSize)).getLsbD b = true := by
          intro i hij
          rcases Nat.lt_succ_iff_lt_or_eq.mp hij with hlt | rfl
          · exact hfull i hlt
          · exact full_bit hbyte
        have hnext : ((mm.lastAvailible + j) % patSize + 1) % patSize
            = (mm.lastAvailible + (j + 1)) % patSize := by
          simp only [patSize]
          omega
        rw [hnext]
        split
        · rename_i hne
          have hpos : 0 < fuel := by
            by_contra hz
            refine hne ?_
            simp only [patSize] at hj hlast ⊢
            omega
          exact searchPage_spec hlast fuel (j + 1) (by omega) hpos hfull'
        · rename_i heq
          have hall : j + 1 = patSize := by
            simp only [patSize] at hj hlast heq ⊢
            omega
          exact .inr ⟨rfl, hall ▸ hfull'⟩

/-- `get_next_page` finds a free page whenever there is one. -/
theorem getNextPage_spec {mm : MemMgr} (hlast : mm.lastAvailible < patSize) :
    (∃ a mm', getNextPage mm = .ok (a, mm') ∧ Taken mm a mm')
    ∨ (getNextPage mm = .error (.panic "No more memory!")
      ∧ ∀ n < 2 ^ 20, patBit mm n = true) := by
  have h := searchPage_spec hlast patSize 0 rfl (by decide) (by simp)
  rw [Nat.add_zero, Nat.mod_eq_of_lt hlast] at h
  refine h.imp id fun ⟨he, hall⟩ => ⟨he, fun n hn => ?_⟩
  -- every byte of the table is some number of steps after the cursor
  have hb := hall ((n / 8 + patSize - mm.lastAvailible) % patSize)
    (Nat.mod_lt _ (by decide)) (n % 8) (Nat.mod_lt _ (by decide))
  have hidx : (mm.lastAvailible + (n / 8 + patSize - mm.lastAvailible) % patSize) % patSize
      = n / 8 := by
    simp only [patSize] at hlast ⊢
    omega
  rw [hidx] at hb
  exact hb

theorem taken_of_ok {mm mm' : MemMgr} {a : Word} (hlast : mm.lastAvailible < patSize)
    (h : getNextPage mm = .ok (a, mm')) : Taken mm a mm' := by
  rcases getNextPage_spec hlast with ⟨b, mm'', he, ht⟩ | ⟨he, -⟩
  · rw [h] at he
    obtain ⟨rfl, rfl⟩ := Prod.mk.inj (Except.ok.inj he)
    exact ht
  · rw [h] at he
    cases he

theorem aligned_iff (a : Word) : a &&& 0xFFF#32 = 0#32 ↔ PageAligned a := by
  rw [← BitVec.toNat_inj, BitVec.toNat_and, BitVec.toNat_ofNat,
    show 0xFFF % 2 ^ 32 = 2 ^ 12 - 1 from rfl, Nat.and_two_pow_sub_one_eq_mod]
  rfl

theorem freePage_aligned {mm : MemMgr} {a : Word} (h : PageAligned a) :
    freePage mm a = (0, setPat mm a 0) := by
  rw [freePage, if_neg (not_not.mpr ((aligned_iff a).mpr h))]

theorem freePage_unaligned {mm : MemMgr} {a : Word} (h : ¬PageAligned a) :
    freePage mm a = (-1, mm) := by
  rw [freePage, if_pos fun he => h ((aligned_iff a).mp he)]

/-! ## Interleavings of the two operations -/

/-- The allocator together with the pages its clients hold. -/
structure Allocator where
  mm : MemMgr
  held : List Word

/-- Calls of `get_next_page` and `free_page` in any order, where
`free_page` is only given pages currently held. -/
inductive PageRun (s : Allocator) : Allocator → Prop
  | refl : PageRun s s
  | get {t : Allocator} {a : Word} {mm' : MemMgr} :
      PageRun s t → getNextPage t.mm = .ok (a, mm') →
      PageRun s { mm := mm', held := a :: t.held }
  | free {t : Allocator} {a : Word} :
      PageRun s t → a ∈ t.held →
      PageRun s { mm := (freePage t.mm a).2, held := t.held.erase a }

/-- What holds of the allocator at any time after it was in the state
`mm` with nothing held. -/
structure Held (mm : MemMgr) (t : Allocator) : Prop where
  cursor : t.mm.lastAvailible < patSize
  nodup : t.held.Nodup
  aligned : ∀ a ∈ t.held, PageAligned a
  marked : ∀ a ∈ t.held, patBit t.mm (pageOf a) = true
  fresh : ∀ a ∈ t.held, patBit mm (pageOf a) = false
  kept : ∀ n, patBit mm n = true → patBit t.mm n = true

theorem Held.get {mm mm' : MemMgr} {t : Allocator} {a : Word} (h : Held mm t)
    (hget : getNextPage t.mm = .ok (a, mm')) :
    Held mm { mm := mm', held := a :: t.held } := by
  have ht := taken_of_ok h.cursor hget
  have hmono : ∀ n, patBit t.mm n = true → patBit mm' n = true := by
    intro n hn
    rw [ht.bits, hn, Bool.or_true]
  have hnew : a ∉ t.held := by
    intro hmem
    have := h.marked a hmem
    rw [ht.wasFree] at this
    cases this
  refine ⟨ht.cursor, List.nodup_cons.mpr ⟨hnew, h.nodup⟩, ?_, ?_, ?_, fun n hn =>
    hmono n (h.kept n hn)⟩
  · exact List.forall_mem_cons.mpr ⟨ht.aligned, h.aligned⟩
  · refine List.forall_mem_cons.mpr ⟨?_, fun b hb => hmono _ (h.marked b hb)⟩
    simp [ht.bits]
  · refine List.forall_mem_cons.mpr ⟨?_, h.fresh⟩
    by_contra hc
    have := h.kept _ (Bool.not_eq_false _ ▸ hc)
    rw [ht.wasFree] at this
    cases this

theorem Held.free {mm : MemMgr} {t : Allocator} {a : Word} (h : Held mm t)
    (ha : a ∈ t.held) :
    Held mm { mm := (freePage t.mm a).2, held := t.held.erase a } := by
  rw [freePage_aligned (h.aligned a ha)]
  have hold : ∀ b ∈ t.held.erase a, b ∈ t.held ∧ pageOf b ≠ pageOf a := by
    intro b hb
    obtain ⟨hne, hmem⟩ := h.nodup.mem_erase_iff.mp hb
    exact ⟨hmem, fun he => hne (pageOf_inj (h.aligned b hmem) (h.aligned a ha) he)⟩
  refine ⟨h.cursor, h.nodup.erase a, fun b hb => h.aligned b (hold b hb).1, ?_,
    fun b hb => h.fresh b (hold b hb).1, ?_⟩
  · intro b hb
    rw [patBit_clear]
    simp [(hold b hb).2, h.marked b (hold b hb).1]
  · intro n hn
    have hne : n ≠ pageOf a := by
      rintro rfl
      rw [h.fresh a ha] at hn
      cases hn
    rw [patBit_clear]
    simp [hne, h.kept n hn]

theorem PageRun.spec {mm : MemMgr} (hlast : mm.lastAvailible < patSize) {t : Allocator}
    (h : PageRun { mm := mm, held := [] } t) : Held mm t := by
  induction h with
  | refl => exact ⟨hlast, List.nodup_nil, by simp, by simp, by simp, fun _ h => h⟩
  | get _ hget ih => exact ih.get hget
  | free _ ha ih => exact ih.free ha

/-- After any interleaving: held pages are distinct, marked, and were free
at the start; `get_next_page` takes one free page and changes no other
bit, or there is none and it panics; `free_page` clears the bit of an
aligned address alone, and rejects any other. -/
theorem page_allocator_sound {mm : MemMgr} (hlast : mm.lastAvailible < patSize)
    {t : Allocator} (h : PageRun { mm := mm, held := [] } t) :
    (t.held.Nodup ∧ ∀ a ∈ t.held, PageAligned a ∧ patBit t.mm (pageOf a) = true
        ∧ patBit mm (pageOf a) = false)
    ∧ ((∃ a mm', getNextPage t.mm = .ok (a, mm') ∧ PageAligned a ∧ a ∉ t.held
          ∧ patBit mm (pageOf a) = false
          ∧ patBit t.mm (pageOf a) = false ∧ patBit mm' (pageOf a) = true
          ∧ ∀ n, n ≠ pageOf a → patBit mm' n = patBit t.mm n)
      ∨ (getNextPage t.mm = .error (.panic "No more memory!")
          ∧ ∀ n < 2 ^ 20, patBit t.mm n = true))
    ∧ ∀ a, if PageAligned a then
        (freePage t.mm a).1 = 0 ∧ patBit (freePage t.mm a).2 (pageOf a) = false
          ∧ ∀ n, n ≠ pageOf a → patBit (freePage t.mm a).2 n = patBit t.mm n
      else freePage t.mm a = (-1, t.mm) := by
  have hinv := PageRun.spec hlast h
  refine ⟨⟨hinv.nodup, fun a ha => ⟨hinv.aligned a ha, hinv.marked a ha, hinv.fresh a ha⟩⟩,
    ?_, fun a => ?_⟩
  · refine (getNextPage_spec hinv.cursor).imp ?_ id
    rintro ⟨a, mm', hget, ht⟩
    have hnext := hinv.get hget
    refine ⟨a, mm', hget, ht.aligned, (List.nodup_cons.mp hnext.nodup).1,
      hnext.fresh a (List.mem_cons_self ..), ht.wasFree,
      hnext.marked a (List.mem_cons_self ..), fun n hn => ?_⟩
    simp [ht.bits, hn]
  · split
    · rename_i ha
      rw [freePage_aligned ha]
      refine ⟨rfl, ?_, fun n hn => ?_⟩
      · rw [patBit_clear]
        simp
      · rw [patBit_clear]
        simp [hn]
    · rename_i ha
      exact freePage_unaligned ha

/-- A table with the first page in use and the cursor at its last byte. -/
def lowPageUsed : MemMgr where
  mem := fun _ => 0
  pat := update (fun _ => 0) 0 1
  lastAvailible := 0x1FFFF
  pageDirectory := 0
  pageTable := 0
  lastPde := 0
  cr3 := 0

example : ((getNextPage lowPageUsed).map (·.1)).toOption = some 0xFFFF8000#32 := by decide

end SpKernel
