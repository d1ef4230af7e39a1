import SpKernel.Pages

/-!
# Page directories and page tables (`memory_map.c`)

The code that builds address spaces. Directories and tables are arrays of
1024 words in memory, reached through `readWord` and `writeWord`; kernel
code runs with the identity-mapped directory loaded, so the addresses it
uses are physical ones. Messages printed on the console are left out.

`_k_mmap` is in two parts as in the source, one for a given range of
physical pages (`mapPlain`) and one that takes a free page for each page
of the range (`mapFree`). Their loops run on fuel `2 ^ 20 + 1`: after
`2 ^ 20` rounds the location compared with `done` is back at its start,
so a loop that has not ended by then never ends.

`translate` is what the MMU does with a directory, and `getPhysAddress`
what the function of that name computes. They are different functions
(only the first looks at the present bits) and agree on the address
spaces the kernel builds.

The last section says of an address what the shifts and masks of the
source make of it: its indices in a directory and a table are quotients
and remainders (`pdeIndex_eq`, `pteIndex_eq`), `base` is the address of
its page (`base_toNat`), and two addresses with the same indices are in
the same page (`same_page`). After this no proof looks at the bits of an
address.
-/

namespace SpKernel

open Lib

abbrev pageFlags : Word := 0x3#32
abbrev secondPde : Word := 0x400000#32

/-- `x & ~ALIGN_MASK` -/
def base (x : Word) : Word := x &&& ~~~0xFFF#32

def pdeIndex (v : Word) : Nat := ((v >>> 22) &&& 0x3FF#32).toNat

def pteIndex (v : Word) : Nat := ((v >>> 12) &&& 0x3FF#32).toNat

def newPageTable (mm : MemMgr) : Except Fault (Word × MemMgr) := getNextPage mm

def setPageDirectory (mm : MemMgr) (directory : Word) : Except Fault MemMgr :=
  if directory = 0 then .error (.panic "need a memory space!")
  else .ok { mm with cr3 := directory }

/-- The inner loop of `setup_initial_page_table`: entries `0 .. jj - 1` of
the `ii`-th table. -/
def fillTable (curPt : Word) (ii : Nat) (m : Mem) (jj : Nat) : Mem :=
  (List.range jj).foldl (fun m jj =>
    writeWord m curPt jj (BitVec.ofNat 32 (ii <<< 22 ||| jj <<< 12) ||| pageFlags)) m

/-- One round of the outer loop of `setup_initial_page_table`. -/
def setupTable (mm : MemMgr) (ii : Nat) : Except Fault MemMgr := do
  let (curPt, mm) ← getNextPage mm
  let m := writeWord mm.mem mm.pageDirectory ii (curPt ||| pageFlags)
  .ok { mm with mem := fillTable curPt ii m 1024 }

def setupInitialPageTable (mm : MemMgr) : Except Fault MemMgr := do
  let (directory, mm) ← getNextPage mm
  let mm := { mm with pageDirectory := directory }
  let mm ← (List.range 1024).foldlM setupTable mm
  let mm := { mm with pageTable := readWord mm.mem mm.pageDirectory 0 }
  setPageDirectory mm mm.pageDirectory

/-- The table for `v` in `vspace`; a new one is allocated if there is
none. -/
def dEntry (mm : MemMgr) (vspace v : Word) : Except Fault (Word × MemMgr) :=
  let entry := base (readWord mm.mem vspace (pdeIndex v))
  if entry = 0 then do
    let (entry, mm) ← newPageTable mm
    .ok (entry, { mm with
      mem := writeWord mm.mem vspace (pdeIndex v) (entry ||| pageFlags) })
  else .ok (entry, mm)

/-- `d_entry[pte_index] = p | PAGE_FLAGS` -/
def setEntry (mm : MemMgr) (entry v p : Word) : MemMgr :=
  { mm with mem := writeWord mm.mem entry (pteIndex v) (p ||| pageFlags) }

/-- The loop of the plain mapping. -/
def mapPlain (vspace done : Word) : Nat → MemMgr → Word → Word → Except Fault MemMgr
  | 0, _, _, _ => .error .diverge
  | fuel + 1, mm, p, v =>
      if p < done then do
        let (entry, mm) ← dEntry mm vspace v
        mapPlain vspace done fuel (setEntry mm entry v p) (p + 4096#32) (v + 4096#32)
      else .ok mm

/-- The loop that maps free pages. -/
def mapFree (vspace done : Word) : Nat → MemMgr → Word → Except Fault MemMgr
  | 0, _, _ => .error .diverge
  | fuel + 1, mm, v =>
      if v < done then do
        let (entry, mm) ← dEntry mm vspace v
        let (p, mm) ← getNextPage mm
        mapFree vspace done fuel (setEntry mm entry v p) (v + 4096#32)
      else .ok mm

abbrev mapFuel : Nat := 2 ^ 20 + 1

/-- `_k_mmap`: the returned address and the value stored in `*status`. -/
def kMmap (mm : MemMgr) (vspace vmemStart pmemStart length : Word) :
    Except Fault (Word × Status × MemMgr) :=
  if vspace = mm.pageDirectory ∨ vmemStart < secondPde then
    .error (.panic "Cannot remap identity paging")
  else if (vmemStart ||| pmemStart) &&& 0xFFF#32 ≠ 0#32 then
    .ok (0, .failure, mm)
  else if pmemStart ≠ 0 then do
    let mm ← mapPlain vspace (pmemStart + length) mapFuel mm pmemStart vmemStart
    .ok (vmemStart, .success, mm)
  else do
    let mm ← mapFree vspace (vmemStart + length) mapFuel mm vmemStart
    .ok (vmemStart, .success, mm)

def newPageDirectory (mm : MemMgr) : Except Fault (Word × MemMgr) := do
  let (pde, mm) ← getNextPage mm
  let m := memset mm.mem pde 0 pageSize
  .ok (pde, { mm with mem := writeWord m pde 0 mm.pageTable })

/-- The table an address space has for directory slot `i`, 0 for none. -/
def tableOf (mm : MemMgr) (space : Word) (i : Nat) : Word := base (readWord mm.mem space i)

/-- `get_phys_address`; 0 is `NULL`. -/
def getPhysAddress (mm : MemMgr) (space v : Word) : Word :=
  let entry := tableOf mm space (pdeIndex v)
  if entry = 0 then 0 else base (readWord mm.mem entry (pteIndex v))

def setReturnPde (mm : MemMgr) (dir : Word) : MemMgr := { mm with lastPde := dir }

def getIdentityMapped (mm : MemMgr) : Word := mm.pageDirectory

/-! ## The MMU -/

/-- The present bit of a directory or table entry. -/
def present (entry : Word) : Bool := entry.getLsbD 0

/-- The location the MMU finds for the address `a` while `space` is
loaded; `none` is a page fault. -/
def translate (mm : MemMgr) (space a : Word) : Option Word :=
  let pde := readWord mm.mem space (pdeIndex a)
  let pte := readWord mm.mem (base pde) (pteIndex a)
  if present pde && present pte then some (base pte ||| (a &&& 0xFFF#32)) else none

/-! ## Address arithmetic -/

theorem pdeIndex_eq (v : Word) : pdeIndex v = v.toNat / 2 ^ 22 := by
  have h := v.isLt
  simp only [pdeIndex, BitVec.toNat_and, BitVec.toNat_ushiftRight, BitVec.toNat_ofNat,
    Nat.shiftRight_eq_div_pow]
  rw [show 0x3FF % 2 ^ 32 = 2 ^ 10 - 1 from rfl, Nat.and_two_pow_sub_one_eq_mod]
  omega

theorem pteIndex_eq (v : Word) : pteIndex v = pageOf v % 1024 := by
  simp only [pteIndex, pageOf, BitVec.toNat_and, BitVec.toNat_ushiftRight, BitVec.toNat_ofNat,
    Nat.shiftRight_eq_div_pow]
  rw [show 0x3FF % 2 ^ 32 = 2 ^ 10 - 1 from rfl, Nat.and_two_pow_sub_one_eq_mod]

theorem pdeIndex_lt (v : Word) : pdeIndex v < 1024 := by
  have h := v.isLt
  rw [pdeIndex_eq]
  omega

theorem pteIndex_lt (v : Word) : pteIndex v < 1024 := by
  rw [pteIndex_eq]
  omega

/-- Two addresses share both indices exactly when they are on one page. -/
theorem same_page {v a : Word} :
    pdeIndex a = pdeIndex v ∧ pteIndex a = pteIndex v ↔ pageOf a = pageOf v := by
  rw [pdeIndex_eq, pdeIndex_eq, pteIndex_eq, pteIndex_eq]
  unfold pageOf
  omega

theorem alignMask_bit : ∀ i < 32, (~~~0xFFF#32).getLsbD i = decide (12 ≤ i) := by
  decide

theorem base_toNat (x : Word) : (base x).toNat = x.toNat / 4096 * 4096 := by
  have h : base x = (x >>> 12) <<< 12 := by
    refine BitVec.eq_of_getLsbD_eq fun i hi => ?_
    rw [base, BitVec.getLsbD_and, alignMask_bit i hi, BitVec.getLsbD_shiftLeft,
      BitVec.getLsbD_ushiftRight]
    by_cases hlt : i < 12
    · simp [hlt]
    · have hge : 12 ≤ i := by omega
      simp [hlt, hge, hi]
  have hx := x.isLt
  rw [h, BitVec.toNat_shiftLeft, BitVec.toNat_ushiftRight, Nat.shiftLeft_eq,
    Nat.shiftRight_eq_div_pow]
  omega

theorem base_aligned (x : Word) : PageAligned (base x) := by
  unfold PageAligned
  rw [base_toNat]
  omega

theorem base_of_aligned {x : Word} (h : PageAligned x) : base x = x := by
  unfold PageAligned at h
  have : (base x).toNat = x.toNat := by
    rw [base_toNat]
    omega
  exact BitVec.eq_of_toNat_eq this

theorem base_or_flags {p : Word} (h : PageAligned p) : base (p ||| pageFlags) = p := by
  have hflags : base (p ||| pageFlags) = base p ||| base pageFlags :=
    BitVec.and_or_distrib_right
  rw [hflags, base_of_aligned h, show base pageFlags = 0#32 by decide]
  exact BitVec.or_zero

end SpKernel
