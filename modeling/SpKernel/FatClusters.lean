import SpKernel.IoObjects

/-!
# Reserving a cluster (`fat.c`)

`grab_next_free_clusters` is to reserve the first free entry of the FAT
and to tell its number. It has no return statement and never stores a
number (`grabNextFreeClusters_silent`), so it does not do what it is for
on any disk.

What it writes is right if there is a free entry and the buffer it tests
before it has read anything happens not to be zero; if it is zero, entry
1 is overwritten (`grab_never_allocates`). The entry that is written is
the one in front of the offset where the loop ends: the first entry that
is zero (`grab_reserves`), in the FAT or behind it.

The device is a parameter with what it reads and writes (`FatDriver`),
and `fatDisk` is the one that behaves as a disk. The buffer is the four
bytes of a word, and it tests as zero only if all of them are
(`read_zero_iff`).
-/

namespace SpKernel

open Lib

structure FatContext where
  cache : Word
  filesystem : IoPtr
  mount : IoPtr
  driver : IoPtr
  sectorSize : Word
  clusterSize : Word
  clustersPerFat : Word
deriving DecidableEq

/-- The routines of a device, and what is on it. A call gets the length it is passed
the address of, and leaves another one there. -/
structure FatDriver (σ : Type) where
  read : σ → Word → Word → (Fin 4 → Byte) → Status × Word × (Fin 4 → Byte) × σ
  write : σ → Word → Word → Word → Status × Word × σ
  content : σ → Mem

def byteOffsetFat (ctx : FatContext) (fatSelect : Word) : Status × Word :=
  let offset : Word := 1024
  if fatSelect = 0 then (.success, offset) else (.success, offset + 4 * ctx.clustersPerFat)

/-- The device after `grab_next_free_clusters`, what it has stored in `*start`, and
what it has returned. -/
structure GrabResult (σ : Type) where
  device : σ
  start : Option Word
  status : Option Status

variable {σ : Type}

/-- The loop of `grab_next_free_clusters`: the offset and `size` at its end. -/
def grabLoop (driver : FatDriver σ) :
    Nat → σ → Word → Word → (Fin 4 → Byte) → Except Fault (Word × Word × σ)
  | 0, _, _, _, _ => .error .diverge
  | fuel + 1, s, startingOffset, size, buffer =>
      if buffer 0 ≠ 0 ∨ buffer 1 ≠ 0 ∨ buffer 2 ≠ 0 ∨ buffer 3 ≠ 0 then
        let (_, size, buffer, s) := driver.read s startingOffset size buffer
        grabLoop driver fuel s (startingOffset + 4) size buffer
      else .ok (startingOffset, size, s)

/-- `grab_next_free_clusters`, with the buffer it finds on its stack, in so many
rounds. There is no bound to its loop, no assignment to `*start`, and no return
statement. -/
def grabNextFreeClusters (driver : FatDriver σ) (fuel : Nat) (s : σ) (ctx : FatContext)
    (_filesize : Word) (buffer : Fin 4 → Byte) : Except Fault (GrabResult σ) := do
  let startingOffset := (byteOffsetFat ctx 0).2 + 2 * 4
  let (startingOffset, size, s) ← grabLoop driver fuel s startingOffset 4 buffer
  let reserve : Word := 0xFFFFFFFF
  let (_, _, s) := driver.write s (startingOffset - size) size reserve
  .ok ⟨s, none, none⟩

/-! ## What it is to do -/

/-- The offset of an entry of the first FAT. -/
def entryOffset (i : Nat) : Word := 1024 + BitVec.ofNat 32 (4 * i)

/-- The entry is in the FAT, is not one of the first two, and is free. -/
def IsFreeCluster (m : Mem) (ctx : FatContext) (i : Nat) : Prop :=
  2 ≤ i ∧ i < ctx.clustersPerFat.toNat ∧ load32 m (entryOffset i) = 0

/-- The first of them. -/
def IsFirstFreeCluster (m : Mem) (ctx : FatContext) (i : Nat) : Prop :=
  IsFreeCluster m ctx i ∧ ∀ j < i, ¬IsFreeCluster m ctx j

/-- The entry has been reserved, and nothing else written. -/
def Reserved (m m' : Mem) (i : Nat) : Prop := m' = store 4 m (entryOffset i) (0xFFFFFFFF : Word)

/-- The first free cluster is reserved and told, or there is none and an error is
returned. -/
def AllocatesCluster (driver : FatDriver σ) (s : σ) (ctx : FatContext) (filesize : Word)
    (buffer : Fin 4 → Byte) : Prop :=
  ∃ fuel r, grabNextFreeClusters driver fuel s ctx filesize buffer = .ok r
    ∧ ((∃ i, IsFirstFreeCluster (driver.content s) ctx i
        ∧ Reserved (driver.content s) (driver.content r.device) i
        ∧ r.start = some (BitVec.ofNat 32 i) ∧ r.status = some .success)
      ∨ (∀ i, ¬IsFreeCluster (driver.content s) ctx i)
        ∧ driver.content r.device = driver.content s ∧ ∃ st ≠ .success, r.status = some st)

theorem grabNextFreeClusters_silent {driver : FatDriver σ} {fuel : Nat} {s : σ} {ctx : FatContext}
    {filesize : Word} {buffer : Fin 4 → Byte} {r : GrabResult σ}
    (h : grabNextFreeClusters driver fuel s ctx filesize buffer = .ok r) :
    r.start = none ∧ r.status = none := by
  obtain ⟨x, -, hr⟩ := bind_eq_ok.mp h
  obtain rfl := Except.ok.inj hr
  exact ⟨rfl, rfl⟩

theorem not_allocatesCluster (driver : FatDriver σ) (s : σ) (ctx : FatContext) (filesize : Word)
    (buffer : Fin 4 → Byte) : ¬AllocatesCluster driver s ctx filesize buffer := by
  rintro ⟨fuel, r, hr, h⟩
  obtain ⟨-, hstatus⟩ := grabNextFreeClusters_silent hr
  rcases h with ⟨i, -, -, -, hs⟩ | ⟨-, -, st, -, hs⟩
  · cases hstatus.symm.trans hs
  · cases hstatus.symm.trans hs

/-! ## What it reserves -/

/-- A device that is as large as offsets reach. -/
def fatDisk : FatDriver Mem where
  read m offset size buffer := (.success, size, fun i =>
    if i.val < size.toNat then m (offset + BitVec.ofNat 32 i) else buffer i, m)
  write m offset size value := (.success, size, store size.toNat m offset value)
  content m := m

/-- The first free cluster is reserved, whatever is told. -/
def ReservesFirst (m : Mem) (ctx : FatContext) (filesize : Word) (buffer : Fin 4 → Byte) : Prop :=
  ∃ fuel r i, grabNextFreeClusters fatDisk fuel m ctx filesize buffer = .ok r
    ∧ IsFirstFreeCluster m ctx i ∧ Reserved m r.device i

variable {m : Mem} {ctx : FatContext} {filesize : Word} {buffer : Fin 4 → Byte}

theorem fatDisk_read (m : Mem) (offset : Word) (buffer : Fin 4 → Byte) :
    fatDisk.read m offset 4 buffer
      = (Status.success, 4, fun i : Fin 4 => m (offset + BitVec.ofNat 32 i), m) := by
  have hread : ∀ i : Fin 4, (if i.val < (4 : Word).toNat then m (offset + BitVec.ofNat 32 i)
      else buffer i) = m (offset + BitVec.ofNat 32 i) := fun i => if_pos i.isLt
  simp only [fatDisk, hread]

/-- A word read into the buffer is zero if all the buffer is. -/
theorem read_zero_iff (m : Mem) (offset : Word) :
    (∀ k : Fin 4, m (offset + BitVec.ofNat 32 k) = 0) ↔ load32 m offset = 0 := by
  rw [load32_eq_zero, Fin.forall_iff]

theorem test_iff (buffer : Fin 4 → Byte) :
    (buffer 0 ≠ 0 ∨ buffer 1 ≠ 0 ∨ buffer 2 ≠ 0 ∨ buffer 3 ≠ 0) ↔ ¬∀ k, buffer k = 0 := by
  rw [Fin.forall_fin_succ, Fin.forall_fin_succ, Fin.forall_fin_succ, Fin.forall_fin_one]
  simp only [not_and_or]
  rfl

/-- A zero buffer ends the loop, before anything is read if it was zero to begin with. -/
theorem grabLoop_zero (driver : FatDriver σ) (fuel : Nat) (s : σ) (offset size : Word)
    (h : ∀ k, buffer k = 0) :
    grabLoop driver (fuel + 1) s offset size buffer = .ok (offset, size, s) :=
  if_neg fun htest => (test_iff buffer).mp htest h

theorem grabLoop_round (fuel : Nat) (m : Mem) (offset : Word) (h : ¬∀ k, buffer k = 0) :
    grabLoop fatDisk (fuel + 1) m offset 4 buffer
      = grabLoop fatDisk fuel m (offset + 4) 4 (fun k => m (offset + BitVec.ofNat 32 k)) := by
  rw [grabLoop, if_pos ((test_iff buffer).mpr h), fatDisk_read]

theorem entryOffset_succ (j : Nat) : entryOffset j + 4 = entryOffset (j + 1) := by
  unfold entryOffset
  rw [Nat.mul_succ, BitVec.ofNat_add, ← BitVec.add_assoc]
  rfl

theorem entryOffset_back (j : Nat) : entryOffset (j + 1) - 4 = entryOffset j := by
  rw [← entryOffset_succ, BitVec.add_sub_cancel]

/-- The loop ends behind the first entry that is zero. -/
theorem grabLoop_entries (d : Nat) {j : Nat} (hbuf : ¬∀ k, buffer k = 0)
    (hbefore : ∀ k, j ≤ k → k < j + d → load32 m (entryOffset k) ≠ 0)
    (hzero : load32 m (entryOffset (j + d)) = 0) :
    grabLoop fatDisk (d + 2) m (entryOffset j) 4 buffer
      = .ok (entryOffset (j + d + 1), 4, m) := by
  induction d generalizing j buffer with
  | zero =>
      rw [grabLoop_round _ _ _ hbuf, entryOffset_succ]
      exact grabLoop_zero _ _ _ _ _ ((read_zero_iff m _).mpr hzero)
  | succ d ih =>
      have hnext : ¬∀ k : Fin 4, m (entryOffset j + BitVec.ofNat 32 k) = 0 := fun h =>
        hbefore j le_rfl (by omega) ((read_zero_iff m _).mp h)
      rw [grabLoop_round _ _ _ hbuf, entryOffset_succ,
        ih hnext (fun k hk hk' => hbefore k (by omega) (by omega))
          (by rwa [Nat.add_assoc, Nat.add_comm 1 d])]
      rw [Nat.add_assoc j 1 d, Nat.add_comm 1 d]

/-- The entry before the offset that the loop ends at is written. -/
theorem grab_of_loop {fuel : Nat} {offset : Word}
    (h : grabLoop fatDisk fuel m (entryOffset 2) 4 buffer = .ok (offset, 4, m)) :
    grabNextFreeClusters fatDisk fuel m ctx filesize buffer
      = .ok ⟨store 4 m (offset - 4) (0xFFFFFFFF : Word), none, none⟩ :=
  bind_eq_ok.mpr ⟨(offset, 4, m), h, rfl⟩

/-- What is reserved is the first entry that is zero, in the FAT or behind it. -/
theorem grab_reserves {i : Nat} (hbuf : ¬∀ k, buffer k = 0) (hi : 2 ≤ i)
    (hbefore : ∀ k, 2 ≤ k → k < i → load32 m (entryOffset k) ≠ 0)
    (hzero : load32 m (entryOffset i) = 0) :
    grabNextFreeClusters fatDisk i m ctx filesize buffer
      = .ok ⟨store 4 m (entryOffset i) (0xFFFFFFFF : Word), none, none⟩ := by
  obtain ⟨d, rfl⟩ := Nat.exists_eq_add_of_le hi
  have hloop := grabLoop_entries d hbuf hbefore hzero
  rw [Nat.add_comm d 2] at hloop
  rw [grab_of_loop hloop, entryOffset_back]

theorem grab_zero (fuel : Nat) (h : ∀ k, buffer k = 0) :
    grabNextFreeClusters fatDisk (fuel + 1) m ctx filesize buffer
      = .ok ⟨store 4 m (entryOffset 1) (0xFFFFFFFF : Word), none, none⟩ := by
  rw [grab_of_loop (grabLoop_zero fatDisk fuel m (entryOffset 2) 4 h), entryOffset_back 1]

theorem exists_isFirstFreeCluster (h : ∃ i, IsFreeCluster m ctx i) :
    ∃ i, IsFirstFreeCluster m ctx i := by
  classical
  exact ⟨Nat.find h, Nat.find_spec h, fun j => Nat.find_min h⟩

/-- Writing one entry leaves another one that is further on. -/
theorem load32_entry {i j : Nat} {v : Word} (hij : i < j) (hj : 1024 + 4 * (j + 1) ≤ 2 ^ 31) :
    load32 (store 4 m (entryOffset i) v) (entryOffset j) = load32 m (entryOffset j) := by
  refine load32_congr fun k hk => if_neg ?_
  simp only [entryOffset, BitVec.toNat_sub, BitVec.toNat_add, BitVec.toNat_ofNat]
  omega

theorem reservesFirst_iff (hfit : 1024 + 4 * ctx.clustersPerFat.toNat ≤ 2 ^ 31) :
    ReservesFirst m ctx filesize buffer
      ↔ (¬∀ k, buffer k = 0) ∧ ∃ i, IsFreeCluster m ctx i := by
  constructor
  · rintro ⟨fuel, r, i, hr, hfirst, hreserved⟩
    refine ⟨fun hbuf => ?_, i, hfirst.1⟩
    obtain ⟨hi, hlt, hzero⟩ := hfirst.1
    cases fuel with
    | zero => cases hr
    | succ fuel =>
        -- entry 1 has been written, and not the one that was free
        have hr1 := hr.symm.trans (grab_zero fuel hbuf)
        have hsame : store 4 m (entryOffset i) (0xFFFFFFFF : Word)
            = store 4 m (entryOffset 1) (0xFFFFFFFF : Word) :=
          hreserved.symm.trans (congrArg GrabResult.device (Except.ok.inj hr1))
        have hkept := congrArg (load32 · (entryOffset i)) hsame
        rw [load32_store, load32_entry (by omega) (by omega), hzero] at hkept
        exact absurd hkept (by decide)
  · rintro ⟨hbuf, hfree⟩
    obtain ⟨i, hfirst⟩ := exists_isFirstFreeCluster hfree
    obtain ⟨hi, hlt, hzero⟩ := hfirst.1
    refine ⟨i, _, i, grab_reserves hbuf hi (fun k hk hki hz => ?_) hzero, hfirst, rfl⟩
    exact hfirst.2 k hki ⟨hk, by omega, hz⟩

/-- Cluster allocation: nothing is ever told. The right entry is reserved if there is
one and the buffer is not zero before the first read. -/
theorem grab_never_allocates (driver : FatDriver σ) (s : σ) (ctx : FatContext) (filesize : Word)
    (buffer : Fin 4 → Byte) :
    ¬AllocatesCluster driver s ctx filesize buffer
    ∧ ∀ m : Mem, 1024 + 4 * ctx.clustersPerFat.toNat ≤ 2 ^ 31 →
      (ReservesFirst m ctx filesize buffer
        ↔ (¬∀ k, buffer k = 0) ∧ ∃ i, IsFreeCluster m ctx i) :=
  ⟨not_allocatesCluster driver s ctx filesize buffer, fun _ hfit => reservesFirst_iff hfit⟩

/-- Entry 2 is free, and gets reserved, but nothing is told. -/
theorem grab_never_allocates_entry :
    ReservesFirst (fun _ => 0) ⟨0, .addr 0, .addr 0, .addr 0, 512, 32768, 100⟩ 0 (fun _ => 1)
    ∧ ¬AllocatesCluster fatDisk (fun _ => 0) ⟨0, .addr 0, .addr 0, .addr 0, 512, 32768, 100⟩ 0
      (fun _ => 1) := by
  obtain ⟨hnone, hreserves⟩ := grab_never_allocates fatDisk (fun _ => 0)
    ⟨0, .addr 0, .addr 0, .addr 0, 512, 32768, 100⟩ 0 (fun _ => 1)
  refine ⟨(hreserves (fun _ => 0) (by decide)).mpr ⟨fun h => ?_, 2, le_rfl, by decide, rfl⟩, hnone⟩
  exact absurd (h 0) (by decide)

/-- Nothing is told, with all entries free. -/
theorem grab_never_allocates_empty :
    ¬AllocatesCluster fatDisk (fun _ => 0) ⟨0, .addr 0, .addr 0, .addr 0, 512, 32768, 100⟩ 0
      (fun _ => 1) :=
  not_allocatesCluster _ _ _ _ _

end SpKernel
