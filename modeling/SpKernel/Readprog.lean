import SpKernel.BuildImage
import Mathlib.Tactic.Ring
import Mathlib.Logic.Function.Iterate

/-!
# Reading the programs (`bootstrap.S`)

`readprog` reads a program from the disk, sector by sector, to `es:bx`.
It adds the size of a sector to `bx`, and moves `es` on when `bx` is
exactly the last sector of a segment. With an offset in the address it
never is, and from the 128th sector on the program comes back over its
beginning. `loaded_at_iff` says which programs are read to where
`BuildImage` was asked to put them.

The BIOS is a parameter: `carry` says of the reads, in order, which of
them fail. A read that fails is tried again, and the third failure in a
row ends everything (`retry`), so results about what is loaded assume
that no three fail in a row (`NeverThrice`).

Two things are followed through the rounds, each on its own: which sector
is read (`nextSector_cases`, with sectors, heads and tracks as the
geometry has them), and where it is put (`nextAddress_aligned` for an
address without an offset, `nextAddress_offset` for one with).
`readprog_reads` has both for a whole program.
-/

namespace SpKernel

/-- What the BIOS says of the drive: the last sector of a track, with two bits
of something else, and the last head. -/
structure Geometry where
  cl : Byte
  dh : Byte
  hasSectors : cl &&& 0x3F ≠ 0

def Geometry.maxSec (g : Geometry) : Byte := (g.cl &&& 0x3F) + 1

def Geometry.maxHead (g : Geometry) : Byte := g.dh + 1

def Geometry.sectors (g : Geometry) : Nat := (g.cl &&& 0x3F).toNat

def Geometry.heads (g : Geometry) : Nat := g.dh.toNat + 1

/-- `sec` and `head`: track, head and sector. -/
structure Chs where
  ch : Byte
  dh : Byte
  cl : Byte

/-- The sector of the disk, from 0. -/
def Chs.sector (g : Geometry) (c : Chs) : Nat :=
  (c.ch.toNat * g.heads + c.dh.toNat) * g.sectors + (c.cl.toNat - 1)

/-- A sector that is read, and where to. -/
structure DiskRead where
  chs : Chs
  es : Half
  bx : Half

/-- The registers and variables of `readprog`; `calls` counts the calls of the
BIOS. -/
structure ReadState where
  es : Half
  bx : Half
  chs : Chs
  calls : Nat

/-- The loop at `retry`: the calls made when one has worked. -/
def retry (carry : Nat → Bool) : Nat → Nat → Option Nat
  | 0, _ => none
  | cx + 1, calls => if carry calls then retry carry cx (calls + 1) else some (calls + 1)

/-- From `readcont` to `readcont2` -/
def nextAddress : Half × Half → Half × Half
  | (es, bx) => if bx = 0xFE00 then (es + 0x1000, 0) else (es, bx + 0x200)

/-- From `readcont2` to `save_sector` -/
def nextSector (g : Geometry) (c : Chs) : Option Chs :=
  let c := { c with cl := c.cl + 1 }
  if g.maxSec ≠ c.cl then some c
  else
    let c := { c with cl := 1, dh := c.dh + 1 }
    if g.maxHead ≠ c.dh then some c
    else
      let c := { c with dh := 0, ch := c.ch + 1 }
      if 80 ≠ c.ch then some c else none

/-- One round of `readprog`: the sector it has read, and the state unless it
freezes. -/
def readSector (g : Geometry) (carry : Nat → Bool) (r : ReadState) :
    List DiskRead × Option ReadState :=
  match retry carry 3 r.calls with
  | none => ([], none)
  | some calls =>
      let (es, bx) := nextAddress (r.es, r.bx)
      ([⟨r.chs, r.es, r.bx⟩], (nextSector g r.chs).map fun chs => ⟨es, bx, chs, calls⟩)

/-- `readprog` with a sector count in `ax`, which is signed in the test after
`decw`. -/
def readprog (g : Geometry) (carry : Nat → Bool) : Nat → ReadState →
    List DiskRead × Option ReadState
  | 0, r => readSector g carry r
  | ax + 1, r =>
      match readSector g carry r with
      | (reads, none) => (reads, none)
      | (reads, some r) =>
          if 1 < (BitVec.ofNat 16 (ax + 1)).toInt then
            let (more, last) := readprog g carry ax r
            (reads ++ more, last)
          else (reads, some r)

/-- The call that `nextblock` makes for a block. -/
def readBlock (g : Geometry) (carry : Nat → Bool) (b : Block) (r : ReadState) :
    List DiskRead × Option ReadState :=
  readprog g carry b.count.toNat { r with es := b.segment, bx := b.offset }

/-- Real-mode addresses. -/
def physical (segment offset : Half) : Nat := 16 * segment.toNat + offset.toNat

/-- The reads take the sectors of a file, from the first on, to the address
and behind it. -/
def LoadedAt (g : Geometry) (reads : List DiskRead) (first : Nat) (address : Int) (n : Nat) :
    Prop :=
  ∀ k < n, ∃ read, reads[k]? = some read ∧ read.chs.sector g = first + k
    ∧ ∀ j < 512, (physical read.es (read.bx + BitVec.ofNat 16 j) : Int) = address + 512 * k + j

/-- The disk has the sector. -/
structure HasSector (g : Geometry) (c : Chs) : Prop where
  track : c.ch.toNat < 80
  head : c.dh.toNat < g.heads
  first : 1 ≤ c.cl.toNat
  last : c.cl.toNat ≤ g.sectors

/-- The BIOS never fails three times in a row. -/
def NeverThrice (carry : Nat → Bool) : Prop :=
  ∀ i, carry i = false ∨ carry (i + 1) = false ∨ carry (i + 2) = false

/-! ## Sectors -/

theorem sectors_le (g : Geometry) : g.sectors ≤ 63 := by
  unfold Geometry.sectors
  rw [BitVec.toNat_and]
  exact Nat.and_le_right

theorem HasSector.lt {g : Geometry} {c : Chs} (h : HasSector g c) :
    c.sector g < 80 * g.heads * g.sectors := by
  have hline : c.ch.toNat * g.heads + c.dh.toNat + 1 ≤ 80 * g.heads := by
    have htrack := Nat.mul_le_mul_right g.heads (Nat.succ_le_of_lt h.track)
    have := h.head
    rw [Nat.succ_mul] at htrack
    omega
  have hcell := Nat.mul_le_mul_right g.sectors hline
  have hfirst := h.first
  have hlast := h.last
  rw [Nat.succ_mul] at hcell
  unfold Chs.sector
  omega

theorem maxSec_toNat (g : Geometry) : g.maxSec.toNat = g.sectors + 1 := by
  have hsec := sectors_le g
  unfold Geometry.maxSec
  rw [BitVec.toNat_add]
  exact Nat.mod_eq_of_lt (show g.sectors + 1 < 256 by omega)

theorem nextSector_cases {g : Geometry} {c : Chs} (h : HasSector g c) :
    (nextSector g c = none ∧ c.sector g + 1 = 80 * g.heads * g.sectors)
    ∨ ∃ c', nextSector g c = some c' ∧ HasSector g c' ∧ c'.sector g = c.sector g + 1 := by
  have hmaxSec := maxSec_toNat g
  have hsec := sectors_le g
  have hheads : g.heads = g.dh.toNat + 1 := rfl
  obtain ⟨htrack, hhead, hfirst, hlast⟩ := h
  have hcl : (c.cl + 1).toNat = c.cl.toNat + 1 := by bv_omega
  unfold nextSector
  simp only
  split
  · next hne =>
      have hless : c.cl.toNat ≠ g.sectors := fun heq =>
        hne (BitVec.eq_of_toNat_eq (by rw [hmaxSec, hcl, heq]))
      refine Or.inr ⟨_, rfl, ⟨htrack, hhead, ?_, ?_⟩, ?_⟩
      · show 1 ≤ (c.cl + 1).toNat
        omega
      · show (c.cl + 1).toNat ≤ g.sectors
        omega
      · show (c.ch.toNat * g.heads + c.dh.toNat) * g.sectors + ((c.cl + 1).toNat - 1)
          = (c.ch.toNat * g.heads + c.dh.toNat) * g.sectors + (c.cl.toNat - 1) + 1
        omega
  · next heq =>
      -- the end of a track
      have hend : c.cl.toNat = g.sectors := by
        have := congrArg BitVec.toNat (Decidable.not_not.mp heq)
        omega
      have hsector : c.sector g + 1 = (c.ch.toNat * g.heads + c.dh.toNat + 1) * g.sectors := by
        rw [Nat.succ_mul]
        unfold Chs.sector
        omega
      split
      · next hne =>
          have hdh : c.dh.toNat ≠ g.dh.toNat := fun heq =>
            hne (congrArg (· + 1) (BitVec.eq_of_toNat_eq heq.symm))
          have hnext : (c.dh + 1).toNat = c.dh.toNat + 1 := by bv_omega
          refine Or.inr ⟨_, rfl, ⟨htrack, ?_, le_rfl, hend ▸ hfirst⟩, ?_⟩
          · show (c.dh + 1).toNat < g.heads
            omega
          · rw [hsector]
            show (c.ch.toNat * g.heads + (c.dh + 1).toNat) * g.sectors + 0 = _
            rw [hnext, Nat.add_zero, Nat.add_assoc]
      · next heq =>
          -- the last head of the track
          have hdh : c.dh.toNat + 1 = g.heads := by
            have := congrArg BitVec.toNat (Decidable.not_not.mp heq)
            unfold Geometry.maxHead at this
            bv_omega
          rw [Nat.add_assoc, hdh, ← Nat.succ_mul] at hsector
          have hch : (c.ch + 1).toNat = c.ch.toNat + 1 := by bv_omega
          split
          · next hne =>
              have hless : c.ch.toNat ≠ 79 := fun heq =>
                hne (BitVec.eq_of_toNat_eq (by rw [hch, heq]; rfl))
              refine Or.inr ⟨_, rfl, ⟨?_, ?_, le_rfl, hend ▸ hfirst⟩, ?_⟩
              · show (c.ch + 1).toNat < 80
                omega
              · exact Nat.succ_pos _
              · rw [hsector]
                show ((c.ch + 1).toNat * g.heads + 0) * g.sectors + 0 = _
                rw [hch, Nat.add_zero, Nat.add_zero]
          · next heq =>
              have hlastTrack : c.ch.toNat + 1 = 80 := by
                rw [← hch, ← Decidable.not_not.mp heq]
                rfl
              rw [Nat.succ_eq_add_one, hlastTrack] at hsector
              exact Or.inl ⟨rfl, hsector⟩

/-! ## Rounds -/

theorem retry_some {carry : Nat → Bool} (h : NeverThrice carry) (calls : Nat) :
    ∃ calls', retry carry 3 calls = some calls' := by
  unfold retry
  split
  · next h0 =>
      unfold retry
      split
      · next h1 =>
          refine ⟨calls + 1 + 1 + 1, ?_⟩
          have h2 : carry (calls + 2) = false :=
            ((h calls).resolve_left (by rw [h0]; decide)).resolve_left (by rw [h1]; decide)
          unfold retry
          rw [h2]
          rfl
      · exact ⟨_, rfl⟩
  · exact ⟨_, rfl⟩

/-- A round reads the sector at `es:bx` and goes on to the next, or freezes
after the last sector of the disk. -/
theorem readSector_cases {g : Geometry} {carry : Nat → Bool} {r : ReadState}
    (hcarry : NeverThrice carry) (h : HasSector g r.chs) :
    (readSector g carry r = ([⟨r.chs, r.es, r.bx⟩], none)
      ∧ r.chs.sector g + 1 = 80 * g.heads * g.sectors)
    ∨ ∃ r', readSector g carry r = ([⟨r.chs, r.es, r.bx⟩], some r') ∧ HasSector g r'.chs
      ∧ r'.chs.sector g = r.chs.sector g + 1 ∧ (r'.es, r'.bx) = nextAddress (r.es, r.bx) := by
  obtain ⟨calls, hcalls⟩ := retry_some hcarry r.calls
  unfold readSector
  rw [hcalls]
  simp only
  rcases nextSector_cases h with ⟨hnone, hend⟩ | ⟨chs, hsome, hon, hsector⟩
  · rw [hnone]
    exact Or.inl ⟨rfl, hend⟩
  · rw [hsome]
    exact Or.inr ⟨_, rfl, hon, hsector, rfl⟩

/-- The reads of a call, in order: the sectors of the disk from the one it is
at, at the addresses `nextAddress` goes through. -/
theorem readprog_reads {g : Geometry} {carry : Nat → Bool} (hcarry : NeverThrice carry) :
    ∀ {ax : Nat} {r : ReadState}, HasSector g r.chs → ∀ {k : Nat} {read : DiskRead},
      (readprog g carry ax r).1[k]? = some read →
      read.chs.sector g = r.chs.sector g + k
      ∧ (read.es, read.bx) = nextAddress^[k] (r.es, r.bx)
      ∧ r.chs.sector g + k < 80 * g.heads * g.sectors := by
  have hone : ∀ {r : ReadState}, HasSector g r.chs → ∀ {k : Nat} {read : DiskRead},
      [(⟨r.chs, r.es, r.bx⟩ : DiskRead)][k]? = some read →
      read.chs.sector g = r.chs.sector g + k
      ∧ (read.es, read.bx) = nextAddress^[k] (r.es, r.bx)
      ∧ r.chs.sector g + k < 80 * g.heads * g.sectors := by
    intro r hr k read hk
    cases k with
    | zero =>
        obtain rfl := Option.some.inj hk
        exact ⟨rfl, rfl, hr.lt⟩
    | succ k => cases hk
  intro ax
  induction ax with
  | zero =>
      intro r hr k read hk
      unfold readprog at hk
      rcases readSector_cases hcarry hr with ⟨heq, -⟩ | ⟨r', heq, -⟩ <;>
        exact hone hr (by rw [heq] at hk; exact hk)
  | succ ax ih =>
      intro r hr k read hk
      unfold readprog at hk
      rcases readSector_cases hcarry hr with ⟨heq, -⟩ | ⟨r', heq, hon, hsector, haddr⟩
      · rw [heq] at hk
        exact hone hr hk
      · rw [heq] at hk
        simp only at hk
        split at hk
        · cases k with
          | zero => exact hone hr hk
          | succ k =>
              obtain ⟨hread, haddress, hlt⟩ := ih hon hk
              rw [hsector] at hread hlt
              rw [haddr] at haddress
              exact ⟨by omega, haddress, by omega⟩
        · exact hone hr hk

/-- A call goes through all sectors it is asked for, if the disk has them. -/
theorem readprog_length {g : Geometry} {carry : Nat → Bool} (hcarry : NeverThrice carry) :
    ∀ {n : Nat} {r : ReadState}, HasSector g r.chs → n < 2 ^ 15 →
      r.chs.sector g + n ≤ 80 * g.heads * g.sectors →
      n ≤ (readprog g carry n r).1.length := by
  intro n
  induction n with
  | zero => exact fun _ _ _ => Nat.zero_le _
  | succ n ih =>
      intro r hr hsmall hroom
      unfold readprog
      rcases readSector_cases hcarry hr with ⟨heq, hend⟩ | ⟨r', heq, hon, hsector, -⟩
      · rw [heq]
        show n + 1 ≤ 1
        omega
      · rw [heq]
        simp only
        split
        · have hmore := ih hon (by omega) (by omega)
          simp only [List.cons_append, List.nil_append, List.length_cons]
          omega
        · next hone =>
            have hval : (BitVec.ofNat 16 (n + 1)).toInt = n + 1 := by
              rw [BitVec.toInt_eq_toNat_of_lt] <;> simp only [BitVec.toNat_ofNat] <;> omega
            rw [hval] at hone
            show n + 1 ≤ 1
            omega

/-! ## Addresses -/

theorem nextAddress_aligned (es : Half) (k : Nat) :
    nextAddress^[k] (es, 0)
      = (es + BitVec.ofNat 16 (4096 * (k / 128)), BitVec.ofNat 16 (512 * (k % 128))) := by
  induction k with
  | zero => exact Prod.ext (BitVec.add_zero es).symm rfl
  | succ k ih =>
      rw [Function.iterate_succ_apply', ih]
      unfold nextAddress
      simp only
      split
      · next hlast =>
          have hk : k % 128 = 127 := by
            have := congrArg BitVec.toNat hlast
            rw [BitVec.toNat_ofNat, show (0xFE00 : Half).toNat = 65024 from rfl] at this
            omega
          have hdiv : (k + 1) / 128 = k / 128 + 1 := by omega
          have hmod : (k + 1) % 128 = 0 := by omega
          rw [hdiv, hmod]
          refine Prod.ext ?_ rfl
          show es + BitVec.ofNat 16 (4096 * (k / 128)) + 0x1000
            = es + BitVec.ofNat 16 (4096 * (k / 128 + 1))
          rw [Nat.mul_succ, BitVec.ofNat_add, BitVec.add_assoc]
          rfl
      · next hmore =>
          have hk : k % 128 ≠ 127 := fun heq => hmore (by rw [heq]; rfl)
          have hdiv : (k + 1) / 128 = k / 128 := by omega
          have hmod : (k + 1) % 128 = k % 128 + 1 := by omega
          rw [hdiv, hmod]
          refine Prod.ext rfl ?_
          show BitVec.ofNat 16 (512 * (k % 128)) + 0x200 = BitVec.ofNat 16 (512 * (k % 128 + 1))
          rw [Nat.mul_succ, BitVec.ofNat_add]
          rfl

/-- With an offset the last sector of a segment is never met, and the segment
stays. -/
theorem nextAddress_offset {es bx : Half} (h : bx.toNat % 512 ≠ 0) (k : Nat) :
    nextAddress^[k] (es, bx) = (es, bx + BitVec.ofNat 16 (512 * k)) := by
  induction k with
  | zero => exact Prod.ext rfl (BitVec.add_zero bx).symm
  | succ k ih =>
      rw [Function.iterate_succ_apply', ih]
      have hne : bx + BitVec.ofNat 16 (512 * k) ≠ 0xFE00 := by
        intro heq
        have := congrArg BitVec.toNat heq
        rw [BitVec.toNat_add, BitVec.toNat_ofNat] at this
        have hval : (0xFE00 : Half).toNat = 65024 := rfl
        omega
      unfold nextAddress
      simp only
      rw [if_neg hne, Nat.mul_succ, BitVec.ofNat_add, BitVec.add_assoc]
      rfl

/-- The segment and the offset of an address that is not negative. -/
theorem programInfo_cases {nSectors : Nat} {addr : List Char} {address : Int} {b : Block}
    (h : programInfo nSectors addr = some (address, b)) (h0 : 0 ≤ address) :
    (b.count.toNat : Int) = nSectors ∧ address + 512 * nSectors ≤ 0x9ffff
    ∧ (b.segment.toNat : Int) = address / 16 ∧ (b.offset.toNat : Int) = address % 16 := by
  unfold programInfo at h
  split at h
  · cases h
  · next address' segment offset haddr =>
      obtain ⟨-, hmax, rfl, rfl⟩ := decodeAddress_number haddr
      split at h
      · next hfits =>
          simp only [Option.some.injEq, Prod.mk.injEq] at h
          obtain ⟨rfl, rfl⟩ := h
          have hshift : address' >>> (4 : Nat) = address' / 16 := by
            rw [Int.shiftRight_eq_div_pow]
            rfl
          simp only [BitVec.toNat_ofNat, BitVec.toNat_ofInt, hshift]
          omega
      · cases h

theorem readBlock_reads {g : Geometry} {carry : Nat → Bool} {r : ReadState} {b : Block}
    (hcarry : NeverThrice carry) (hr : HasSector g r.chs) {k : Nat} {read : DiskRead}
    (h : (readBlock g carry b r).1[k]? = some read) :
    read.chs.sector g = r.chs.sector g + k
    ∧ (read.es, read.bx) = nextAddress^[k] (b.segment, b.offset)
    ∧ r.chs.sector g + k < 80 * g.heads * g.sectors :=
  readprog_reads hcarry (r := { r with es := b.segment, bx := b.offset }) hr h

/-- With an offset, sector 127 comes back to the beginning. -/
theorem not_loaded_of_offset {g : Geometry} {carry : Nat → Bool} {r : ReadState}
    {addr : List Char} {address : Int} {b : Block} {n : Nat}
    (hinfo : programInfo n addr = some (address, b)) (h0 : 0 ≤ address)
    (hcarry : NeverThrice carry) (hr : HasSector g r.chs)
    (hoffset : ¬ 16 ∣ address) (hn : 127 < n) :
    ¬ LoadedAt g (readBlock g carry b r).1 (r.chs.sector g) address n := by
  intro h
  obtain ⟨-, -, hseg, hoff⟩ := programInfo_cases hinfo h0
  obtain ⟨read, hget, -, haddr⟩ := h 127 hn
  have hwrap := (readBlock_reads hcarry hr hget).2.1
  rw [nextAddress_offset (by omega), Prod.mk.injEq] at hwrap
  have hlastByte := haddr 511 (by decide)
  unfold physical at hlastByte
  rw [hwrap.1, hwrap.2, BitVec.toNat_add, BitVec.toNat_add, BitVec.toNat_ofNat,
    BitVec.toNat_ofNat] at hlastByte
  omega

/-- `readprog` reads a file to where it was asked to be if the file is empty
or: the address is not negative, it is a multiple of 16 unless the file has
at most 127 sectors, and the disk has all the sectors. -/
theorem loaded_at_iff {g : Geometry} {carry : Nat → Bool} {r : ReadState}
    {contents : List Byte} {addr : List Char} {address : Int} {b : Block}
    (hinfo : programInfo (sectorsOf contents) addr = some (address, b))
    (hcarry : NeverThrice carry) (hr : HasSector g r.chs) :
    LoadedAt g (readBlock g carry b r).1 (r.chs.sector g) address (sectorsOf contents)
      ↔ sectorsOf contents = 0
        ∨ 0 ≤ address ∧ (16 ∣ address ∨ sectorsOf contents ≤ 127)
          ∧ r.chs.sector g + sectorsOf contents ≤ 80 * g.heads * g.sectors := by
  generalize sectorsOf contents = n at *
  constructor
  · intro h
    rcases Nat.eq_zero_or_pos n with hn | hn
    · exact Or.inl hn
    right
    have h0 : 0 ≤ address := by
      obtain ⟨read, -, -, haddr⟩ := h 0 hn
      have := haddr 0 (by decide)
      omega
    refine ⟨h0, ?_, ?_⟩
    · by_contra hnot
      rw [not_or] at hnot
      exact not_loaded_of_offset hinfo h0 hcarry hr hnot.1 (by omega) h
    · obtain ⟨read, hget, -, -⟩ := h (n - 1) (by omega)
      have := (readBlock_reads hcarry hr hget).2.2
      omega
  · rintro (hn | ⟨h0, halign, hroom⟩) k hk
    · omega
    obtain ⟨hcount, hfits, hseg, hoff⟩ := programInfo_cases hinfo h0
    have hlen : n ≤ (readBlock g carry b r).1.length := by
      have hnat : b.count.toNat = n := by omega
      unfold readBlock
      rw [hnat]
      exact readprog_length hcarry (r := { r with es := b.segment, bx := b.offset }) hr
        (by omega) hroom
    have hget : (readBlock g carry b r).1[k]? = some (readBlock g carry b r).1[k] :=
      List.getElem?_eq_getElem (by omega)
    obtain ⟨hsector, haddr, -⟩ := readBlock_reads hcarry hr hget
    refine ⟨_, hget, hsector, fun j hj => ?_⟩
    generalize (readBlock g carry b r).1[k] = read at haddr
    unfold physical
    by_cases h16 : (16 : Int) ∣ address
    · -- from a paragraph on, over as many segments as there are
      have hzero : b.offset = 0 := BitVec.eq_of_toNat_eq (by show _ = 0; omega)
      rw [hzero, nextAddress_aligned, Prod.mk.injEq] at haddr
      rw [haddr.1, haddr.2, BitVec.toNat_add, BitVec.toNat_add]
      simp only [BitVec.toNat_ofNat]
      omega
    · -- with an offset, within one segment
      have hsmall := halign.resolve_left h16
      rw [nextAddress_offset (by omega), Prod.mk.injEq] at haddr
      rw [haddr.1, haddr.2, BitVec.toNat_add, BitVec.toNat_add]
      simp only [BitVec.toNat_ofNat]
      omega

/-- A floppy disk. -/
def floppy : Geometry := ⟨18, 1, by decide⟩

/-- Behind the bootstrap. -/
def afterBootstrap : ReadState := ⟨0, 0, ⟨0, 0, 3⟩, 1⟩

theorem afterBootstrap_hasSector : HasSector floppy afterBootstrap.chs :=
  ⟨by decide, by decide, by decide, by decide⟩

theorem exists_sectors (n : Nat) : ∃ contents : List Byte, sectorsOf contents = n := by
  refine ⟨List.replicate (512 * n) 0, ?_⟩
  unfold sectorsOf
  rw [List.length_replicate]
  omega

/-- A program of 200 sectors, at `0x1f000`. -/
theorem loaded_at_200 : ∃ contents, sectorsOf contents = 200
    ∧ LoadedAt floppy (readBlock floppy (fun _ => false) ⟨200, 0x1f00, 0⟩ afterBootstrap).1
      (afterBootstrap.chs.sector floppy) 0x1f000 (sectorsOf contents) := by
  obtain ⟨contents, h⟩ := exists_sectors 200
  have hinfo : programInfo (sectorsOf contents) ['0', 'x', '1', 'f', '0', '0', '0']
      = some (0x1f000, ⟨200, 0x1f00, 0⟩) := by
    rw [h]
    decide +kernel
  refine ⟨contents, h,
    (loaded_at_iff hinfo (fun _ => Or.inl rfl) afterBootstrap_hasSector).mpr ?_⟩
  rw [h]
  decide +kernel

/-- A program of 128 sectors at `0x10001` is not where it was asked to be. -/
theorem loaded_over_itself : ∃ contents, sectorsOf contents = 128
    ∧ programInfo (sectorsOf contents) ['0', 'x', '1', '0', '0', '0', '1']
      = some (0x10001, ⟨128, 0x1000, 1⟩)
    ∧ ¬ LoadedAt floppy (readBlock floppy (fun _ => false) ⟨128, 0x1000, 1⟩ afterBootstrap).1
      (afterBootstrap.chs.sector floppy) 0x10001 (sectorsOf contents) := by
  obtain ⟨contents, h⟩ := exists_sectors 128
  have hinfo : programInfo 128 ['0', 'x', '1', '0', '0', '0', '1']
      = some (0x10001, ⟨128, 0x1000, 1⟩) := by decide +kernel
  refine ⟨contents, h, ?_⟩
  rw [h]
  exact ⟨hinfo, not_loaded_of_offset hinfo (by decide) (fun _ => Or.inl rfl)
    afterBootstrap_hasSector (by decide) (by decide)⟩

end SpKernel
