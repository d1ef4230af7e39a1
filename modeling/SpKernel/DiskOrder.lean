import SpKernel.Readprog

/-!
# The order of the sectors (`bootstrap.S`)

The bootstrap reads its own second sector, and then the programs one
after the other. `sec` and `head` go on from call to call, so that all
calls together read the disk from sector 1 on without a gap, whatever the
BIOS does and wherever it ends: that is so for a round
(`readSector_from`), and reads that go on where others have ended are
like one run of them (`ReadsFrom.append`).

`ReadsFrom` says of a list of reads that they are of consecutive sectors,
from a given one on. It is a statement about prefixes too, so it holds
also for a loader that stops because a sector cannot be read. Where it
does not stop (`Whole`), the reads are exactly those that the table asks
for (`sectorsAsked`): a count is compared as a signed number after it was
decremented, so that a count above the largest positive one is a single
sector.

`bootReads_order` has both, for every geometry with two sectors to a
track.
-/

namespace SpKernel

/-! ## The source -/

/-- `sec`, `head` and the address for the first call of `readprog`, with
`START_SEGMENT` and `START_OFFSET`. -/
def atStart : ReadState := ⟨0x0000, 0x7E00, ⟨0, 0, 2⟩, 0⟩

/-- `nextblock`, over the blocks of the table: up to a count of zero, or until
the bootstrap freezes. -/
def readBlocks (g : Geometry) (carry : Nat → Bool) :
    List Block → ReadState → List DiskRead × Option ReadState
  | [], r => ([], some r)
  | b :: blocks, r =>
      if b.count = 0 then ([], some r)
      else
        match readBlock g carry b r with
        | (reads, none) => (reads, none)
        | (reads, some r) =>
            let (more, last) := readBlocks g carry blocks r
            (reads ++ more, last)

/-- All sectors that the bootstrap reads, from its second one on. -/
def bootReads (g : Geometry) (carry : Nat → Bool) (blocks : List Block) : List DiskRead :=
  match readprog g carry 1 atStart with
  | (reads, none) => reads
  | (reads, some r) => reads ++ (readBlocks g carry blocks r).1

/-- The sectors that `readprog` goes through with a count: one, if the count
is negative when it is tested. -/
def sectorsAsked (count : Nat) : Nat := if 1 < (BitVec.ofNat 16 count).toInt then count else 1

/-- The sectors of the programs before the end of the table. -/
def programSectors (blocks : List Block) : Nat :=
  ((blocks.takeWhile (·.count ≠ 0)).map fun b => sectorsAsked b.count.toNat).sum

/-! ## Reads without a gap -/

/-- What is read, from sector `n` on, and where it stops. -/
structure ReadsFrom (g : Geometry) (n : Nat) (x : List DiskRead × Option ReadState) : Prop where
  sectors : x.1.map (·.chs.sector g) = List.range' n x.1.length
  has : ∀ read ∈ x.1, HasSector g read.chs
  last : ∀ r, x.2 = some r → HasSector g r.chs ∧ r.chs.sector g = n + x.1.length

section Order

variable {g : Geometry} {carry : Nat → Bool} {n : Nat}

theorem ReadsFrom.nil {r : ReadState} (h : HasSector g r.chs) :
    ReadsFrom g (r.chs.sector g) ([], some r) where
  sectors := rfl
  has := fun _ h => absurd h List.not_mem_nil
  last := fun _ hr => Option.some.inj hr ▸ ⟨h, rfl⟩

theorem ReadsFrom.append {reads : List DiskRead} {r : ReadState}
    {y : List DiskRead × Option ReadState} (h : ReadsFrom g n (reads, some r))
    (h' : ReadsFrom g (r.chs.sector g) y) : ReadsFrom g n (reads ++ y.1, y.2) := by
  have hlast := (h.last r rfl).2
  refine ⟨?_, fun read hread => ?_, fun r' hr' => ?_⟩
  · rw [List.map_append, h.sectors, h'.sectors, hlast, List.length_append]
    exact List.range'_append_1
  · exact (List.mem_append.mp hread).elim (h.has read) (h'.has read)
  · obtain ⟨hhas, hsector⟩ := h'.last r' hr'
    refine ⟨hhas, ?_⟩
    rw [hsector, hlast, List.length_append, Nat.add_assoc]

/-- A round reads the sector it is at, or nothing; and then it is at the next
one, or frozen. -/
theorem readSector_from (carry : Nat → Bool) {r : ReadState} (h : HasSector g r.chs) :
    ReadsFrom g (r.chs.sector g) (readSector g carry r) := by
  have hone : ∀ read ∈ [(⟨r.chs, r.es, r.bx⟩ : DiskRead)], HasSector g read.chs := by
    intro read hread
    rw [List.mem_singleton.mp hread]
    exact h
  unfold readSector
  cases retry carry 3 r.calls with
  | none => exact ⟨rfl, fun _ h => absurd h List.not_mem_nil, nofun⟩
  | some calls =>
      rcases nextSector_cases h with ⟨hnone, -⟩ | ⟨chs, hsome, hhas, hsector⟩
      · simp only [hnone, Option.map_none]
        exact ⟨rfl, hone, nofun⟩
      · simp only [hsome, Option.map_some]
        exact ⟨rfl, hone, fun r' hr' => Option.some.inj hr' ▸ ⟨hhas, hsector⟩⟩

theorem readprog_from (carry : Nat → Bool) : ∀ (ax : Nat) {r : ReadState}, HasSector g r.chs →
    ReadsFrom g (r.chs.sector g) (readprog g carry ax r)
  | 0, _, h => readSector_from carry h
  | ax + 1, r, h => by
      have hround := readSector_from carry h
      unfold readprog
      rcases heq : readSector g carry r with ⟨reads, _ | r'⟩
      · rw [heq] at hround
        exact hround
      · rw [heq] at hround
        simp only
        split
        · exact hround.append (readprog_from carry ax (hround.last r' rfl).1)
        · exact hround

theorem readBlocks_from (carry : Nat → Bool) : ∀ (blocks : List Block) {r : ReadState},
    HasSector g r.chs → ReadsFrom g (r.chs.sector g) (readBlocks g carry blocks r)
  | [], _, h => .nil h
  | b :: blocks, r, h => by
      have hblock : ReadsFrom g (r.chs.sector g) (readBlock g carry b r) :=
        readprog_from carry b.count.toNat (r := { r with es := b.segment, bx := b.offset }) h
      unfold readBlocks
      split
      · exact .nil h
      · rcases heq : readBlock g carry b r with ⟨reads, _ | r'⟩
        · rw [heq] at hblock
          exact hblock
        · rw [heq] at hblock
          exact hblock.append (readBlocks_from carry blocks (hblock.last r' rfl).1)

/-- The bootstrap starts at sector 1 of a disk that has two on a track. -/
theorem hasSector_atStart (h : 2 ≤ g.sectors) : HasSector g atStart.chs where
  track := show 0 < 80 by omega
  head := Nat.succ_pos _
  first := show 1 ≤ 2 by omega
  last := h

theorem sector_atStart (g : Geometry) : atStart.chs.sector g = 1 := by
  show (0 * g.heads + 0) * g.sectors + 1 = 1
  omega

theorem bootReads_from (h : 2 ≤ g.sectors) (carry : Nat → Bool) (blocks : List Block) :
    ∃ last, ReadsFrom g 1 (bootReads g carry blocks, last) := by
  have hfirst := readprog_from carry 1 (hasSector_atStart h)
  rw [sector_atStart] at hfirst
  unfold bootReads
  rcases heq : readprog g carry 1 atStart with ⟨reads, _ | r⟩
  · rw [heq] at hfirst
    exact ⟨none, hfirst⟩
  · rw [heq] at hfirst
    exact ⟨_, hfirst.append (readBlocks_from carry blocks (hfirst.last r rfl).1)⟩

/-! ## All sectors that are asked for -/

/-- The disk ends where the reads do, if they have stopped for good. -/
structure Whole (g : Geometry) (n asked : Nat) (x : List DiskRead × Option ReadState) : Prop where
  length : x.1.length = asked
  frozen : x.2 = none → n + asked = 80 * g.heads * g.sectors

theorem sectorsAsked_pos {count : Nat} (h : 0 < count) : 0 < sectorsAsked count := by
  unfold sectorsAsked
  split
  · exact h
  · exact Nat.one_pos

/-- Up to the largest positive count all of its sectors are asked for. -/
theorem sectorsAsked_eq {count : Nat} (h : 0 < count) (hlt : count < 2 ^ 15) :
    sectorsAsked count = count := by
  have hval : (BitVec.ofNat 16 count).toInt = count := by
    rw [BitVec.toInt_eq_toNat_of_lt] <;> simp only [BitVec.toNat_ofNat] <;> omega
  unfold sectorsAsked
  rw [hval]
  split
  · rfl
  · omega

/-- A count above 1 is one sector and the count below. -/
theorem sectorsAsked_succ {ax : Nat} (hlt : ax + 1 < 2 ^ 16)
    (h : 1 < (BitVec.ofNat 16 (ax + 1)).toInt) :
    sectorsAsked (ax + 1) = 1 + sectorsAsked ax := by
  have hval := BitVec.toInt_eq_toNat_cond (BitVec.ofNat 16 (ax + 1))
  rw [BitVec.toNat_ofNat, Nat.mod_eq_of_lt hlt] at hval
  have hsmall : ax + 1 < 2 ^ 15 := by
    by_contra hlarge
    rw [if_neg (by omega)] at hval
    omega
  rw [if_pos (by omega)] at hval
  rw [sectorsAsked_eq (by omega) hsmall, sectorsAsked_eq (by omega) (by omega), Nat.add_comm]

/-- A call reads all that it is asked for, if the BIOS gives up on none and
the disk has them. -/
theorem readprog_whole (hcarry : NeverThrice carry) {ax : Nat} {r : ReadState}
    (h : HasSector g r.chs) (hlt : ax < 2 ^ 16)
    (hroom : r.chs.sector g + sectorsAsked ax ≤ 80 * g.heads * g.sectors) :
    Whole g (r.chs.sector g) (sectorsAsked ax) (readprog g carry ax r) := by
  induction ax generalizing r with
  | zero =>
      unfold readprog
      rcases readSector_cases hcarry h with ⟨heq, hend⟩ | ⟨r', heq, -⟩
      · rw [heq]
        exact ⟨rfl, fun _ => hend⟩
      · rw [heq]
        exact ⟨rfl, fun hnone => by cases hnone⟩
  | succ ax ih =>
      unfold readprog
      rcases readSector_cases hcarry h with ⟨heq, hend⟩ | ⟨r', heq, hhas, hsector, -⟩
      · have hpos : 0 < sectorsAsked (ax + 1) := sectorsAsked_pos (Nat.succ_pos ax)
        have hone : sectorsAsked (ax + 1) = 1 := by omega
        rw [heq, hone]
        exact ⟨rfl, fun _ => hend⟩
      · rw [heq]
        simp only
        split
        · next hmore =>
            have hsucc := sectorsAsked_succ hlt hmore
            rw [hsucc] at hroom ⊢
            have hrest := ih (show HasSector g r'.chs from hhas) (by omega) (by omega)
            refine ⟨?_, fun hnone => ?_⟩
            · rw [List.length_append, hrest.length]
              rfl
            · have := hrest.frozen hnone
              omega
        · next hlast =>
            rw [sectorsAsked, if_neg hlast]
            exact ⟨rfl, fun hnone => by cases hnone⟩

theorem programSectors_cons (b : Block) (blocks : List Block) : programSectors (b :: blocks)
    = if b.count = 0 then 0 else sectorsAsked b.count.toNat + programSectors blocks := by
  rw [programSectors, List.takeWhile_cons]
  by_cases hzero : b.count = 0
  · rw [if_pos hzero, if_neg (fun h => absurd hzero (of_decide_eq_true h))]
    rfl
  · rw [if_neg hzero, if_pos (decide_eq_true hzero), List.map_cons, List.sum_cons]
    rfl

theorem readBlocks_whole (hcarry : NeverThrice carry) : ∀ {blocks : List Block} {r : ReadState},
    HasSector g r.chs → r.chs.sector g + programSectors blocks ≤ 80 * g.heads * g.sectors →
    (readBlocks g carry blocks r).1.length = programSectors blocks
  | [], _, _, _ => rfl
  | b :: blocks, r, h, hroom => by
      unfold readBlocks
      by_cases hzero : b.count = 0
      · rw [if_pos hzero, programSectors_cons, if_pos hzero]
        rfl
      · have hsum : programSectors (b :: blocks)
            = sectorsAsked b.count.toNat + programSectors blocks := by
          rw [programSectors_cons, if_neg hzero]
        have hhere : ReadsFrom g (r.chs.sector g) (readBlock g carry b r) :=
          readprog_from carry b.count.toNat (r := { r with es := b.segment, bx := b.offset }) h
        rw [hsum] at hroom ⊢
        have hwhole : Whole g (r.chs.sector g) (sectorsAsked b.count.toNat)
            (readBlock g carry b r) :=
          readprog_whole hcarry (r := { r with es := b.segment, bx := b.offset }) h b.count.isLt
            (show r.chs.sector g + _ ≤ _ by omega)
        rw [if_neg hzero]
        rcases heq : readBlock g carry b r with ⟨reads, _ | r'⟩
        · -- frozen behind the last sector of the disk: the other programs have none
          rw [heq] at hwhole
          have hend := hwhole.frozen rfl
          show reads.length = _
          rw [hwhole.length]
          omega
        · rw [heq] at hwhole hhere
          obtain ⟨hhas, hsector⟩ := hhere.last r' rfl
          have hlen : reads.length = sectorsAsked b.count.toNat := hwhole.length
          have hrest := readBlocks_whole hcarry hhas
            (show _ + programSectors blocks ≤ _ by
              rw [hsector]
              show _ + reads.length + _ ≤ _
              omega)
          simp only [List.length_append]
          rw [hrest, hlen]

end Order

/-- Whatever reads fail and however the sectors are split among programs, the
bootstrap reads the sectors of the disk from the first one on, each of them
once. If no read fails three times in a row and the disk has the sectors, it
reads all that are asked for. -/
theorem bootReads_order {g : Geometry} (h : 2 ≤ g.sectors) (carry : Nat → Bool)
    (blocks : List Block) :
    (bootReads g carry blocks).map (·.chs.sector g)
        = List.range' 1 (bootReads g carry blocks).length
    ∧ (∀ read ∈ bootReads g carry blocks, HasSector g read.chs)
    ∧ (NeverThrice carry → 2 + programSectors blocks ≤ 80 * g.heads * g.sectors →
      (bootReads g carry blocks).length = 1 + programSectors blocks) := by
  obtain ⟨last, hfrom⟩ := bootReads_from h carry blocks
  refine ⟨hfrom.sectors, hfrom.has, fun hcarry hroom => ?_⟩
  have hstart := hasSector_atStart h
  have hone : sectorsAsked 1 = 1 := rfl
  have hfirst := readprog_from carry 1 hstart
  have hwhole := readprog_whole hcarry hstart (show 1 < 2 ^ 16 by omega)
    (by rw [hone, sector_atStart]; omega)
  unfold bootReads
  rcases heq : readprog g carry 1 atStart with ⟨reads, _ | r⟩
  · rw [heq] at hwhole
    have hend := hwhole.frozen rfl
    rw [hone, sector_atStart] at hend
    show reads.length = _
    rw [hwhole.length, hone]
    omega
  · rw [heq] at hwhole hfirst
    obtain ⟨hhas, hsector⟩ := hfirst.last r rfl
    have hlen : reads.length = 1 := hwhole.length
    rw [sector_atStart] at hsector
    have hsector' : r.chs.sector g = 1 + reads.length := hsector
    rw [List.length_append, readBlocks_whole hcarry hhas (by omega), hlen]

/-- Two programs on a floppy disk; every other read fails. -/
theorem bootReads_order_floppy :
    (bootReads floppy (fun i => i % 2 = 0) [⟨20, 0x1000, 0⟩, ⟨30, 0x2000, 0⟩]).length = 51 :=
  (bootReads_order (show 2 ≤ floppy.sectors by decide) _ _).2.2
    (fun i => by simp only [decide_eq_false_iff_not]; omega) (by decide)

end SpKernel
