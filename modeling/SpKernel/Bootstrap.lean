import SpKernel.BuildImage

/-!
# The loader of the bootstrap (`bootstrap.S`)

`nextblock` goes down the table of the disk image and has `readprog` read
each program, until it finds a count of zero. Nobody writes that zero: it
is what the bootstrap has below the table. So the table is read as it was
written if that word is zero and no count is (`table_decodes_iff`).

`readprog` is a parameter here. It may do what it likes to memory as long
as the part of the table that is still to be read stays as it is
(`Spares`); a program that is loaded over the table is beyond this
result. The loop stops at a count of zero (`nextblock_stop`) and
otherwise reads one program and goes on six bytes further down
(`nextblock_next`), so `nextblock_iff` is an induction over the programs.
`table_cut_short` has an empty file, whose count of zero ends the loop in
front of the programs behind it.
-/

namespace SpKernel

/-- The data segment of the bootstrap, which starts with its two sectors. -/
abbrev DataSeg := Half → Byte

def DataSeg.half (m : DataSeg) (a : Half) : Half := m (a + 1) ++ m a

abbrev firstcount : Half := 1022#16

/-- The loop of `nextblock`: the blocks it has `readprog` read. `readprog` is
what a call does to the data segment, if it returns. -/
def nextblock (readprog : Block → DataSeg → Option DataSeg) :
    Nat → Half → DataSeg → Option (List Block)
  | 0, _, _ => none
  | fuel + 1, di, m =>
      let ax := m.half di
      if ax = 0 then some []
      else
        let di := di - 2
        let es := m.half di
        let di := di - 2
        let bx := m.half di
        let di := di - 2
        match readprog ⟨ax, es, bx⟩ m with
        | none => none
        | some m => (nextblock readprog fuel di m).map (⟨ax, es, bx⟩ :: ·)

/-! ## The table in memory -/

/-- The second sector of the bootstrap has been loaded. -/
def SecondLoaded (out : List Byte) (m : DataSeg) : Prop :=
  ∀ a, 512 ≤ a → a < 1024 → m (BitVec.ofNat 16 a) = out.getD a 0

/-- `readprog` returns from reading the block, and has not read it over the
second sector of the bootstrap. -/
def Spares (readprog : Block → DataSeg → Option DataSeg) (b : Block) : Prop :=
  ∀ m, ∃ m', readprog b m = some m'
    ∧ ∀ a : Half, 512 ≤ a.toNat → a.toNat < 1024 → m' a = m a

/-- The words stand in the segment from `di` down. -/
def Below (m : DataSeg) : Half → List Half → Prop
  | _, [] => True
  | di, w :: ws => m.half di = w ∧ Below m (di - 2) ws

theorem Below.congr {m m' : DataSeg}
    (hkeep : ∀ a : Half, 512 ≤ a.toNat → a.toNat < 1024 → m' a = m a) :
    ∀ {ws : List Half} {di : Half}, di.toNat ≤ 1022 → 510 + 2 * ws.length ≤ di.toNat →
      Below m di ws → Below m' di ws := by
  intro ws
  induction ws with
  | nil => exact fun _ _ _ => trivial
  | cons w ws ih =>
      intro di hhi hlo h
      simp only [List.length_cons] at hlo
      have hdown : (di - 2).toNat = di.toNat - 2 := by bv_omega
      refine ⟨?_, ih (by omega) (by omega) h.2⟩
      unfold DataSeg.half
      rw [hkeep di (by omega) (by omega), hkeep (di + 1) (by bv_omega) (by bv_omega)]
      exact h.1

theorem SecondLoaded.below {out : List Byte} {m : DataSeg} (hload : SecondLoaded out m) :
    ∀ {ws : List Half} {d : Nat}, d ≤ 1022 → 510 + 2 * ws.length ≤ d →
      (∀ i < ws.length, halfAt out (d - 2 * i) = ws.getD i 0) →
      Below m (BitVec.ofNat 16 d) ws := by
  intro ws
  induction ws with
  | nil => exact fun _ _ _ => trivial
  | cons w ws ih =>
      intro d hhi hlo h
      simp only [List.length_cons] at hlo
      have hdown : BitVec.ofNat 16 d - 2 = BitVec.ofNat 16 (d - 2) := by bv_omega
      refine ⟨?_, ?_⟩
      · have hw := h 0 (Nat.succ_pos _)
        unfold DataSeg.half
        rw [show BitVec.ofNat 16 d + 1 = BitVec.ofNat 16 (d + 1) by bv_omega,
          hload d (by omega) (by omega), hload (d + 1) (by omega) (by omega)]
        exact hw
      · rw [hdown]
        refine ih (by omega) (by omega) fun i hi => ?_
        have hw := h (i + 1) (Nat.succ_lt_succ hi)
        rw [List.getD_cons_succ] at hw
        rw [← hw]
        congr 1
        omega

/-! ## Reading the table -/

section Loop

variable {readprog : Block → DataSeg → Option DataSeg} {di : Half} {m m' : DataSeg}

theorem nextblock_stop (fuel : Nat) (h : m.half di = 0) :
    nextblock readprog (fuel + 1) di m = some [] := by
  unfold nextblock
  exact if_pos h

theorem nextblock_next {b : Block} (fuel : Nat) (hcount : m.half di = b.count)
    (hsegment : m.half (di - 2) = b.segment) (hoffset : m.half (di - 2 - 2) = b.offset)
    (hne : b.count ≠ 0) (hread : readprog b m = some m') :
    nextblock readprog (fuel + 1) di m
      = (nextblock readprog fuel (di - 2 - 2 - 2) m').map (b :: ·) := by
  rw [nextblock]
  simp only [hcount, hsegment, hoffset, hread, if_neg hne]

theorem nextblock_nil_iff :
    (∃ fuel, nextblock readprog fuel di m = some []) ↔ m.half di = 0 := by
  constructor
  · rintro ⟨fuel, h⟩
    cases fuel with
    | zero => cases h
    | succ fuel =>
        unfold nextblock at h
        simp only at h
        split at h
        · assumption
        · split at h
          · cases h
          · obtain ⟨rest, -, heq⟩ := Option.map_eq_some_iff.mp h
            cases heq
  · intro h
    exact ⟨1, nextblock_stop 0 h⟩

end Loop

/-- The loop gives back the blocks if none of them looks like the end, and
the word below them does. -/
theorem nextblock_iff {readprog : Block → DataSeg → Option DataSeg} {last : Half} :
    ∀ {blocks : List Block} {di : Half} {m : DataSeg}, di.toNat ≤ 1022 →
      512 + 6 * blocks.length ≤ di.toNat →
      Below m di (blocks.flatMap Block.words ++ [last]) → (∀ b ∈ blocks, Spares readprog b) →
      ((∃ fuel, nextblock readprog fuel di m = some blocks)
        ↔ (∀ b ∈ blocks, b.count ≠ 0) ∧ last = 0) := by
  intro blocks
  induction blocks with
  | nil =>
      intro di m _ _ hbelow _
      have hword : m.half di = last := hbelow.1
      rw [nextblock_nil_iff, hword]
      exact (and_iff_right fun b hb => absurd hb List.not_mem_nil).symm
  | cons b blocks ih =>
      intro di m hhi hlo hbelow hread
      simp only [List.length_cons] at hlo
      obtain ⟨hcount, hsegment, hoffset, hrest⟩ := hbelow
      obtain ⟨m', hm', hkeep⟩ := hread b List.mem_cons_self m
      have hdown : (di - 2 - 2 - 2).toNat = di.toNat - 6 := by bv_omega
      have hlen : (blocks.flatMap Block.words ++ [last]).length = 3 * blocks.length + 1 := by
        rw [List.length_append, words_length]
        rfl
      have hnext := ih (by omega) (by omega)
        (Below.congr hkeep (by omega) (by rw [hlen]; omega) hrest)
        fun b' hb' => hread b' (List.mem_cons_of_mem _ hb')
      rw [List.forall_mem_cons, and_assoc, ← hnext]
      constructor
      · rintro ⟨fuel, h⟩
        cases fuel with
        | zero => cases h
        | succ fuel =>
            have hne : b.count ≠ 0 := by
              intro hzero
              rw [nextblock_stop fuel (hcount.trans hzero)] at h
              cases h
            rw [nextblock_next fuel hcount hsegment hoffset hne hm'] at h
            obtain ⟨rest, hfound, heq⟩ := Option.map_eq_some_iff.mp h
            exact ⟨hne, fuel, (List.cons.inj heq).2 ▸ hfound⟩
      · rintro ⟨hne, fuel, h⟩
        refine ⟨fuel + 1, ?_⟩
        rw [nextblock_next fuel hcount hsegment hoffset hne hm', h]
        rfl

/-- `nextblock` decodes what was stored for the programs if no file has a
multiple of 65536 sectors, as an empty one has, and the bootstrap has a zero
word below the table. -/
theorem table_decodes_iff {drive : Half} {bootstrap out : List Byte}
    {args : List (List Byte × List Char)} {readprog : Block → DataSeg → Option DataSeg}
    {m : DataSeg} (hbuild : buildImage drive bootstrap args = some out)
    (hs : sectorsOf bootstrap = 2) (hload : SecondLoaded out m)
    (hread : ∀ b ∈ stored args, Spares readprog b) :
    (∃ fuel, nextblock readprog fuel firstcount m = some (stored args))
      ↔ (∀ arg ∈ args, ¬ 65536 ∣ sectorsOf arg.1)
        ∧ halfAt bootstrap (1022 - 6 * args.length) = 0 := by
  obtain ⟨hsmall, hcounts, htable⟩ := buildImage_table hbuild hs
  have hn := stored_length hcounts
  have hwords : ((stored args).flatMap Block.words
      ++ [halfAt bootstrap (1022 - 6 * args.length)]).length = 3 * args.length + 1 := by
    rw [List.length_append, words_length, hn]
    rfl
  have hbelow := hload.below (d := 1022) le_rfl (by rw [hwords]; omega)
    fun i hi => htable i (by omega)
  rw [nextblock_iff (by decide) (by rw [hn]; show 512 + 6 * _ ≤ 1022; omega) hbelow hread]
  have hzero : ∀ n, BitVec.ofNat 16 n = 0 ↔ 65536 ∣ n := fun n => by
    rw [← BitVec.toNat_inj, BitVec.toNat_ofNat]
    exact (Nat.dvd_iff_mod_eq_zero ..).symm
  have hall : (∀ b ∈ stored args, b.count ≠ 0) ↔ ∀ w ∈ (stored args).map (·.count), w ≠ 0 := by
    simp only [List.forall_mem_map]
  rw [hall, hcounts]
  simp only [List.forall_mem_map, ne_eq, hzero]

/-- A bootstrap with room for a table. -/
def someBootstrap : List Byte := List.replicate 900 0xea ++ List.replicate 124 0

/-- Two programs, at `0x10000` and at `131072`. -/
def twoPrograms : List (List Byte × List Char) :=
  [([1, 2, 3], ['0', 'x', '1', '0', '0', '0', '0']), ([4], ['1', '3', '1', '0', '7', '2'])]

theorem table_decodes_two :
    ∃ fuel, nextblock (fun _ m => some m) fuel firstcount
      (fun a => ((buildImage 0 someBootstrap twoPrograms).getD []).getD a.toNat 0)
        = some (stored twoPrograms) := by
  have hsome : (buildImage 0 someBootstrap twoPrograms).isSome := by decide +kernel
  obtain ⟨out, hout⟩ := Option.isSome_iff_exists.mp hsome
  rw [hout, Option.getD_some]
  refine (table_decodes_iff hout (by decide +kernel) (fun a _ ha => ?_) fun _ _ m =>
    ⟨m, rfl, fun _ _ _ => rfl⟩).mpr (by decide +kernel)
  rw [BitVec.toNat_ofNat, Nat.mod_eq_of_lt (by omega)]

/-- An empty file, and a program. -/
def emptyFirst : List (List Byte × List Char) :=
  [([], ['0', 'x', '8', '0', '0', '0']), ([1, 2, 3], ['0', 'x', '1', '0', '0', '0', '0'])]

/-- With an empty file before a program, the loop ends before the program. -/
theorem table_cut_short :
    (buildImage 0 someBootstrap emptyFirst).isSome
    ∧ ¬ ∃ fuel, nextblock (fun _ m => some m) fuel firstcount
      (fun a => ((buildImage 0 someBootstrap emptyFirst).getD []).getD a.toNat 0)
        = some (stored emptyFirst) := by
  refine ⟨by decide +kernel, fun hdecodes => ?_⟩
  obtain ⟨fuel, h⟩ := hdecodes
  have hzero : DataSeg.half (fun a => ((buildImage 0 someBootstrap emptyFirst).getD []).getD
      a.toNat 0) firstcount = 0 := by decide +kernel
  cases fuel with
  | zero => cases h
  | succ fuel =>
      rw [nextblock_stop fuel hzero] at h
      have hsome : some [] ≠ some (stored emptyFirst) := by decide +kernel
      exact hsome h

end SpKernel
