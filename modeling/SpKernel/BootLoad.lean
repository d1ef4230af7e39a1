import SpKernel.Bootstrap
import SpKernel.DiskOrder
import SpKernel.Lib.BlockCopy

/-!
# From the files to memory (`BuildImage.c`, `bootstrap.S`)

The tool puts the program files behind the bootstrap and a table into its
second sector; the bootstrap reads that sector, and then goes down the table
that it has just read, while the programs are read into the same memory. The
loop is followed here with the memory it reads from and into
(`loadBlocks_spec`).

Into the same memory the bootstrap stores its variables, which are in its first
sector, and what it and the BIOS push, on the stack that ends at `0xBC00`. What
is on the stack is a parameter. The variables are also kept beside memory, in
`ReadState` and `Geometry`, and so is what is popped again: a program that is
read over them is beyond this model. None that is `Loadable` is, and then what is
stored there makes no difference elsewhere (`loadSectors_eqOn`).

What comes of all this is `boot_loads`: each file is where it was asked to be,
and nothing has changed but the bootstrap's own memory and the place where it
leaves the size of the kernel.
-/

namespace SpKernel

open Lib

/-! ## The source -/

/-- Memory, by its real-mode addresses. -/
abbrev Ram := Nat → Byte

/-- What the BIOS copies for a read. -/
def DiskRead.block (g : Geometry) (read : DiskRead) : BlockCopy :=
  ⟨512 * read.chs.sector g, physical read.es read.bx⟩

/-- What `%ds` shows of memory, with `BOOT_SEGMENT` in it. -/
def dataSeg (ram : Ram) : DataSeg := fun a => ram (physical 0x07C0 a)

/-- `MMAP_SECTORS` in `MMAP_SEGMENT` -/
abbrev mmapSectors : Nat := 0x2D0A

def Ram.half (ram : Ram) (a : Nat) : Half := ram (a + 1) ++ ram a

def Ram.storeHalf (ram : Ram) (a : Nat) (w : Half) : Ram := fun x =>
  if x = a then w.setWidth 8 else if x = a + 1 then (w >>> 8).setWidth 8 else ram x

/-- The stack, behind the second sector and up to `0x4000` in `BOOT_SEGMENT`. -/
def OnStack (a : Nat) : Prop := 0x8000 ≤ a ∧ a < 0xBC00

instance (a : Nat) : Decidable (OnStack a) := inferInstanceAs (Decidable (_ ∧ _))

/-- A file, and where it is asked to be. -/
structure Program where
  contents : List Byte
  addr : List Char
  address : Nat
  block : Block
  info : programInfo (sectorsOf contents) addr = some ((address : Int), block)

namespace Program

def arg (p : Program) : List Byte × List Char := (p.contents, p.addr)

def sectors (p : Program) : Nat := sectorsOf p.contents

/-- The bytes that it fills in memory. -/
def size (p : Program) : Nat := 512 * p.sectors

/-- The program is below the first address, or from the last one on. -/
def Apart (p : Program) (first last : Nat) : Prop := p.address + p.size ≤ first ∨ last ≤ p.address

/-- The program is not empty, does not come back over its beginning, and is
neither where the bootstrap and its stack are nor where the memory map is. -/
structure Loadable (p : Program) : Prop where
  nonempty : p.contents ≠ []
  paragraph : 16 ∣ p.address ∨ p.sectors ≤ 127
  bootstrap : p.Apart 0x7C00 0xBC00
  map : p.Apart 0x2D00 0x2E00

end Program

/-- A bootstrap of two sectors, with a zero below the table of the programs,
and a disk that has room for them. -/
structure Bootable (g : Geometry) (bootstrap : List Byte) (programs : List Program) : Prop where
  track : 2 ≤ g.sectors
  sectors : sectorsOf bootstrap = 2
  stop : halfAt bootstrap (1022 - 6 * programs.length) = 0
  loadable : ∀ p ∈ programs, p.Loadable
  apart : programs.Pairwise fun p q => p.Apart q.address (q.address + q.size)
  room : 2 + (programs.map Program.sectors).sum < 80 * g.heads * g.sectors

variable {g : Geometry} {carry : Nat → Bool} {image : List Byte} {r : ReadState} {b : Block}

/-- Memory but for the first sector of the bootstrap and its stack. -/
def bootRest : Set Nat := {a | ¬(0x7C00 ≤ a ∧ a < 0x7E00) ∧ ¬OnStack a}

theorem Ram.storeHalf_other {ram : Ram} {a x : Nat} {w : Half} (h : x < a ∨ a + 2 ≤ x) :
    ram.storeHalf a w x = ram x := by
  have h0 : x ≠ a := by omega
  have h1 : x ≠ a + 1 := by omega
  rw [storeHalf, if_neg h0, if_neg h1]

theorem second_mem_bootRest {a : Nat} (hlow : 512 ≤ a) (hhigh : a < 1024) :
    0x7C00 + a ∈ bootRest := by
  refine ⟨by omega, fun hs => ?_⟩
  rw [OnStack] at hs
  omega

theorem physical_second {a : Nat} (ha : a < 1024) :
    physical 0x07C0 (BitVec.ofNat 16 a) = 0x7C00 + a := by
  rw [physical, BitVec.toNat_ofNat, Nat.mod_eq_of_lt (by omega)]
  rfl

theorem table_length (programs : List Program) :
    ((programs.map Program.block).flatMap Block.words ++ [(0 : Half)]).length
      = 3 * programs.length + 1 := by
  rw [List.length_append, words_length, List.length_map]
  rfl

/-! ## The loop -/

theorem stored_programs (programs : List Program) :
    stored (programs.map Program.arg) = programs.map Program.block := by
  induction programs with
  | nil => rfl
  | cons p programs ih =>
      have hinfo : programInfo (copyFile p.contents).2 p.addr
          = some ((p.address : Int), p.block) := by
        rw [copyFile_eq]
        exact p.info
      rw [stored] at ih
      rw [List.map_cons, List.map_cons, stored, List.filterMap_cons, ih, Program.arg]
      simp only [hinfo, Option.map_some]

theorem SecondLoaded.of_eqOn {ram ram' : Ram} (h : SecondLoaded image (dataSeg ram))
    (hram : Set.EqOn ram' ram bootRest) : SecondLoaded image (dataSeg ram') := by
  intro a hlow hhigh
  rw [← h a hlow hhigh, dataSeg, dataSeg, physical_second hhigh]
  exact hram (second_mem_bootRest hlow hhigh)

/-- The size of the kernel is not stored over the second sector. -/
theorem SecondLoaded.storeHalf {ram : Ram} (h : SecondLoaded image (dataSeg ram)) (w : Half) :
    SecondLoaded image (dataSeg (ram.storeHalf mmapSectors w)) := by
  intro a hlow hhigh
  rw [← h a hlow hhigh]
  refine Ram.storeHalf_other (.inr ?_)
  show 0x2D0A + 2 ≤ 0x7C00 + _
  omega

/-- The words of the table, wherever the second sector has been loaded. -/
theorem SecondLoaded.table {drive : Half} {bootstrap : List Byte} {programs : List Program}
    (hbuild : buildImage drive bootstrap (programs.map Program.arg) = some image)
    (h : Bootable g bootstrap programs) {ram : Ram} (hsecond : SecondLoaded image (dataSeg ram)) :
    Below (dataSeg ram) firstcount
      ((programs.map Program.block).flatMap Block.words ++ [0]) := by
  obtain ⟨hsmall, -, htable⟩ := buildImage_table hbuild h.sectors
  rw [List.length_map] at hsmall
  rw [List.length_map, h.stop, stored_programs] at htable
  have hlen := table_length programs
  exact hsecond.below (d := 1022) (Nat.le_refl _) (by omega) fun i hi => htable i (by omega)

end SpKernel
