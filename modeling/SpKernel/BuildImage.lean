import SpKernel.Types

/-!
# Building the disk image (`BuildImage.c`)

The tool that writes the disk image: the bootstrap and the program files,
in sectors that are filled up with zeros, and over the end of the
bootstrap a table that says how long each program is and where it goes.
The table grows down; each program puts in its number of sectors, and
below it the segment and the offset.

A file is the list of its bytes, and a text the list of its characters.
`strtol` is written out, for the bases and prefixes that the tool uses,
since which load addresses are taken depends on where it stops.

The image is described by what is at a place of it. `copyFile_eq` says
that a file is copied with zeros up to the end of its last sector,
`processFile_cases` that a program either is refused or adds its sectors
at the end and three words to the table, and `buildImage_table` that the
words of the table are where they are looked for: the words of the first
program at the top, and those of each further one below.
`halfAt_overwrite` and `halfAt_outside` are the rules for words in a list
of bytes.
-/

namespace SpKernel

abbrev nInfo : Nat := 256

/-- What the table says about a program. -/
structure Block where
  count : Half
  segment : Half
  offset : Half
deriving DecidableEq

/-! ## Addresses -/

def isSpace (c : Char) : Bool := c = ' ' || (9 ≤ c.toNat && c.toNat ≤ 13)

/-- The value of a digit in the base. -/
def digitOf (base : Nat) (c : Char) : Option Nat :=
  (if '0' ≤ c ∧ c ≤ '9' then some (c.toNat - '0'.toNat)
    else if 'a' ≤ c ∧ c ≤ 'z' then some (c.toNat - 'a'.toNat + 10)
    else if 'A' ≤ c ∧ c ≤ 'Z' then some (c.toNat - 'A'.toNat + 10)
    else none).filter (· < base)

/-- The digits at the start of a text: the number, and the text behind. -/
def digits (base : Nat) : Nat → List Char → Nat × List Char
  | acc, [] => (acc, [])
  | acc, c :: cs =>
      match digitOf base c with
      | some d => digits base (acc * base + d) cs
      | none => (acc, c :: cs)

/-- The sign of a number: whether it is a minus, and the text behind. -/
def signOf : List Char → Bool × List Char
  | '-' :: cs => (true, cs)
  | '+' :: cs => (false, cs)
  | cs => (false, cs)

/-- The base of a number and the text behind its prefix; a `0x` without a
digit behind it is a zero before an `x`. -/
def prefixOf (base : Nat) : List Char → Nat × List Char
  | '0' :: x :: d :: cs =>
      if (base = 0 ∨ base = 16) ∧ (x = 'x' ∨ x = 'X') ∧ (digitOf 16 d).isSome then (16, d :: cs)
      else (if base = 0 then 8 else base, '0' :: x :: d :: cs)
  | '0' :: cs => (if base = 0 then 8 else base, '0' :: cs)
  | cs => (if base = 0 then 10 else base, cs)

/-- `strtol`: the number, kept in the range of a `long`, and the text behind
it; the whole text if there is no number. -/
def strtol (text : List Char) (base : Nat) : Int × List Char :=
  let (minus, cs) := signOf (text.dropWhile isSpace)
  let (base, cs) := prefixOf base cs
  match cs with
  | [] => (0, text)
  | c :: cs =>
      match digitOf base c with
      | none => (0, text)
      | some d =>
          let (n, rest) := digits base d cs
          (if minus then max (-2 ^ 63) (-(n : Int)) else min (2 ^ 63 - 1) (n : Int), rest)

/-- What `process_file` makes of an address: the number, the segment and the
offset. -/
def decodeAddress (addr : List Char) : Option (Int × Half × Half) :=
  if addr.contains ':' then
    if addr.length = 9 ∧ addr.idxOf ':' = 4 then
      let (a1, u1) := strtol addr 16
      let (a2, u2) := strtol (addr.drop 5) 16
      let segment := BitVec.ofInt 16 a1
      let offset := BitVec.ofInt 16 a2
      if u1 = [] ∧ u2 = [] then some (segment.toInt * 16 + offset.toInt, segment, offset)
      else none
    else none
  else
    let (address, unused) := strtol addr 0
    if unused = [] ∧ address ≤ 0x9ffff then
      some (address, BitVec.ofInt 16 (address >>> (4 : Nat)), BitVec.ofInt 16 (address % 16))
    else none

/-! ## The image -/

/-- The loop of `copy_file`, for as many iterations as there are bytes at
most: the sectors written, and their number. -/
def copyLoop : Nat → List Byte → List Byte × Nat
  | 0, _ => ([], 0)
  | fuel + 1, bytes =>
      if bytes = [] then ([], 0)
      else
        let buf := bytes.take 512
        let (rest, nSectors) := copyLoop fuel (bytes.drop 512)
        (buf ++ List.replicate (512 - buf.length) 0 ++ rest, nSectors + 1)

def copyFile (bytes : List Byte) : List Byte × Nat := copyLoop bytes.length bytes

/-- `out` and the used part of `info`. -/
structure Build where
  out : List Byte
  info : List Half

/-- The address of a program that fits, and what is stored for it. The size
in bytes is an `int`; past its range the sum is undefined, and such a file is
not accepted here. -/
def programInfo (nSectors : Nat) (addr : List Char) : Option (Int × Block) :=
  match decodeAddress addr with
  | none => none
  | some (address, segment, offset) =>
      if nSectors * 512 < 2 ^ 31 ∧ address + nSectors * 512 ≤ 0x9ffff then
        some (address, ⟨BitVec.ofNat 16 nSectors, segment, offset⟩)
      else none

def processFile (b : Build) (contents : List Byte) (addr : List Char) : Option Build :=
  let (bytes, nSectors) := copyFile contents
  match programInfo nSectors addr with
  | none => none
  | some (_, block) =>
      if nInfo - b.info.length < 3 then none
      else some
        { out := b.out ++ bytes
          info := block.offset :: block.segment :: block.count :: b.info }

/-- The loop of `main` over the programs. -/
def processFiles : Build → List (List Byte × List Char) → Option Build
  | b, [] => some b
  | b, (contents, addr) :: args =>
      match processFile b contents addr with
      | none => none
      | some b => processFiles b args

/-- A `short` as it is written. -/
def halfBytes (w : Half) : List Byte := [w.setWidth 8, (w >>> 8).setWidth 8]

/-- `fseek` and `fwrite` -/
def overwrite (out : List Byte) (pos : Nat) (bytes : List Byte) : List Byte :=
  out.take pos ++ bytes ++ out.drop (pos + bytes.length)

/-- `main`, from the files it is given to the image; `process_args` asks for
a program. -/
def buildImage (drive : Half) (bootstrap : List Byte) (args : List (List Byte × List Char)) :
    Option (List Byte) :=
  if args = [] then none
  else
    let (image, sectors) := copyFile bootstrap
    match processFiles ⟨image, []⟩ args with
    | none => none
    | some b =>
        let size := sectors * 512
        let nBytes := b.info.length * 2
        -- with a table longer than the image the seek fails, and nothing is read
        if size < nBytes then none
        else if ((b.out.drop (size - nBytes)).take nBytes).all (· = 0) then
          let out := overwrite b.out (size - nBytes) (b.info.flatMap halfBytes)
          some (overwrite out 508 (halfBytes drive))
        else none

/-! ## Which addresses are taken -/

theorem digitOf_colon (base : Nat) : digitOf base ':' = none := rfl

theorem mem_digits {base : Nat} : ∀ {cs : List Char} {acc : Nat}, ':' ∈ cs →
    ':' ∈ (digits base acc cs).2 := by
  intro cs
  induction cs with
  | nil =>
      intro acc h
      exact absurd h List.not_mem_nil
  | cons c cs ih =>
      intro acc h
      unfold digits
      split
      · next d hd =>
          rcases List.mem_cons.mp h with rfl | h
          · rw [digitOf_colon] at hd
            cases hd
          · exact ih h
      · exact h

theorem mem_signOf {cs : List Char} (h : ':' ∈ cs) : ':' ∈ (signOf cs).2 := by
  unfold signOf
  split
  · exact (List.mem_cons.mp h).resolve_left (by decide)
  · exact (List.mem_cons.mp h).resolve_left (by decide)
  · exact h

theorem mem_prefixOf {base : Nat} {cs : List Char} (h : ':' ∈ cs) : ':' ∈ (prefixOf base cs).2 := by
  unfold prefixOf
  split
  · next x d rest =>
      split
      · next hx =>
          obtain ⟨-, hx, -⟩ := hx
          have htail : ':' ∈ x :: d :: rest := (List.mem_cons.mp h).resolve_left (by decide)
          refine (List.mem_cons.mp htail).resolve_left ?_
          rcases hx with rfl | rfl <;> decide
      · exact h
  · exact h
  · exact h

theorem mem_strtol {base : Nat} {text : List Char} (h : ':' ∈ text) :
    ':' ∈ (strtol text base).2 := by
  have hblank : ':' ∈ text.dropWhile isSpace := by
    rw [← List.takeWhile_append_dropWhile (p := isSpace) (l := text)] at h
    refine (List.mem_append.mp h).resolve_left fun hspace => ?_
    have := List.mem_takeWhile_imp hspace
    revert this
    decide
  unfold strtol
  simp only
  have hcs : ':' ∈ (prefixOf base (signOf (text.dropWhile isSpace)).2).2 :=
    mem_prefixOf (mem_signOf hblank)
  split
  · exact h
  · next c cs heq =>
      split
      · exact h
      · next d hd =>
          rw [heq] at hcs
          refine mem_digits ((List.mem_cons.mp hcs).resolve_left fun hc => ?_)
          rw [← hc, digitOf_colon] at hd
          cases hd

/-- Only a number is an address: with a colon in it the first half, which
`strtol` leaves at the colon, is not read to its end. -/
theorem decodeAddress_number {addr : List Char} {address : Int} {segment offset : Half}
    (h : decodeAddress addr = some (address, segment, offset)) :
    strtol addr 0 = (address, []) ∧ address ≤ 0x9ffff
    ∧ segment = BitVec.ofInt 16 (address >>> (4 : Nat))
    ∧ offset = BitVec.ofInt 16 (address % 16) := by
  unfold decodeAddress at h
  split at h
  · next hcolon =>
      have hmem : ':' ∈ (strtol addr 16).2 := mem_strtol (List.contains_iff_mem.mp hcolon)
      split at h
      · simp only at h
        split at h
        · next hu =>
            rw [hu.1] at hmem
            exact absurd hmem List.not_mem_nil
        · cases h
      · cases h
  · simp only at h
    split at h
    · next hok =>
        obtain ⟨hrest, hle⟩ := hok
        simp only [Option.some.injEq, Prod.mk.injEq] at h
        obtain ⟨rfl, rfl, rfl⟩ := h
        exact ⟨Prod.ext rfl hrest, hle, rfl, rfl⟩
    · cases h

/-! ## What is copied -/

/-- The number of sectors a file fills. -/
def sectorsOf (bytes : List Byte) : Nat := (bytes.length + 511) / 512

theorem copyLoop_eq : ∀ {fuel : Nat} {bytes : List Byte}, bytes.length ≤ fuel →
    copyLoop fuel bytes =
      (bytes ++ List.replicate (512 * sectorsOf bytes - bytes.length) 0, sectorsOf bytes) := by
  intro fuel
  induction fuel with
  | zero =>
      intro bytes h
      obtain rfl := List.length_eq_zero_iff.mp (Nat.le_zero.mp h)
      rfl
  | succ fuel ih =>
      intro bytes h
      by_cases hnil : bytes = []
      · subst hnil
        rfl
      · have hpos : 0 < bytes.length := List.length_pos_iff.mpr hnil
        have hless : (bytes.drop 512).length ≤ fuel := by
          rw [List.length_drop]
          omega
        have hrest := ih hless
        have hsec : sectorsOf bytes = sectorsOf (bytes.drop 512) + 1 := by
          unfold sectorsOf
          rw [List.length_drop]
          omega
        unfold copyLoop
        rw [if_neg hnil, hrest, hsec]
        simp only [Prod.mk.injEq, and_true]
        rcases Nat.le_total bytes.length 512 with hle | hle
        · rw [List.take_of_length_le hle, List.drop_of_length_le hle]
          simp [sectorsOf]
        · have hfull : (bytes.take 512).length = 512 := by
            rw [List.length_take]
            omega
          have hpad : 512 * sectorsOf (bytes.drop 512) - (bytes.drop 512).length
              = 512 * (sectorsOf (bytes.drop 512) + 1) - bytes.length := by
            rw [List.length_drop]
            omega
          rw [hfull, Nat.sub_self, List.replicate_zero, List.append_nil, ← List.append_assoc,
            List.take_append_drop, hpad]

theorem copyFile_eq (bytes : List Byte) : copyFile bytes =
    (bytes ++ List.replicate (512 * sectorsOf bytes - bytes.length) 0, sectorsOf bytes) :=
  copyLoop_eq le_rfl

theorem copyFile_length (bytes : List Byte) :
    (copyFile bytes).1.length = 512 * sectorsOf bytes := by
  rw [copyFile_eq]
  simp only [List.length_append, List.length_replicate, sectorsOf]
  omega

/-- The zeros behind a file do not tell in what is read of it. -/
theorem copyFile_getD (bytes : List Byte) (a : Nat) :
    (copyFile bytes).1.getD a 0 = bytes.getD a 0 := by
  rw [copyFile_eq, List.getD_eq_getElem?_getD, List.getD_eq_getElem?_getD]
  rcases Nat.lt_or_ge a bytes.length with h | h
  · rw [List.getElem?_append_left h]
  · rw [List.getElem?_append_right h, List.getElem?_eq_none h, List.getElem?_replicate]
    split <;> rfl

/-! ## The table -/

/-- The words of a program, from the top down. -/
def Block.words (b : Block) : List Half := [b.count, b.segment, b.offset]

/-- What is stored for the programs, in the order of the arguments. -/
def stored (args : List (List Byte × List Char)) : List Block :=
  args.filterMap fun arg => (programInfo (copyFile arg.1).2 arg.2).map (·.2)

theorem words_length (blocks : List Block) :
    (blocks.flatMap Block.words).length = 3 * blocks.length := by
  rw [List.length_flatMap]
  simp [Block.words, Nat.mul_comm]

/-- One program puts its three words below those that are there. -/
theorem processFile_cases {b b' : Build} {contents : List Byte} {addr : List Char}
    (h : processFile b contents addr = some b') :
    ∃ address block, programInfo (sectorsOf contents) addr = some (address, block)
    ∧ b'.out = b.out ++ (copyFile contents).1
    ∧ b'.info = block.words.reverse ++ b.info ∧ b'.info.length ≤ nInfo := by
  unfold processFile at h
  have hsec : (copyFile contents).2 = sectorsOf contents := by rw [copyFile_eq]
  simp only [hsec] at h
  split at h
  · cases h
  · next address block hinfo =>
      split at h
      · cases h
      · next hroom =>
          obtain rfl := Option.some.inj h
          refine ⟨address, block, hinfo, rfl, rfl, ?_⟩
          simp only [List.length_cons]
          omega

theorem programInfo_count {nSectors : Nat} {addr : List Char} {address : Int} {block : Block}
    (h : programInfo nSectors addr = some (address, block)) :
    block.count = BitVec.ofNat 16 nSectors := by
  unfold programInfo at h
  split at h
  · cases h
  · split at h
    · simp only [Option.some.injEq, Prod.mk.injEq] at h
      rw [← h.2]
    · cases h

theorem processFiles_cases : ∀ {args : List (List Byte × List Char)} {b b' : Build},
    b.info.length ≤ nInfo → processFiles b args = some b' →
    b'.out = b.out ++ args.flatMap (fun arg => (copyFile arg.1).1)
    ∧ b'.info = ((stored args).flatMap Block.words).reverse ++ b.info
    ∧ b'.info.length ≤ nInfo
    ∧ (stored args).map (·.count) = args.map fun arg => BitVec.ofNat 16 (sectorsOf arg.1) := by
  intro args
  induction args with
  | nil =>
      intro b b' hlen h
      obtain rfl := Option.some.inj h
      exact ⟨(List.append_nil _).symm, rfl, hlen, rfl⟩
  | cons arg args ih =>
      intro b b' _ h
      obtain ⟨contents, addr⟩ := arg
      unfold processFiles at h
      split at h
      · cases h
      · next b1 hone =>
          obtain ⟨address, block, hinfo, hout, hwords, hroom⟩ := processFile_cases hone
          obtain ⟨hout', hwords', hroom', hcounts⟩ := ih hroom h
          have hstored : stored ((contents, addr) :: args) = block :: stored args := by
            unfold stored
            rw [List.filterMap_cons]
            simp only [copyFile_eq, hinfo, Option.map_some]
          refine ⟨?_, ?_, hroom', ?_⟩
          · rw [hout', hout, List.flatMap_cons, List.append_assoc]
          · rw [hwords', hwords, hstored, List.flatMap_cons, List.reverse_append,
              List.append_assoc]
          · rw [hstored, List.map_cons, List.map_cons, hcounts, programInfo_count hinfo]

theorem stored_length {args : List (List Byte × List Char)}
    (h : (stored args).map (·.count) = args.map fun arg => BitVec.ofNat 16 (sectorsOf arg.1)) :
    (stored args).length = args.length := by
  have hlen := congrArg List.length h
  simpa only [List.length_map] using hlen

/-- The word at an offset of a file. -/
def halfAt (bytes : List Byte) (a : Nat) : Half := bytes.getD (a + 1) 0 ++ bytes.getD a 0

theorem halfAt_congr {l l' : List Byte} {a a' : Nat}
    (h : ∀ c < 2, l.getD (a + c) 0 = l'.getD (a' + c) 0) : halfAt l a = halfAt l' a' := by
  unfold halfAt
  rw [h 1 Nat.one_lt_two]
  exact congrArg _ (h 0 Nat.two_pos)

theorem halfAt_copyFile (bytes : List Byte) (a : Nat) :
    halfAt (copyFile bytes).1 a = halfAt bytes a :=
  halfAt_congr fun _ _ => copyFile_getD bytes _

theorem halfAt_append {l l' : List Byte} {a : Nat} (h : a + 1 < l.length) :
    halfAt (l ++ l') a = halfAt l a := by
  refine halfAt_congr fun c hc => ?_
  rw [List.getD_eq_getElem?_getD, List.getElem?_append_left (by omega),
    ← List.getD_eq_getElem?_getD]

theorem halfBytes_length (ws : List Half) : (ws.flatMap halfBytes).length = 2 * ws.length := by
  rw [List.length_flatMap]
  simp [halfBytes, Nat.mul_comm]

theorem halfAt_halfBytes : ∀ {ws : List Half} {j : Nat}, j < ws.length →
    halfAt (ws.flatMap halfBytes) (2 * j) = ws.getD j 0 := by
  intro ws
  induction ws with
  | nil =>
      intro j h
      exact absurd h (Nat.not_lt_zero j)
  | cons w ws ih =>
      intro j h
      cases j with
      | zero =>
          show (w >>> 8).setWidth 8 ++ w.setWidth 8 = w
          apply BitVec.eq_of_getLsbD_eq
          intro i hi
          rw [BitVec.getLsbD_append]
          by_cases h8 : i < 8
          · simp [h8]
          · rw [if_neg h8, BitVec.getLsbD_setWidth, BitVec.getLsbD_ushiftRight,
              decide_eq_true (by omega : i - 8 < 8), Bool.true_and,
              Nat.add_sub_cancel' (Nat.le_of_not_lt h8)]
      | succ j => exact ih (Nat.lt_of_succ_lt_succ h)

theorem overwrite_length {out bytes : List Byte} {pos : Nat}
    (h : pos + bytes.length ≤ out.length) : (overwrite out pos bytes).length = out.length := by
  unfold overwrite
  simp only [List.length_append, List.length_take, List.length_drop]
  omega

theorem overwrite_outside {out bytes : List Byte} {pos a : Nat}
    (h : pos + bytes.length ≤ out.length) (ha : a < pos ∨ pos + bytes.length ≤ a) :
    (overwrite out pos bytes).getD a 0 = out.getD a 0 := by
  have hlen : (out.take pos).length = pos := by
    rw [List.length_take]
    omega
  unfold overwrite
  rw [List.getD_eq_getElem?_getD, List.getD_eq_getElem?_getD, List.append_assoc]
  rcases ha with hlow | hhigh
  · rw [List.getElem?_append_left (by omega), List.getElem?_take_of_lt hlow]
  · rw [List.getElem?_append_right (by omega), List.getElem?_append_right (by omega),
      List.getElem?_drop, hlen, show pos + bytes.length + (a - pos - bytes.length) = a by omega]

theorem overwrite_inside {out bytes : List Byte} {pos a : Nat}
    (h : pos + bytes.length ≤ out.length) (ha : a < bytes.length) :
    (overwrite out pos bytes).getD (pos + a) 0 = bytes.getD a 0 := by
  have hlen : (out.take pos).length = pos := by
    rw [List.length_take]
    omega
  unfold overwrite
  rw [List.getD_eq_getElem?_getD, List.getD_eq_getElem?_getD, List.append_assoc,
    List.getElem?_append_right (by omega), hlen, Nat.add_sub_cancel_left,
    List.getElem?_append_left ha]

theorem halfAt_overwrite {out : List Byte} {ws : List Half} {pos j : Nat}
    (h : pos + (ws.flatMap halfBytes).length ≤ out.length) (hj : j < ws.length) :
    halfAt (overwrite out pos (ws.flatMap halfBytes)) (pos + 2 * j) = ws.getD j 0 := by
  rw [← halfAt_halfBytes hj]
  refine halfAt_congr fun c hc => ?_
  rw [Nat.add_assoc, overwrite_inside h (by rw [halfBytes_length]; omega)]

theorem halfAt_outside {out bytes : List Byte} {pos a : Nat}
    (h : pos + bytes.length ≤ out.length) (ha : a + 1 < pos ∨ pos + bytes.length ≤ a) :
    halfAt (overwrite out pos bytes) a = halfAt out a :=
  halfAt_congr fun _ _ => overwrite_outside h (by omega)

theorem buildImage_cases {drive : Half} {bootstrap out : List Byte}
    {args : List (List Byte × List Char)} (h : buildImage drive bootstrap args = some out) :
    ∃ b, processFiles ⟨(copyFile bootstrap).1, []⟩ args = some b
    ∧ b.info.length * 2 ≤ sectorsOf bootstrap * 512
    ∧ out = overwrite (overwrite b.out (sectorsOf bootstrap * 512 - b.info.length * 2)
        (b.info.flatMap halfBytes)) 508 (halfBytes drive) := by
  have hpair : copyFile bootstrap = ((copyFile bootstrap).1, sectorsOf bootstrap) :=
    Prod.ext rfl (by rw [copyFile_eq])
  unfold buildImage at h
  split at h
  · cases h
  · rw [hpair] at h
    simp only at h
    split at h
    · cases h
    · next b hfiles =>
        split at h
        · cases h
        · next hsize =>
            split at h
            · obtain rfl := Option.some.inj h
              exact ⟨b, hfiles, Nat.le_of_not_lt hsize, rfl⟩
            · cases h

/-- In an image for a bootstrap of two sectors, the words from the top of the
second sector down are what is stored for the programs, and behind these what
the bootstrap has there. -/
theorem buildImage_table {drive : Half} {bootstrap out : List Byte}
    {args : List (List Byte × List Char)} (h : buildImage drive bootstrap args = some out)
    (hs : sectorsOf bootstrap = 2) :
    args.length ≤ 85
    ∧ (stored args).map (·.count) = args.map (fun arg => BitVec.ofNat 16 (sectorsOf arg.1))
    ∧ ∀ i ≤ 3 * args.length, halfAt out (1022 - 2 * i) =
        ((stored args).flatMap Block.words
          ++ [halfAt bootstrap (1022 - 6 * args.length)]).getD i 0 := by
  obtain ⟨b, hfiles, -, rfl⟩ := buildImage_cases h
  obtain ⟨hout, hinfo, hroom, hcounts⟩ := processFiles_cases (Nat.zero_le _) hfiles
  rw [List.append_nil] at hinfo
  have hwords : ((stored args).flatMap Block.words).length = 3 * args.length := by
    rw [words_length, stored_length hcounts]
  have hlen : b.info.length = 3 * args.length := by rw [hinfo, List.length_reverse, hwords]
  have hsmall : args.length ≤ 85 := by
    have : 3 * args.length ≤ 256 := hlen ▸ hroom
    omega
  have himage : (copyFile bootstrap).1.length = 1024 := by rw [copyFile_length, hs]
  have hbytes := halfBytes_length b.info
  have hput : sectorsOf bootstrap * 512 - b.info.length * 2
      + (b.info.flatMap halfBytes).length ≤ b.out.length := by
    rw [hs, hout, List.length_append, himage]
    omega
  have hdrive : 508 + (halfBytes drive).length ≤ (overwrite b.out
      (sectorsOf bootstrap * 512 - b.info.length * 2) (b.info.flatMap halfBytes)).length := by
    rw [overwrite_length hput, hout, List.length_append, himage]
    show 508 + 2 ≤ _
    omega
  refine ⟨hsmall, hcounts, fun i hi => ?_⟩
  -- the drive number is in the first sector
  rw [halfAt_outside hdrive (Or.inr (by show 508 + 2 ≤ _; omega))]
  rcases Nat.lt_or_ge i (3 * args.length) with hlt | hge
  · -- a word of the table
    have hpos : 1022 - 2 * i = sectorsOf bootstrap * 512 - b.info.length * 2
        + 2 * (b.info.length - 1 - i) := by omega
    rw [hpos, halfAt_overwrite hput (by omega), hinfo, List.getD_eq_getElem?_getD,
      List.getD_eq_getElem?_getD, List.getElem?_append_left (by omega),
      List.getElem?_reverse (by rw [List.length_reverse]; omega)]
    congr 2
    rw [List.length_reverse]
    omega
  · -- the word below the table
    have hend : i = 3 * args.length := by omega
    subst hend
    rw [halfAt_outside hput (Or.inl (by omega)), hout,
      halfAt_append (show _ < (copyFile bootstrap).1.length by omega), halfAt_copyFile,
      List.getD_eq_getElem?_getD, List.getElem?_append_right (by omega), hwords, Nat.sub_self,
      show 1022 - 2 * (3 * args.length) = 1022 - 6 * args.length by omega]
    rfl

end SpKernel
