import SpKernel.NumberFormats
import SpKernel.PathNodes
import SpKernel.VConsole

/-!
# Formatted output (`__c_do_printf`)

The format is only read through `*fmt++`. A conversion reads on until a
character is neither a sign, a fill nor a digit of the width, and takes
that character for the kind of data: also if it is the NUL of the format,
which is then behind `fmt`, and the loop goes on with what follows in
memory. So the format is left exactly if it ends inside a conversion
(`printf_inside_iff`). The buffer of 12 bytes is always large enough.

`Complete` is a property of the format alone: a small automaton that
follows the characters (`Place.next`) is in the text at the end.
`FormatAt` connects the index in the memory with the rest of the string.
A round of the loop is a character or a conversion, and `step_spec` says
of both how far it reads and that memory changes in the buffer alone
(`KeepsOutside`), so that the format stays what it was. `printf_complete`
is the induction for complete formats, and `printf_overrun` the one that
finds the read behind the NUL in the others.

What the conversions store comes from `NumberFormats`, and so does the
bound of 12 bytes. What reaches the console is the subject of
`PrintfText`; here only the calls are recorded (`emit`).
-/

namespace SpKernel

open Lib

/-! ## Padding -/

/-- `x != -1 || y != -1` -/
def HasPlace (x y : Word) : Prop := x ≠ 0xFFFFFFFF ∨ y ≠ 0xFFFFFFFF

instance (x y : Word) : Decidable (HasPlace x y) := inferInstanceAs (Decidable (_ ∨ _))

/-- `c_putchar_at` if there is a place, `c_putchar` if there is none. -/
def putAt (x y : Word) (c : Byte) : ConCall :=
  if HasPlace x y then .putcharAt c (x.setWidth 16) (y.setWidth 16) else .putchar c

/-- The loop of `pad`, by the rounds left. -/
def padLoopAt (y : Word) (padchar : Byte) : Nat → Word → Word × List ConCall
  | 0, x => (x, [])
  | extra + 1, x =>
      let (x', out) := padLoopAt y padchar extra (if HasPlace x y then x + 1 else x)
      (x', putAt x y padchar :: out)

namespace Printf

def pad (x y extra : Word) (padchar : Byte) : Word × List ConCall :=
  padLoopAt y padchar extra.toInt.toNat x

/-- `padstr`. The console stops at a null pointer, `__c_strlen` does not. -/
def padstr (m : Mem) (x y str len width : Word) (leftadjust : Bool) (padchar : Byte) :
    Except Fault (Word × List ConCall) := do
  let count ← strlen m str
  let chars := bytes m str count
  let len := if len.slt 0 then BitVec.ofNat 32 count else len
  let extra := width - len
  let (x, left) := if (0 : Word).slt extra ∧ ¬leftadjust then pad x y extra padchar else (x, [])
  let (x, put) :=
    if HasPlace x y then (x + len, [.putsAt chars (x.setWidth 16) (y.setWidth 16)])
    else (x, if str = 0 then [] else [.puts chars])
  let (x, right) := if (0 : Word).slt extra ∧ leftadjust then pad x y extra padchar else (x, [])
  .ok (x, left ++ put ++ right)

end Printf

/-! ## Conversions -/

/-- What a conversion asks for, and where `fmt` is behind it. -/
structure Conversion where
  leftadjust : Bool
  padchar : Byte
  width : Word
  ch : Byte
  index : Nat

/-- `ch >= '0' && ch <= '9'` -/
def IsWidth (ch : Byte) : Prop := 0x30 ≤ ch ∧ ch ≤ 0x39

instance (ch : Byte) : Decidable (IsWidth ch) := inferInstanceAs (Decidable (_ ∧ _))

/-- The loop that reads the width. -/
def widthLoop (m : Mem) (fmt : Word) : Nat → Word → Byte → Nat → Except Fault (Word × Byte × Nat)
  | 0, _, _, _ => .error .diverge
  | fuel + 1, width, ch, index =>
      if IsWidth ch then
        widthLoop m fmt fuel (width * 10 + (ch.setWidth 32 - 0x30)) (charAt m fmt index) (index + 1)
      else .ok (width, ch, index)

/-- What is read behind a `%`. -/
def readConversion (m : Mem) (fmt : Word) (index : Nat) : Except Fault Conversion := do
  let ch := charAt m fmt index
  let index := index + 1
  let (leftadjust, ch, index) :=
    if ch = 0x2D then (true, charAt m fmt index, index + 1) else (false, ch, index)
  let (padchar, ch, index) : Byte × Byte × Nat :=
    if ch = 0x30 then (0x30, charAt m fmt index, index + 1) else (0x20, ch, index)
  let (width, ch, index) ← widthLoop m fmt (2 ^ 32) 0 ch index
  .ok ⟨leftadjust, padchar, width, ch, index⟩

/-- The variables of `__c_do_printf`, with `fmt` as an index into the format,
and the calls of the console. -/
structure Printf where
  mem : Mem
  index : Nat
  ap : Word
  x : Word
  y : Word
  out : List ConCall

namespace Printf

/-- The text of a conversion goes to the console. -/
def emit (s : Printf) (c : Conversion) (m : Mem) (str len : Word) : Except Fault Printf := do
  let (x, out) ← padstr m s.x s.y str len c.width c.leftadjust c.padchar
  .ok { s with
    mem := m
    index := c.index
    ap := s.ap + 4
    x := x
    out := s.out ++ out }

/-- `switch( ch )`, with the 12 bytes at `buf`. -/
def convert (buf : Word) (s : Printf) (c : Conversion) : Except Fault Printf :=
  let arg := load32 s.mem s.ap
  if c.ch = 0x63 then
    let m := store 1 (store 1 s.mem buf (arg.setWidth 8 : Byte)) (buf + 1) (0 : Byte)
    s.emit c m buf 1
  else if c.ch = 0x64 then
    let (m, len) := cvtdec s.mem buf arg
    s.emit c m buf len
  else if c.ch = 0x73 then s.emit c s.mem arg 0xFFFFFFFF
  else if c.ch = 0x78 then
    let (m, len) := cvthex s.mem buf arg
    s.emit c m buf len
  else if c.ch = 0x6F then
    let (m, len) := cvtoct s.mem buf arg
    s.emit c m buf len
  else .ok { s with index := c.index }

/-- A character that is not a `%`. -/
def text (s : Printf) (ch : Byte) : Printf :=
  { s with
    index := s.index + 1
    x := if HasPlace s.x s.y then (if ch = 0xA ∨ ch = 0xD then 0 else s.x + 1) else s.x
    y := if HasPlace s.x s.y ∧ ch = 0xA then s.y + 1 else s.y
    out := s.out ++ [putAt s.x s.y ch] }

/-- A round of the loop. -/
def step (fmt buf : Word) (s : Printf) : Except Fault Printf :=
  let ch := charAt s.mem fmt s.index
  if ch = 0x25 then do
    let c ← readConversion s.mem fmt (s.index + 1)
    s.convert buf c
  else .ok (s.text ch)

/-- The loop of `__c_do_printf`. -/
def loop (fmt buf : Word) : Nat → Printf → Except Fault Printf
  | 0, _ => .error .diverge
  | fuel + 1, s =>
      if charAt s.mem fmt s.index ≠ 0 then do
        let s ← s.step fmt buf
        loop fmt buf fuel s
      else .ok s

/-- The indices of the format that the loop reads at: those that `fmt` has
passed. -/
def reads (fmt buf : Word) : Nat → Printf → List Nat
  | 0, _ => []
  | fuel + 1, s =>
      s.index :: if charAt s.mem fmt s.index ≠ 0 then
          match s.step fmt buf with
          | .ok s' => List.range' (s.index + 1) (s'.index - (s.index + 1)) ++ reads fmt buf fuel s'
          | .error _ => []
        else []

/-- The state before the loop: the arguments are behind the format's. -/
def start (m : Mem) (x y f : Word) : Printf := ⟨m, 0, f + 4, x, y, []⟩

end Printf

/-- `__c_do_printf`: memory, the calls of the console, and whether it is
redrawn. -/
def cDoPrintf (m : Mem) (x y f buf : Word) (autoflush : Bool) :
    Except Fault (Mem × List ConCall × Bool) := do
  let s ← Printf.loop (load32 m f) buf (2 ^ 32) (Printf.start m x y f)
  .ok (s.mem, s.out, autoflush)

/-! ## Formats -/

/-- Where a format is between two characters: in its text, behind a `%`, or
in the width of a conversion. -/
inductive Place where
  | text
  | percent
  | width
  deriving Repr, DecidableEq

def Place.next : Place → Byte → Place
  | .text, ch => if ch = 0x25 then .percent else .text
  | .percent, ch => if ch = 0x2D ∨ IsWidth ch then .width else .text
  | .width, ch => if IsWidth ch then .width else .text

/-- The format does not end inside a conversion. -/
def Complete (s : List Byte) : Prop := s.foldl Place.next .text = .text

instance (s : List Byte) : Decidable (Complete s) :=
  inferInstanceAs (Decidable (_ = _))

/-- What is left of a format behind the width of a conversion. -/
def behindWidth (s : List Byte) : List Byte :=
  (if s.head? = some 0x2D then s.tail else s).dropWhile (IsWidth ·)

/-- Outside the 12 bytes of the buffer nothing has changed. -/
def KeepsOutside (buf : Word) (m m' : Mem) : Prop :=
  ∀ a, 12 ≤ (a - buf).toNat → m' a = m a

variable {m m' : Mem} {fmt buf : Word} {s s' : Printf} {c : Conversion} {t rest : List Byte}
  {index fuel L : Nat}

theorem width_end : ∀ t : List Byte, t.foldl Place.next .width = .text
    ↔ ∃ ch rest, t.dropWhile (IsWidth ·) = ch :: rest ∧ Complete rest
  | [] => iff_of_false (fun h => by cases h) (by simp)
  | ch :: t => by
      rw [List.foldl_cons, Place.next, List.dropWhile_cons]
      by_cases hw : IsWidth ch
      · rw [if_pos hw, if_pos (decide_eq_true hw), width_end t]
      · rw [if_neg hw, if_neg (by simpa using hw)]
        exact ⟨fun h => ⟨ch, t, rfl, h⟩, fun ⟨_, _, he, h⟩ => (List.cons.inj he).2 ▸ h⟩

/-- A conversion is complete if there is a character behind its width. -/
theorem percent_end (t : List Byte) : Complete (0x25 :: t)
    ↔ ∃ ch rest, behindWidth t = ch :: rest ∧ Complete rest := by
  have hnext : Place.next .text 0x25 = .percent := rfl
  rw [Complete, List.foldl_cons, hnext, behindWidth]
  cases t with
  | nil => exact iff_of_false (fun h => by cases h) (by simp)
  | cons ch t =>
      rw [List.foldl_cons, Place.next, List.head?_cons, List.tail_cons]
      by_cases hd : ch = 0x2D
      · rw [if_pos (.inl hd), if_pos (congrArg some hd), width_end]
      · rw [if_neg (mt Option.some.inj hd), List.dropWhile_cons]
        by_cases hw : IsWidth ch
        · rw [if_pos (.inr hw), if_pos (decide_eq_true hw), width_end]
        · rw [if_neg (not_or.mpr ⟨hd, hw⟩), if_neg (by simpa using hw)]
          exact ⟨fun h => ⟨ch, t, rfl, h⟩, fun ⟨_, _, he, h⟩ => (List.cons.inj he).2 ▸ h⟩

theorem length_behindWidth_le (t : List Byte) : (behindWidth t).length ≤ t.length := by
  rw [behindWidth]
  refine Nat.le_trans (List.dropWhile_sublist _).length_le ?_
  split
  · rw [List.length_tail]
    exact Nat.sub_le ..
  · exact Nat.le_refl _

/-! ## Reading a conversion -/

/-- The string at an index of the format, up to its end at `L`. -/
structure FormatAt (m : Mem) (fmt : Word) (L index : Nat) (t : List Byte) : Prop where
  string : IsString m (fmt + BitVec.ofNat 32 index) t
  length : index + t.length = L

theorem FormatAt.next {ch : Byte} (h : FormatAt m fmt L index (ch :: t)) :
    charAt m fmt index = ch ∧ ch ≠ 0 ∧ FormatAt m fmt L (index + 1) t := by
  obtain ⟨hc, hne, hs⟩ := isString_next h.string
  have hlen := h.length
  rw [List.length_cons] at hlen
  exact ⟨hc, hne, hs, by omega⟩

theorem FormatAt.head (h : FormatAt m fmt L index t) : charAt m fmt index = t.headD 0 := by
  cases t with
  | nil => exact h.string
  | cons ch t => exact h.next.1

theorem widthLoop_spec : ∀ {t : List Byte} {index fuel : Nat} (width : Word),
    FormatAt m fmt L index t → t.length < fuel →
    ∃ width' i, widthLoop m fmt fuel width (charAt m fmt index) (index + 1)
        = .ok (width', (t.dropWhile (IsWidth ·)).headD 0, i + 1)
      ∧ FormatAt m fmt L i (t.dropWhile (IsWidth ·))
  | _, _, 0, _, _, hf => absurd hf (Nat.not_lt_zero _)
  | [], index, fuel + 1, width, h, _ => by
      refine ⟨width, index, ?_, h⟩
      rw [widthLoop, h.head]
      rfl
  | ch :: t, index, fuel + 1, width, h, hf => by
      obtain ⟨hch, -, hrest⟩ := h.next
      rw [widthLoop, hch, List.dropWhile_cons]
      by_cases hw : IsWidth ch
      · rw [if_pos hw, if_pos (decide_eq_true hw)]
        exact widthLoop_spec _ hrest (Nat.lt_of_succ_lt_succ hf)
      · rw [if_neg hw, if_neg (by simpa using hw)]
        exact ⟨width, index, rfl, h⟩

/-- A zero is a digit of the width, whether it is the fill or not. -/
theorem fill_spec (h : FormatAt m fmt L index t) : ∃ width i,
    (if charAt m fmt index = 0x30 then
        widthLoop m fmt (2 ^ 32) 0 (charAt m fmt (index + 1)) (index + 1 + 1)
      else widthLoop m fmt (2 ^ 32) 0 (charAt m fmt index) (index + 1))
        = .ok (width, (t.dropWhile (IsWidth ·)).headD 0, i + 1)
      ∧ FormatAt m fmt L i (t.dropWhile (IsWidth ·)) := by
  have hlt := h.string.length_lt
  by_cases hzero : charAt m fmt index = 0x30
  · rw [if_pos hzero]
    cases t with
    | nil =>
        rw [h.head] at hzero
        exact absurd hzero (by decide)
    | cons ch t =>
        obtain ⟨hch, -, hrest⟩ := h.next
        have hw : decide (IsWidth ch) = true := by
          rw [← hch, hzero]
          decide
        rw [List.length_cons] at hlt
        rw [List.dropWhile_cons, if_pos hw]
        exact widthLoop_spec 0 hrest (by omega)
  · rw [if_neg hzero]
    exact widthLoop_spec 0 h hlt

theorem readConversion_spec (h : FormatAt m fmt L index t) : ∃ c i,
    readConversion m fmt index = .ok c ∧ c.ch = (behindWidth t).headD 0 ∧ c.index = i + 1
      ∧ FormatAt m fmt L i (behindWidth t) := by
  -- what follows the sign, at the place it begins
  have hfill : ∀ {t : List Byte} {index : Nat} (leftadjust : Bool), FormatAt m fmt L index t →
      ∃ c i, (do
        let (padchar, ch, index) : Byte × Byte × Nat :=
          if charAt m fmt index = 0x30 then (0x30, charAt m fmt (index + 1), index + 1 + 1)
          else (0x20, charAt m fmt index, index + 1)
        let (width, ch, index) ← widthLoop m fmt (2 ^ 32) 0 ch index
        .ok (⟨leftadjust, padchar, width, ch, index⟩ : Conversion)) = Except.ok c
        ∧ c.ch = (t.dropWhile (IsWidth ·)).headD 0 ∧ c.index = i + 1
        ∧ FormatAt m fmt L i (t.dropWhile (IsWidth ·)) := by
    intro t index leftadjust h
    obtain ⟨width, i, hloop, hrest⟩ := fill_spec h
    by_cases hzero : charAt m fmt index = 0x30
    · rw [if_pos hzero] at hloop
      simp only [if_pos hzero, hloop]
      exact ⟨_, i, rfl, rfl, rfl, hrest⟩
    · rw [if_neg hzero] at hloop
      simp only [if_neg hzero, hloop]
      exact ⟨_, i, rfl, rfl, rfl, hrest⟩
  rw [readConversion, behindWidth]
  by_cases hsign : charAt m fmt index = 0x2D
  · simp only [if_pos hsign]
    cases t with
    | nil =>
        rw [h.head] at hsign
        exact absurd hsign (by decide)
    | cons ch t =>
        obtain ⟨hch, -, hrest⟩ := h.next
        rw [List.head?_cons, if_pos (congrArg some (hch.symm.trans hsign)), List.tail_cons]
        exact hfill true hrest
  · simp only [if_neg hsign]
    have hhead : t.head? ≠ some 0x2D := by
      intro he
      rw [h.head, List.headD_eq_head?_getD, he] at hsign
      exact hsign rfl
    rw [if_neg hhead]
    exact hfill false h

/-! ## The buffer -/

theorem KeepsOutside.trans {m'' : Mem} (h : KeepsOutside buf m m')
    (h' : KeepsOutside buf m' m'') : KeepsOutside buf m m'' :=
  fun a ha => (h' a ha).trans (h a ha)

theorem keepsOutside_storeBytes {bs : List Byte} (h : bs.length ≤ 12) :
    KeepsOutside buf m (storeBytes m buf bs) :=
  fun _ ha => storeBytes_other (by omega) (Nat.le_trans h ha)

theorem keepsOutside_text {chars : List Byte} {r : Mem × Word} (h : StoresText m buf chars r)
    (hlen : chars.length ≤ 11) : KeepsOutside buf m r.1 := by
  rw [StoresText] at h
  rw [h]
  refine keepsOutside_storeBytes ?_
  rw [List.length_append, List.length_singleton]
  omega

/-- A conversion that is known puts its text into the buffer, and one that is
not is skipped. -/
theorem convert_cases (buf : Word) (s : Printf) (c : Conversion) :
    (∃ m' str len, KeepsOutside buf s.mem m' ∧ s.convert buf c = s.emit c m' str len)
      ∨ s.convert buf c = .ok { s with index := c.index } := by
  rw [Printf.convert]
  simp only
  split
  · have htwo : ∀ b : Byte, [b, 0].length ≤ 12 := by simp
    exact .inl ⟨_, _, _, keepsOutside_storeBytes (htwo _), rfl⟩
  split
  · exact .inl ⟨_, _, _, keepsOutside_text (cvtdec_spec ..) (length_decimal_le _), rfl⟩
  split
  · exact .inl ⟨_, _, _, fun _ _ => rfl, rfl⟩
  split
  · exact .inl ⟨_, _, _, keepsOutside_text (cvthex_spec ..)
      (Nat.le_trans (length_unsigned_le (k := 8) (by decide) (by decide) (by decide) _)
        (by decide)), rfl⟩
  split
  · exact .inl ⟨_, _, _, keepsOutside_text (cvtoct_spec ..) (length_octShown_le _), rfl⟩
  · exact .inr rfl

/-- Any argument is a string, since there is a NUL somewhere. -/
theorem emit_ok {z : Word} (hz : m z = 0) (s : Printf) (c : Conversion) (str len : Word) :
    ∃ s', s.emit c m str len = .ok s' ∧ s'.mem = m ∧ s'.index = c.index := by
  have hnul : m (str + BitVec.ofNat 32 (z - str).toNat) = 0 := by rwa [add_offset]
  obtain ⟨chars, hchars, -⟩ := IsString.exists_of_nul hnul
  rw [Printf.emit, Printf.padstr, strlen_spec hchars]
  exact ⟨_, rfl, rfl, rfl⟩

theorem convert_ok {z : Word} (hz : s.mem z = 0) (hout : 12 ≤ (z - buf).toNat) (c : Conversion) :
    ∃ s', s.convert buf c = .ok s' ∧ KeepsOutside buf s.mem s'.mem ∧ s'.index = c.index := by
  rcases convert_cases buf s c with ⟨m', str, len, hkeep, he⟩ | he
  · obtain ⟨s', hs', hmem, hindex⟩ := emit_ok (m := m') ((hkeep z hout).trans hz) s c str len
    exact ⟨s', he.trans hs', hmem ▸ hkeep, hindex⟩
  · exact ⟨_, he, fun _ _ => rfl, rfl⟩

/-! ## Rounds -/

/-- The format is apart from the buffer. -/
def FormatApart (buf fmt : Word) (L : Nat) : Prop :=
  ∀ i ≤ L, 12 ≤ (fmt + BitVec.ofNat 32 i - buf).toNat

theorem FormatAt.keep (h : FormatAt m fmt L index t) (hap : FormatApart buf fmt L)
    (hkeep : KeepsOutside buf m m') : FormatAt m' fmt L index t := by
  refine ⟨h.string.congr fun i hi => hkeep _ ?_, h.length⟩
  have hlen := h.length
  rw [BitVec.add_assoc, ← BitVec.ofNat_add]
  exact hap (index + i) (by omega)

/-- A round goes on in the format, or was at a conversion that the format
ends in, and is behind the NUL. -/
theorem step_spec {ch : Byte} (h : FormatAt s.mem fmt L s.index (ch :: t))
    (hap : FormatApart buf fmt L) : ∃ s', s.step fmt buf = .ok s'
      ∧ KeepsOutside buf s.mem s'.mem
      ∧ ((∃ rest, FormatAt s'.mem fmt L s'.index rest ∧ rest.length ≤ t.length
          ∧ (Complete (ch :: t) ↔ Complete rest))
        ∨ s'.index = L + 1 ∧ ¬Complete (ch :: t)) := by
  obtain ⟨hch, -, hrest⟩ := h.next
  rw [Printf.step]
  simp only [hch]
  by_cases hp : ch = 0x25
  · rw [if_pos hp]
    obtain ⟨c, i, hread, hc, hindex, hat⟩ := readConversion_spec hrest
    have hnul : s.mem (fmt + BitVec.ofNat 32 L) = 0 := by
      have hend := h.string.nul
      rw [BitVec.add_assoc, ← BitVec.ofNat_add, h.length] at hend
      exact hend
    obtain ⟨s', hs', hkeep, hi⟩ := convert_ok hnul (hap L (Nat.le_refl L)) c
    rw [hread]
    refine ⟨s', hs', hkeep, ?_⟩
    have hpercent := percent_end t
    rw [hp]
    cases hb : behindWidth t with
    | nil =>
        rw [hb] at hat hpercent
        refine .inr ⟨?_, fun hc => ?_⟩
        · rw [hi, hindex, ← hat.length]
          rfl
        · obtain ⟨_, _, he, -⟩ := hpercent.mp hc
          cases he
    | cons ch' rest =>
        have hle := length_behindWidth_le t
        rw [hb] at hat hpercent hle
        have hrest' := hat.next.2.2.keep hap hkeep
        rw [← hindex, ← hi] at hrest'
        refine .inl ⟨rest, hrest', Nat.le_of_succ_le hle, hpercent.trans ⟨?_, ?_⟩⟩
        · rintro ⟨_, _, he, hc⟩
          rwa [(List.cons.inj he).2]
        · exact fun hc => ⟨ch', rest, rfl, hc⟩
  · rw [if_neg hp]
    have hnext : Place.next .text ch = .text := if_neg hp
    refine ⟨_, rfl, fun _ _ => rfl, .inl ⟨t, hrest, Nat.le_refl _, ?_⟩⟩
    rw [Complete, List.foldl_cons, hnext]
    rfl

/-! ## The loop -/

theorem printf_complete : ∀ {fuel : Nat} {s : Printf} {t : List Byte},
    FormatAt s.mem fmt L s.index t → FormatApart buf fmt L → t.length < fuel → Complete t →
    (∀ i ∈ s.reads fmt buf fuel, i ≤ L)
      ∧ ∃ s', s.loop fmt buf fuel = .ok s' ∧ KeepsOutside buf s.mem s'.mem
  | 0, _, _, _, _, hf, _ => absurd hf (Nat.not_lt_zero _)
  | fuel + 1, s, [], h, _, _, _ => by
      have hz : charAt s.mem fmt s.index = 0 := h.head
      rw [Printf.reads, Printf.loop, if_neg (not_not_intro hz), if_neg (not_not_intro hz)]
      refine ⟨?_, s, rfl, fun _ _ => rfl⟩
      rw [List.forall_mem_singleton]
      exact h.length.le
  | fuel + 1, s, ch :: t, h, hap, hf, hc => by
      obtain ⟨hch, hne, -⟩ := h.next
      obtain ⟨s', hs', hkeep, ⟨rest, hrest, hle, hiff⟩ | ⟨-, hnot⟩⟩ := step_spec h hap
      · rw [List.length_cons] at hf
        have ih : (∀ i ∈ s'.reads fmt buf fuel, i ≤ L) ∧ _ :=
          printf_complete hrest hap (by omega) (hiff.mp hc)
        obtain ⟨hreads, s'', hs'', hkeep'⟩ := ih
        have hne' : charAt s.mem fmt s.index ≠ 0 := hch ▸ hne
        rw [Printf.reads, Printf.loop, if_pos hne', if_pos hne', hs']
        refine ⟨?_, s'', hs'', hkeep.trans hkeep'⟩
        rw [List.forall_mem_cons, List.forall_mem_append]
        refine ⟨?_, fun i hi => ?_, hreads⟩
        · rw [← h.length]
          exact Nat.le_add_right ..
        · have hlen := hrest.length
          rw [List.mem_range'_1] at hi
          omega
      · exact absurd hc hnot

theorem printf_overrun : ∀ {fuel : Nat} {s : Printf} {t : List Byte},
    FormatAt s.mem fmt L s.index t → FormatApart buf fmt L → t.length < fuel → ¬Complete t →
    L + 1 ∈ s.reads fmt buf fuel
  | 0, _, _, _, _, hf, _ => absurd hf (Nat.not_lt_zero _)
  | fuel + 1, s, [], _, _, _, hc => absurd rfl hc
  | fuel + 1, s, ch :: t, h, hap, hf, hc => by
      obtain ⟨hch, hne, -⟩ := h.next
      have hne' : charAt s.mem fmt s.index ≠ 0 := hch ▸ hne
      rw [List.length_cons] at hf
      obtain ⟨s', hs', -, ⟨rest, hrest, hle, hiff⟩ | ⟨hindex, -⟩⟩ := step_spec h hap
      · rw [Printf.reads, if_pos hne', hs']
        exact List.mem_cons_of_mem _ (List.mem_append_right _
          (printf_overrun hrest hap (by omega) (mt hiff.mpr hc)))
      · obtain ⟨k, rfl⟩ : ∃ k, fuel = k + 1 := ⟨fuel - 1, by omega⟩
        rw [Printf.reads, if_pos hne', hs']
        show L + 1 ∈ s.index :: (List.range' _ _ ++ s'.reads fmt buf (k + 1))
        rw [Printf.reads, hindex]
        exact List.mem_cons_of_mem _ (List.mem_append_right _ List.mem_cons_self)

/-- Only the format is read, the call returns, and outside the 12 bytes
memory is as it was. -/
structure PrintfInside (m : Mem) (x y f buf : Word) (autoflush : Bool) (format : List Byte) :
    Prop where
  reads : ∀ i ∈ (Printf.start m x y f).reads (load32 m f) buf (2 ^ 32), i ≤ format.length
  returns : ∃ r, cDoPrintf m x y f buf autoflush = .ok r ∧ KeepsOutside buf m r.1

section
variable {x y f : Word} {autoflush : Bool} {format : List Byte}

theorem printf_start (hs : IsString m (load32 m f) format)
    (hap : Apart buf 12 (load32 m f) (format.length + 1)) :
    FormatAt (Printf.start m x y f).mem (load32 m f) format.length
        (Printf.start m x y f).index format
      ∧ FormatApart buf (load32 m f) format.length := by
  refine ⟨⟨?_, Nat.zero_add _⟩, fun i hi => ?_⟩
  · rw [show (Printf.start m x y f).index = 0 from rfl, BitVec.add_zero]
    exact hs
  · by_contra hlt
    exact hap _ (Nat.lt_of_not_le hlt) i (Nat.lt_succ_of_le hi) (add_offset ..)

theorem PrintfInside.complete (h : PrintfInside m x y f buf autoflush format)
    (hs : IsString m (load32 m f) format)
    (hap : Apart buf 12 (load32 m f) (format.length + 1)) : Complete format := by
  obtain ⟨hat, hout⟩ := printf_start hs hap
  by_contra hc
  exact absurd (h.reads _ (printf_overrun hat hout hs.length_lt hc)) (Nat.not_succ_le_self _)

/-- `c_printf` stays inside a format exactly if the format does not end
inside a conversion. -/
theorem printf_inside_iff (hs : IsString m (load32 m f) format)
    (hap : Apart buf 12 (load32 m f) (format.length + 1)) :
    PrintfInside m x y f buf autoflush format ↔ Complete format := by
  refine ⟨fun h => h.complete hs hap, fun hc => ?_⟩
  obtain ⟨hat, hout⟩ := printf_start hs hap
  obtain ⟨hreads, s', hs', hkeep⟩ := printf_complete hat hout hs.length_lt hc
  refine ⟨hreads, (s'.mem, s'.out, autoflush), ?_, hkeep⟩
  rw [cDoPrintf, hs']
  rfl

end

/-- A format at `0x2000`, behind the pointer at `0x1000`. -/
def formatMem (format : List Byte) : Mem :=
  storeBytes (store 4 (fun _ => 0) 0x1000 (0x2000 : Word)) 0x2000 format

theorem formatMem_apart : Apart 0x3000 12 (0x2000 : Word) 3 := by
  unfold Apart
  decide

/-- `%d` -/
theorem printf_inside_decimal :
    PrintfInside (formatMem [0x25, 0x64]) 0 0 0x1000 0x3000 false [0x25, 0x64] := by
  have hs : IsString (formatMem [0x25, 0x64]) 0x2000 [0x25, 0x64] := by decide
  have hf : load32 (formatMem [0x25, 0x64]) 0x1000 = 0x2000 := by decide
  refine (printf_inside_iff (hf.symm ▸ hs) (hf.symm ▸ formatMem_apart)).mpr ?_
  decide

/-- `%` -/
theorem printf_inside_percent :
    ¬PrintfInside (formatMem [0x25]) 0 0 0x1000 0x3000 false [0x25] := by
  have hs : IsString (formatMem [0x25]) 0x2000 [0x25] := by decide
  have hf : load32 (formatMem [0x25]) 0x1000 = 0x2000 := by decide
  intro h
  have hap : Apart 0x3000 12 (0x2000 : Word) 2 := formatMem_apart.mono (Nat.le_refl _) (by decide)
  exact absurd (h.complete (hf.symm ▸ hs) (hf.symm ▸ hap)) (by decide)

end SpKernel
