import SpKernel.Printf

/-!
# What `c_printf` prints

A format that does not end inside a conversion is a list of characters
and conversions (`Complete.directives`), and what is printed for it is
what is printed for each of them: the character, or the argument as text,
filled up to the width on one side (`printf_renders`). For `c_printf_at`
the places are others and the characters are the same.

`Directive` and its `bytes` are the syntax of a format, with the
conditions under which the code reads it as it is meant (`Directive.Wf`):
a zero is the fill if it can be, and a sign without anything behind it is
no kind of data. `render` is the meaning of a list of directives. It
takes the arguments from a list, as `Supplied` says that they are on the
stack, each where the code looks for it and apart from the buffer.

The proof follows the loop: a conversion is read as it was written
(`readConversion_directive`), its text is that of the argument
(`convert_rendered`), padding adds the fill (`padstr_chars`), and a round
prints one directive (`step_rendered`).

The text of an octal conversion is what `cvtoct` makes of the argument
(`Arg.text`), which is not the numeral of the argument but for two
values. A kind of data that is not known prints nothing and takes no
argument.
-/

namespace SpKernel

open Lib

/-! ## Formats -/

/-- What stands between the `%` and the kind of data. -/
structure Options where
  leftadjust : Bool
  zero : Bool
  digits : List Byte

/-- A character, or a conversion. -/
inductive Directive
  | text (ch : Byte)
  | conv (o : Options) (ch : Byte)

def Options.bytes (o : Options) : List Byte :=
  (if o.leftadjust then [0x2D] else []) ++ (if o.zero then [0x30] else []) ++ o.digits

def Directive.bytes : Directive → List Byte
  | .text ch => [ch]
  | .conv o ch => 0x25 :: (o.bytes ++ [ch])

/-- A zero is the fill if it can be, and the kind of data is what cannot be
an option. -/
def Directive.Wf : Directive → Prop
  | .text ch => ch ≠ 0x25
  | .conv o ch => (∀ b ∈ o.digits, IsWidth b) ∧ (o.zero = false → o.digits.head? ≠ some 0x30)
      ∧ ¬IsWidth ch ∧ (o.bytes = [] → ch ≠ 0x2D)

/-- The number that some digits continue. -/
def widthFrom (n : Nat) (digits : List Byte) : Nat :=
  digits.foldl (fun n b => 10 * n + (b.toNat - 0x30)) n

def Options.width (o : Options) : Nat := widthFrom 0 o.digits

def Options.padchar (o : Options) : Byte := if o.zero then 0x30 else 0x20

/-! ## Texts -/

/-- An argument, and the string that it points to if it does. -/
structure Arg where
  word : Word
  string : List Byte

/-- The kinds of data that take an argument. -/
def TakesArg (ch : Byte) : Prop := ch = 0x63 ∨ ch = 0x64 ∨ ch = 0x73 ∨ ch = 0x78 ∨ ch = 0x6F

instance (ch : Byte) : Decidable (TakesArg ch) :=
  inferInstanceAs (Decidable (_ ∨ _ ∨ _ ∨ _ ∨ _))

/-- An argument as `c_printf` has it as text. For `%o` that is the numeral of
what `cvtoct` makes of the argument, which is another number unless it is 0
or `0x40000000`. -/
def Arg.text (a : Arg) (ch : Byte) : List Byte :=
  if ch = 0x63 then (if a.word.setWidth 8 = (0 : Byte) then [] else [a.word.setWidth 8])
  else if ch = 0x64 then decimal a.word
  else if ch = 0x73 then a.string
  else if ch = 0x78 then unsigned 16 a.word
  else digitChars (numeral 8 (octShown a.word))

/-- The length that is filled up to the width; a NUL counts as a character. -/
def Arg.length (a : Arg) (ch : Byte) : Nat := if ch = 0x63 then 1 else (a.text ch).length

/-- The text with its fill. -/
def Options.padded (o : Options) (text : List Byte) (length : Nat) : List Byte :=
  if o.leftadjust then text ++ List.replicate (o.width - length) o.padchar
  else List.replicate (o.width - length) o.padchar ++ text

/-- What is printed. A kind of data that is not known prints nothing and takes
no argument. -/
def render : List Directive → List Arg → List Byte
  | [], _ => []
  | .text ch :: ds, args => ch :: render ds args
  | .conv o ch :: ds, args =>
      if TakesArg ch then
        match args with
        | [] => []
        | a :: args => o.padded (a.text ch) (a.length ch) ++ render ds args
      else render ds args

/-- The string of a `%s` is where the argument points to. -/
structure Arg.Points (m : Mem) (buf : Word) (a : Arg) : Prop where
  string : IsString m a.word a.string
  nonnull : a.word ≠ 0
  length : a.string.length < 2 ^ 31
  apart : ∀ i ≤ a.string.length, 12 ≤ (a.word + BitVec.ofNat 32 i - buf).toNat

/-- The arguments are on the stack from `ap` on, apart from the buffer. -/
inductive Supplied (m : Mem) (buf : Word) : Word → List Directive → List Arg → Prop
  | nil (ap : Word) : Supplied m buf ap [] []
  | text {ap : Word} {ds : List Directive} {args : List Arg} (ch : Byte) :
      Supplied m buf ap ds args → Supplied m buf ap (.text ch :: ds) args
  | unknown {ap : Word} {ds : List Directive} {args : List Arg} (o : Options) {ch : Byte} :
      ¬TakesArg ch → Supplied m buf ap ds args → Supplied m buf ap (.conv o ch :: ds) args
  | arg {ap : Word} {ds : List Directive} {args : List Arg} {o : Options} {ch : Byte} {a : Arg} :
      TakesArg ch → o.width < 2 ^ 31 → load32 m ap = a.word →
      (∀ i < 4, 12 ≤ (ap + BitVec.ofNat 32 i - buf).toNat) → (ch = 0x73 → a.Points m buf) →
      Supplied m buf (ap + 4) ds args → Supplied m buf ap (.conv o ch :: ds) (a :: args)

/-- The characters of a call of the console. -/
def ConCall.chars : ConCall → List Byte
  | .putchar ch => [ch]
  | .puts str => str
  | .putcharAt ch _ _ => [ch]
  | .putsAt str _ _ => str
  | _ => []

/-! ## Every complete format is a list of directives -/

theorem options_of_digits (left : Bool) {w : List Byte} (hw : ∀ b ∈ w, IsWidth b) :
    ∃ o : Options, o.bytes = (if left then [0x2D] else []) ++ w ∧ (∀ b ∈ o.digits, IsWidth b)
      ∧ (o.zero = false → o.digits.head? ≠ some 0x30) := by
  cases w with
  | nil => exact ⟨⟨left, false, []⟩, by simp [Options.bytes], nofun, fun _ => nofun⟩
  | cons b w =>
      by_cases hb : b = 0x30
      · refine ⟨⟨left, true, w⟩, ?_, fun c hc => hw c (List.mem_cons_of_mem b hc), nofun⟩
        rw [hb, Options.bytes]
        exact List.append_assoc _ [0x30] w
      · refine ⟨⟨left, false, b :: w⟩, ?_, hw, fun _ hc => hb (Option.some.inj hc)⟩
        rw [Options.bytes]
        simp

theorem options_of_behindWidth {t rest : List Byte} {ch : Byte} (h : behindWidth t = ch :: rest) :
    ∃ o : Options, t = o.bytes ++ ch :: rest ∧ (Directive.conv o ch).Wf := by
  have hsplit : ∀ {u : List Byte}, u.dropWhile (IsWidth ·) = ch :: rest →
      ∃ w, u = w ++ ch :: rest ∧ (∀ b ∈ w, IsWidth b) ∧ ¬IsWidth ch := by
    intro u hu
    refine ⟨u.takeWhile (IsWidth ·), ?_, fun b hb => ?_, fun hc => ?_⟩
    · rw [← hu, List.takeWhile_append_dropWhile]
    · simpa using List.mem_takeWhile_imp hb
    · have hne : u.dropWhile (IsWidth ·) ≠ [] := hu ▸ List.cons_ne_nil _ _
      have hhead := List.head_dropWhile_not (IsWidth ·) hne
      simp only [hu, List.head_cons, decide_eq_false_iff_not] at hhead
      exact hhead hc
  rw [behindWidth] at h
  by_cases hsign : t.head? = some 0x2D
  · rw [if_pos hsign] at h
    obtain ⟨w, hu, hw, hch⟩ := hsplit h
    obtain ⟨o, hbytes, hdigits, hfirst⟩ := options_of_digits true hw
    refine ⟨o, ?_, hdigits, hfirst, hch, fun hnil => ?_⟩
    · cases t with
      | nil => cases hsign
      | cons b u =>
          obtain rfl : b = 0x2D := Option.some.inj hsign
          rw [List.tail_cons] at hu
          rw [hbytes, hu]
          rfl
    · rw [hnil] at hbytes
      cases hbytes
  · rw [if_neg hsign] at h
    obtain ⟨w, rfl, hw, hch⟩ := hsplit h
    obtain ⟨o, hbytes, hdigits, hfirst⟩ := options_of_digits false hw
    refine ⟨o, ?_, hdigits, hfirst, hch, fun hnil hc => hsign ?_⟩
    · rw [hbytes]
      rfl
    · rw [hnil] at hbytes
      rw [← show ([] : List Byte) = w from hbytes, hc]
      rfl

theorem Complete.directives : ∀ {n : Nat} {s : List Byte}, s.length ≤ n → Complete s →
    ∃ ds : List Directive, s = ds.flatMap Directive.bytes ∧ ∀ d ∈ ds, d.Wf
  | _, [], _, _ => ⟨[], rfl, nofun⟩
  | 0, _ :: _, hn, _ => absurd hn (Nat.not_succ_le_zero _)
  | n + 1, ch :: t, hn, hc => by
      by_cases hp : ch = 0x25
      · subst hp
        obtain ⟨ch', rest, hb, hrest⟩ := (percent_end t).mp hc
        obtain ⟨o, rfl, hwf⟩ := options_of_behindWidth hb
        have hlen := length_behindWidth_le (o.bytes ++ ch' :: rest)
        rw [hb, List.length_cons] at hlen
        rw [List.length_cons] at hn
        obtain ⟨ds, rfl, hds⟩ := hrest.directives (n := n) (by omega)
        refine ⟨.conv o ch' :: ds, ?_, List.forall_mem_cons.mpr ⟨hwf, hds⟩⟩
        simp [Directive.bytes]
      · have hnext : Place.next .text ch = .text := if_neg hp
        rw [Complete, List.foldl_cons, hnext] at hc
        have hrest : Complete t := hc
        obtain ⟨ds, rfl, hds⟩ := hrest.directives (n := n) (Nat.le_of_succ_le_succ hn)
        exact ⟨.text ch :: ds, rfl, List.forall_mem_cons.mpr ⟨hp, hds⟩⟩

/-! ## Reading a conversion -/

variable {m m' : Mem} {fmt buf : Word} {s : Printf} {rest : List Byte} {o : Options} {ch : Byte}
  {index L : Nat}

theorem width_next (n : Nat) {b : Byte} (hb : IsWidth b) :
    BitVec.ofNat 32 n * 10 + (b.setWidth 32 - 0x30)
      = BitVec.ofNat 32 (10 * n + (b.toNat - 0x30)) := by
  have hdigit : b.setWidth 32 - 0x30 = BitVec.ofNat 32 (b.toNat - 0x30) := by
    have hlt := b.isLt
    have hzero : (0x30 : Word).toNat = 48 := rfl
    have hle : 48 ≤ b.toNat := hb.1
    refine BitVec.eq_of_toNat_eq ?_
    simp only [BitVec.toNat_sub, BitVec.toNat_setWidth, BitVec.toNat_ofNat]
    omega
  rw [hdigit, BitVec.ofNat_add, BitVec.ofNat_mul, BitVec.mul_comm]
  rfl

theorem widthLoop_digits : ∀ {digits : List Byte} {n index fuel : Nat},
    (∀ b ∈ digits, IsWidth b) → ¬IsWidth ch → FormatAt m fmt L index (digits ++ ch :: rest) →
    digits.length < fuel → ∃ i,
      widthLoop m fmt fuel (BitVec.ofNat 32 n) (charAt m fmt index) (index + 1)
        = .ok (BitVec.ofNat 32 (widthFrom n digits), ch, i) ∧ FormatAt m fmt L i rest
  | _, _, _, 0, _, _, _, hf => absurd hf (Nat.not_lt_zero _)
  | [], n, index, fuel + 1, _, hch, h, _ => by
      obtain ⟨hc, -, hrest⟩ := h.next
      rw [widthLoop, hc, if_neg hch]
      exact ⟨index + 1, rfl, hrest⟩
  | b :: digits, n, index, fuel + 1, hd, hch, h, hf => by
      obtain ⟨hb, hd⟩ := List.forall_mem_cons.mp hd
      obtain ⟨hc, -, hrest⟩ := h.next
      rw [widthLoop, hc, if_pos hb, width_next n hb]
      exact widthLoop_digits hd hch hrest (Nat.lt_of_succ_lt_succ hf)

theorem fill_digits (left : Bool) {zero : Bool} {digits : List Byte}
    (hd : ∀ b ∈ digits, IsWidth b) (hfirst : zero = false → digits.head? ≠ some 0x30)
    (hch : ¬IsWidth ch)
    (h : FormatAt m fmt L index ((if zero then [0x30] else []) ++ digits ++ ch :: rest)) :
    ∃ i, (do
      let (padchar, ch, index) : Byte × Byte × Nat :=
        if charAt m fmt index = 0x30 then (0x30, charAt m fmt (index + 1), index + 1 + 1)
        else (0x20, charAt m fmt index, index + 1)
      let (width, ch, index) ← widthLoop m fmt (2 ^ 32) 0 ch index
      .ok (⟨left, padchar, width, ch, index⟩ : Conversion))
        = Except.ok ⟨left, if zero then 0x30 else 0x20, BitVec.ofNat 32 (widthFrom 0 digits), ch, i⟩
      ∧ FormatAt m fmt L i rest := by
  have hlt := h.string.length_lt
  cases zero with
  | true =>
      obtain ⟨hc, -, hrest⟩ := h.next
      have hlen : digits.length < 2 ^ 32 := by
        simp only [List.length_append, List.length_cons] at hlt
        omega
      obtain ⟨i, hloop, hi⟩ := widthLoop_digits (n := 0) hd hch hrest hlen
      have hloop' : widthLoop m fmt (2 ^ 32) 0 (charAt m fmt (index + 1)) (index + 1 + 1) = _ :=
        hloop
      simp only [if_pos hc, hloop']
      exact ⟨i, rfl, hi⟩
  | false =>
      have hlen : digits.length < 2 ^ 32 := by
        simp only [List.length_append, List.length_cons] at hlt
        omega
      have hne : charAt m fmt index ≠ 0x30 := by
        rw [h.head]
        cases digits with
        | nil =>
            intro hc
            have hc' : ch = 0x30 := hc
            exact hch (hc' ▸ (by decide))
        | cons b digits => exact fun hc => hfirst rfl (congrArg some hc)
      obtain ⟨i, hloop, hi⟩ := widthLoop_digits (n := 0) hd hch h hlen
      have hloop' : widthLoop m fmt (2 ^ 32) 0 (charAt m fmt index) (index + 1) = _ := hloop
      simp only [if_neg hne, hloop']
      exact ⟨i, rfl, hi⟩

theorem readConversion_directive (hwf : (Directive.conv o ch).Wf)
    (h : FormatAt m fmt L index (o.bytes ++ ch :: rest)) : ∃ i,
    readConversion m fmt index
        = .ok ⟨o.leftadjust, o.padchar, BitVec.ofNat 32 o.width, ch, i⟩
      ∧ FormatAt m fmt L i rest := by
  obtain ⟨hd, hfirst, hch, hsign⟩ := hwf
  obtain ⟨left, zero, digits⟩ := o
  rw [readConversion]
  cases left with
  | true =>
      obtain ⟨hc, -, hrest⟩ := h.next
      simp only [if_pos hc]
      exact fill_digits true hd hfirst hch hrest
  | false =>
      have hne : charAt m fmt index ≠ 0x2D := by
        rw [h.head]
        cases zero with
        | true =>
            intro hc
            have hc' : (0x30 : Byte) = 0x2D := hc
            exact absurd hc' (by decide)
        | false =>
            cases digits with
            | nil => exact hsign rfl
            | cons b digits =>
                intro hc
                have hb := hd b List.mem_cons_self
                have hc' : b = 0x2D := hc
                rw [hc'] at hb
                exact absurd hb (by decide)
      simp only [if_neg hne]
      exact fill_digits false hd hfirst hch h

/-! ## Printing a text -/

theorem padLoopAt_chars (y : Word) (padchar : Byte) : ∀ (n : Nat) (x : Word),
    (padLoopAt y padchar n x).2.flatMap ConCall.chars = List.replicate n padchar
  | 0, _ => rfl
  | n + 1, x => by
      rw [padLoopAt, List.flatMap_cons, padLoopAt_chars y padchar n, List.replicate_succ, putAt]
      split
      · rfl
      · rfl

theorem bytes_of_isString : ∀ {chars : List Byte} {str : Word}, IsString m str chars →
    bytes m str chars.length = chars
  | [], _, _ => rfl
  | c :: chars, str, h => by
      rw [List.length_cons, bytes_succ, h.1]
      exact congrArg (c :: ·) (bytes_of_isString h.2.2)

/-- The fill is on the side that is asked for, and in the right number. -/
theorem padstr_chars {chars : List Byte} {str len : Word} {n w : Nat} (x y : Word) (left : Bool)
    (padchar : Byte) (hs : IsString m str chars) (hstr : str ≠ 0)
    (hlen : (if len.slt 0 then BitVec.ofNat 32 chars.length else len) = BitVec.ofNat 32 n)
    (hn : n < 2 ^ 31) (hw : w < 2 ^ 31) :
    ∃ x' out, Printf.padstr m x y str len (BitVec.ofNat 32 w) left padchar = .ok (x', out)
      ∧ out.flatMap ConCall.chars
        = if left then chars ++ List.replicate (w - n) padchar
          else List.replicate (w - n) padchar ++ chars := by
  have hextra : (BitVec.ofNat 32 w - BitVec.ofNat 32 n).toInt = w - n := by
    rw [BitVec.toInt_eq_toNat_cond, BitVec.toNat_sub, BitVec.toNat_ofNat, BitVec.toNat_ofNat]
    omega
  have hpos : (0 : Word).slt (BitVec.ofNat 32 w - BitVec.ofNat 32 n) ↔ n < w := by
    rw [BitVec.slt_iff_toInt_lt, hextra]
    have hzero : (0 : Word).toInt = 0 := rfl
    omega
  have hfill : ∀ (x : Word) (p : Prop) [Decidable p],
      (if n < w ∧ p then Printf.pad x y (BitVec.ofNat 32 w - BitVec.ofNat 32 n) padchar
        else (x, [])).2.flatMap ConCall.chars
        = if p then List.replicate (w - n) padchar else [] := by
    intro x p _
    by_cases hp : p
    · rw [if_pos hp]
      by_cases hlt : n < w
      · have hcount : (w - n : Int).toNat = w - n := by omega
        rw [if_pos ⟨hlt, hp⟩, Printf.pad, padLoopAt_chars, hextra, hcount]
      · rw [if_neg fun h => hlt h.1, Nat.sub_eq_zero_of_le (Nat.le_of_not_lt hlt)]
        rfl
    · rw [if_neg fun h => hp h.2, if_neg hp]
      rfl
  have hput : ∀ x : Word, (if HasPlace x y then
      (x + BitVec.ofNat 32 n, [ConCall.putsAt chars (x.setWidth 16) (y.setWidth 16)])
      else (x, if str = 0 then [] else [.puts chars])).2.flatMap ConCall.chars = chars := by
    intro x
    rw [if_neg hstr]
    split
    · exact List.append_nil chars
    · exact List.append_nil chars
  rw [Printf.padstr, strlen_spec hs, ok_bind]
  simp only [bytes_of_isString hs, hlen, hpos]
  refine ⟨_, _, rfl, ?_⟩
  rw [List.flatMap_append, List.flatMap_append, hfill, hput, hfill]
  cases left with
  | true => rfl
  | false => exact List.append_nil _

/-! ## Conversions -/

/-- What is shown, and what has become of the state besides. -/
structure Rendered (buf : Word) (s s' : Printf) (out : List Byte) (args index : Nat) : Prop where
  out : s'.out.flatMap ConCall.chars = s.out.flatMap ConCall.chars ++ out
  mem : KeepsOutside buf s.mem s'.mem
  ap : s'.ap = s.ap + BitVec.ofNat 32 (4 * args)
  index : s'.index = index

theorem emit_rendered {chars : List Byte} {str len : Word} {n i : Nat} (s : Printf)
    (hkeep : KeepsOutside buf s.mem m') (hs : IsString m' str chars) (hstr : str ≠ 0)
    (hlen : (if len.slt 0 then BitVec.ofNat 32 chars.length else len) = BitVec.ofNat 32 n)
    (hn : n < 2 ^ 31) (hw : o.width < 2 ^ 31) :
    ∃ s', s.emit ⟨o.leftadjust, o.padchar, BitVec.ofNat 32 o.width, ch, i⟩ m' str len = .ok s'
      ∧ Rendered buf s s' (o.padded chars n) 1 i := by
  obtain ⟨x, out, hp, hout⟩ := padstr_chars s.x s.y o.leftadjust o.padchar hs hstr hlen hn hw
  rw [Printf.emit, hp, ok_bind]
  refine ⟨_, rfl, ?_, hkeep, rfl, rfl⟩
  rw [List.flatMap_append, hout]
  rfl

/-- The text of a number has been stored in the buffer. -/
theorem number_rendered {chars : List Byte} {r : Mem × Word} {i : Nat} (s : Printf) (hbuf : buf ≠ 0)
    (h : StoresText s.mem buf chars r) (hchars : ∀ c ∈ chars, c ≠ 0) (hlen : chars.length ≤ 11)
    (hw : o.width < 2 ^ 31) :
    ∃ s', s.emit ⟨o.leftadjust, o.padchar, BitVec.ofNat 32 o.width, ch, i⟩ r.1 buf r.2 = .ok s'
      ∧ Rendered buf s s' (o.padded chars chars.length) 1 i := by
  have hkeep := keepsOutside_text h hlen
  rw [StoresText] at h
  have hs : IsString r.1 buf chars := by
    rw [h]
    exact IsString.of_stored hchars (by omega)
  have hcount : (if r.2.slt 0 then BitVec.ofNat 32 chars.length else r.2)
      = BitVec.ofNat 32 chars.length := by
    rw [h]
    exact ite_self _
  exact emit_rendered s hkeep hs hbuf hcount (by omega) hw

theorem numeral_ne_zero {b n : Nat} (hb : 1 < b) (hb' : b ≤ 16) :
    ∀ c ∈ digitChars (numeral b n), c ≠ 0 := by
  have hall : ∀ d < 16, hexDigit d ≠ 0 := by decide
  intro c hc
  obtain ⟨d, hd, rfl⟩ := List.mem_map.mp hc
  exact hall d (Nat.lt_of_lt_of_le ((canonical_numeral hb n).digit d hd) hb')

theorem decimal_ne_zero (value : Word) : ∀ c ∈ decimal value, c ≠ 0 := by
  intro c hc
  rcases List.mem_append.mp hc with hc | hc
  · split at hc
    · rw [List.mem_singleton.mp hc]
      decide
    · cases hc
  · exact numeral_ne_zero (by decide) (by decide) c hc

/-- The character of a `%c`, which is none if it is a NUL. -/
theorem char_isString (b : Byte) :
    IsString (storeBytes m buf [b, 0]) buf (if b = 0 then [] else [b]) := by
  by_cases hb : b = 0
  · rw [if_pos hb, hb, IsString, storeBytes_apply (by decide : [(0 : Byte), 0].length ≤ 2 ^ 32),
      BitVec.sub_self]
    rfl
  · rw [if_neg hb]
    have hlen : [b].length < 2 ^ 32 := Nat.lt_of_sub_pos (by decide : 0 < 2 ^ 32 - 1)
    refine IsString.of_stored ?_ hlen
    rintro c hc rfl
    exact hb (List.mem_singleton.mp hc).symm

/-- A conversion that takes an argument shows it as text, filled up. -/
theorem convert_rendered {a : Arg} {i : Nat} (hbuf : buf ≠ 0) (ht : TakesArg ch)
    (hw : o.width < 2 ^ 31) (ha : load32 s.mem s.ap = a.word)
    (hstring : ch = 0x73 → a.Points s.mem buf) :
    ∃ s', s.convert buf ⟨o.leftadjust, o.padchar, BitVec.ofNat 32 o.width, ch, i⟩ = .ok s'
      ∧ Rendered buf s s' (o.padded (a.text ch) (a.length ch)) 1 i := by
  rw [Printf.convert]
  simp only [ha]
  have hcount : ∀ chars : List Byte,
      (if (1 : Word).slt 0 then BitVec.ofNat 32 chars.length else 1) = BitVec.ofNat 32 1 :=
    fun _ => if_neg (by decide)
  have hstrlen : ∀ chars : List Byte,
      (if (0xFFFFFFFF : Word).slt 0 then BitVec.ofNat 32 chars.length else 0xFFFFFFFF)
        = BitVec.ofNat 32 chars.length := fun _ => if_pos (by decide)
  rcases ht with rfl | rfl | rfl | rfl | rfl
  · simp only [↓reduceIte, Arg.length, Arg.text]
    have hkeep : KeepsOutside buf s.mem (storeBytes s.mem buf [a.word.setWidth 8, 0]) :=
      keepsOutside_storeBytes (Nat.le_add_left 2 10)
    exact emit_rendered s hkeep (char_isString _) hbuf (hcount _) (by decide) hw
  · simp only [↓reduceIte, Arg.length, Arg.text, BitVec.reduceEq]
    exact number_rendered s hbuf (cvtdec_spec ..) (decimal_ne_zero _) (length_decimal_le _) hw
  · simp only [↓reduceIte, Arg.length, Arg.text, BitVec.reduceEq]
    have hp := hstring rfl
    exact emit_rendered s (fun _ _ => rfl) hp.string hp.nonnull (hstrlen _) hp.length hw
  · simp only [↓reduceIte, Arg.length, Arg.text, BitVec.reduceEq]
    have hlen : (unsigned 16 a.word).length ≤ 8 :=
      length_unsigned_le (by decide) (by decide) (by decide) a.word
    exact number_rendered s hbuf (cvthex_spec ..) (numeral_ne_zero (by decide) (by decide))
      (Nat.le_trans hlen (by decide)) hw
  · simp only [↓reduceIte, Arg.length, Arg.text, BitVec.reduceEq]
    exact number_rendered s hbuf (cvtoct_spec ..) (numeral_ne_zero (by decide) (by decide))
      (length_octShown_le _) hw

theorem convert_unknown {i : Nat} (ht : ¬TakesArg ch) {left : Bool} {padchar : Byte}
    {width : Word} :
    ∃ s', s.convert buf ⟨left, padchar, width, ch, i⟩ = .ok s' ∧ Rendered buf s s' [] 0 i := by
  simp only [TakesArg, not_or] at ht
  obtain ⟨hc, hd, hstr, hx, ho⟩ := ht
  rw [Printf.convert]
  simp only [hc, hd, hstr, hx, ho, ↓reduceIte]
  exact ⟨_, rfl, (List.append_nil _).symm, fun _ _ => rfl, (BitVec.add_zero _).symm, rfl⟩

/-! ## The loop -/

theorem Arg.Points.keep {a : Arg} (h : a.Points m buf) (hkeep : KeepsOutside buf m m') :
    a.Points m' buf :=
  ⟨h.string.congr fun i hi => hkeep _ (h.apart i hi), h.nonnull, h.length, h.apart⟩

theorem Supplied.keep {ap : Word} {ds : List Directive} {args : List Arg}
    (h : Supplied m buf ap ds args) (hkeep : KeepsOutside buf m m') :
    Supplied m' buf ap ds args := by
  induction h with
  | nil ap => exact .nil ap
  | text ch _ ih => exact .text ch ih
  | unknown o ht _ ih => exact .unknown o ht ih
  | arg ht hw ha hap hstring _ ih =>
      refine .arg ht hw ?_ hap (fun hs => (hstring hs).keep hkeep) ih
      rw [load32_congr fun i hi => hkeep _ (hap i hi), ha]

/-- A round shows the directive that is next, and the others are still to be
shown. -/
theorem step_rendered {d : Directive} {ds : List Directive} {args : List Arg} (hbuf : buf ≠ 0)
    (hwf : d.Wf) (hat : FormatAt s.mem fmt L s.index (d.bytes ++ rest))
    (hsup : Supplied s.mem buf s.ap (d :: ds) args) :
    ∃ s' out n i args', s.step fmt buf = .ok s' ∧ Rendered buf s s' out n i
      ∧ FormatAt s.mem fmt L i rest
      ∧ Supplied s.mem buf (s.ap + BitVec.ofNat 32 (4 * n)) ds args'
      ∧ render (d :: ds) args = out ++ render ds args' := by
  rw [Printf.step]
  cases d with
  | text ch =>
      obtain ⟨hch, -, hrest⟩ := hat.next
      simp only [hch]
      rw [if_neg hwf]
      cases hsup with
      | text _ hsup =>
          refine ⟨_, [ch], 0, s.index + 1, args, rfl,
            ⟨?_, fun _ _ => rfl, (BitVec.add_zero _).symm, rfl⟩, hrest, ?_, rfl⟩
          · rw [Printf.text, List.flatMap_append, putAt]
            split
            · rfl
            · rfl
          · rwa [Nat.mul_zero, BitVec.add_zero]
  | conv o ch =>
      obtain ⟨hch, -, hrest⟩ := hat.next
      have happ : (o.bytes ++ [ch]).append rest = o.bytes ++ ch :: rest := List.append_assoc ..
      rw [happ] at hrest
      obtain ⟨i, hread, hat'⟩ := readConversion_directive hwf hrest
      simp only [hch, ↓reduceIte, hread, ok_bind]
      cases hsup with
      | unknown _ ht hsup =>
          obtain ⟨s', hs', hrendered⟩ := convert_unknown ht
          refine ⟨s', [], 0, i, args, hs', hrendered, hat', ?_, ?_⟩
          · rwa [Nat.mul_zero, BitVec.add_zero]
          · exact if_neg ht
      | @arg _ _ args _ _ a ht hw ha _ hstring hsup =>
          obtain ⟨s', hs', hrendered⟩ := convert_rendered hbuf ht hw ha hstring
          exact ⟨s', _, 1, i, args, hs', hrendered, hat', hsup, if_pos ht⟩

/-- What is left of a format shows what is left of its text. -/
theorem loop_renders (hbuf : buf ≠ 0) (hap : FormatApart buf fmt L) {ds : List Directive} :
    ∀ {fuel : Nat} {s : Printf} {args : List Arg}, (∀ d ∈ ds, d.Wf) →
    FormatAt s.mem fmt L s.index (ds.flatMap Directive.bytes) →
    Supplied s.mem buf s.ap ds args → (ds.flatMap Directive.bytes).length < fuel →
    ∃ s', s.loop fmt buf fuel = .ok s' ∧ KeepsOutside buf s.mem s'.mem
      ∧ s'.out.flatMap ConCall.chars = s.out.flatMap ConCall.chars ++ render ds args := by
  induction ds with
  | nil =>
      intro fuel s args _ hat hsup hf
      obtain ⟨k, rfl⟩ : ∃ k, fuel = k + 1 := ⟨fuel - 1, by omega⟩
      have hend : charAt s.mem fmt s.index = 0 := hat.head
      rw [Printf.loop, if_neg (not_not_intro hend)]
      exact ⟨s, rfl, fun _ _ => rfl, (List.append_nil _).symm⟩
  | cons d ds ih =>
      intro fuel s args hwf hat hsup hf
      obtain ⟨hd, hwf⟩ := List.forall_mem_cons.mp hwf
      obtain ⟨k, rfl⟩ : ∃ k, fuel = k + 1 := ⟨fuel - 1, by omega⟩
      rw [List.flatMap_cons] at hat hf
      obtain ⟨ch, t, hcons⟩ : ∃ ch t, d.bytes = ch :: t := by
        cases d with
        | text ch => exact ⟨ch, [], rfl⟩
        | conv o ch => exact ⟨0x25, _, rfl⟩
      have hne : charAt s.mem fmt s.index ≠ 0 := by
        rw [hcons] at hat
        obtain ⟨hch, hne, -⟩ := hat.next
        exact hch ▸ hne
      obtain ⟨s', out, n, i, args', hstep, hrendered, hat', hsup', hrender⟩ :=
        step_rendered hbuf hd hat hsup
      rw [← hrendered.index] at hat'
      rw [← hrendered.ap] at hsup'
      have hlen : (ds.flatMap Directive.bytes).length < k := by
        rw [List.length_append, hcons, List.length_cons] at hf
        omega
      obtain ⟨s'', hloop, hkeep, hout⟩ :=
        ih hwf (hat'.keep hap hrendered.mem) (hsup'.keep hrendered.mem) hlen
      rw [Printf.loop, if_pos hne, hstep, ok_bind]
      refine ⟨s'', hloop, hrendered.mem.trans hkeep, ?_⟩
      rw [hout, hrendered.out, hrender, List.append_assoc]

/-- A format that does not end inside a conversion is a list of directives,
and whatever arguments are supplied for them, what is printed is their text,
for `%o` the one that `cvtoct` makes. Memory changes in the buffer alone. -/
theorem printf_renders {x y f : Word} {autoflush : Bool} {format : List Byte}
    (hs : IsString m (load32 m f) format)
    (hap : Apart buf 12 (load32 m f) (format.length + 1)) (hbuf : buf ≠ 0)
    (hc : Complete format) :
    (∃ ds : List Directive, format = ds.flatMap Directive.bytes ∧ ∀ d ∈ ds, d.Wf)
      ∧ ∀ ds : List Directive, format = ds.flatMap Directive.bytes → (∀ d ∈ ds, d.Wf) →
        ∀ args, Supplied m buf (f + 4) ds args →
          ∃ m' out, cDoPrintf m x y f buf autoflush = .ok (m', out, autoflush)
            ∧ out.flatMap ConCall.chars = render ds args ∧ KeepsOutside buf m m' := by
  refine ⟨hc.directives (Nat.le_refl _), ?_⟩
  rintro ds rfl hwf args hsup
  obtain ⟨hat, hapart⟩ := printf_start (x := x) (y := y) hs hap
  obtain ⟨s', hloop, hkeep, hout⟩ := loop_renders hbuf hapart hwf hat hsup hs.length_lt
  refine ⟨s'.mem, s'.out, ?_, hout, hkeep⟩
  rw [cDoPrintf, hloop]
  rfl

/-- `%-3c!` with an `A` -/
theorem printf_renders_left : ∃ m' out,
    cDoPrintf (store 4 (formatMem [0x25, 0x2D, 0x33, 0x63, 0x21]) 0x1004 (0x41 : Word))
        0 0 0x1000 0x3000 false = .ok (m', out, false)
      ∧ out.flatMap ConCall.chars = [0x41, 0x20, 0x20, 0x21] := by
  have hf : load32 (store 4 (formatMem [0x25, 0x2D, 0x33, 0x63, 0x21]) 0x1004 (0x41 : Word)) 0x1000
      = 0x2000 := by decide
  have hs : IsString (store 4 (formatMem [0x25, 0x2D, 0x33, 0x63, 0x21]) 0x1004 (0x41 : Word))
      0x2000 [0x25, 0x2D, 0x33, 0x63, 0x21] := by decide
  have hap : Apart 0x3000 12 (0x2000 : Word) 6 := by
    unfold Apart
    decide
  have hsup : Supplied (store 4 (formatMem [0x25, 0x2D, 0x33, 0x63, 0x21]) 0x1004 (0x41 : Word))
      0x3000 (0x1000 + 4) [.conv ⟨true, false, [0x33]⟩ 0x63, .text 0x21] [⟨0x41, []⟩] :=
    .arg (.inl rfl) (by decide) (by decide) (by decide) nofun (.text _ (.nil _))
  have hwf : ∀ d ∈ [.conv ⟨true, false, [0x33]⟩ 0x63, .text 0x21], Directive.Wf d := by
    refine List.forall_mem_cons.mpr ⟨⟨by decide, by decide, by decide, nofun⟩, ?_⟩
    exact List.forall_mem_singleton.mpr (by decide : (0x21 : Byte) ≠ 0x25)
  obtain ⟨m', out, hr, hout, -⟩ :=
    (printf_renders (hf.symm ▸ hs) (hf.symm ▸ hap) (by decide) (by decide)).2 _ rfl hwf _ hsup
  exact ⟨m', out, hr, hout⟩

end SpKernel
