import SpKernel.Keystrokes
import SpKernel.Lib.Trace

/-!
# What a key stands for

`Translator` is the machine `__c_input_scan_code` is meant to be: it
follows the shift and control keys, takes no notice of releases and of
keys the table has no character for, and gives the others their
character. The code compares the (unsigned) entry of the table with the
(signed) character constant `'\377'`, finds that they differ, and stores
the mark itself: every press of a key without a character is one
character too many (`key_translation_iff`).

`Tracks` says that the console and the translator agree on the keys that
are held down. A scan code keeps it, whatever key it is of
(`Tracks.press`), so the two can be compared code by code: `Tracks.chars`
has the characters of one code, the mark for a key without one and the
same character for any other. Whether a key has a character does not
depend on shift (`scanCode_undefined`), and this makes the condition one
on the scan codes alone (`Undefined`).

A run may read characters in between, as long as every scan code finds
room (`FindsRoom`); what is compared is the list of all characters that
were stored.
-/

namespace SpKernel

open Lib

/-! ## Definitions -/

/-- The state of the keys, and the characters so far. -/
structure Translator where
  shift : Bool
  control : Bool
  chars : List Byte
deriving Repr, DecidableEq

/-- Shift and control are released. -/
def Translator.released : Translator := ⟨false, false, []⟩

/-- `'\377'` in the table. -/
abbrev undefinedCode : Byte := 0xFF

/-- What a scan code is to do. -/
def Translator.press (t : Translator) (code : Byte) : Translator :=
  if code = 0x2A ∨ code = 0x36 then { t with shift := true }
  else if code = 0xAA ∨ code = 0xB6 then { t with shift := false }
  else if code = 0x1D then { t with control := true }
  else if code = 0x9D then { t with control := false }
  else if code &&& 0x80 = 0 ∧ scanCode t.shift code ≠ undefinedCode then
    let char := scanCode t.shift code
    { t with chars := t.chars ++ [if t.control then char &&& 0x1F else char] }
  else t

/-- The press of a key that is neither a shift nor a control key, and has no
character. -/
def Undefined (code : Byte) : Prop :=
  code ∉ ([0x2A, 0x36, 0x1D] : List Byte) ∧ code &&& 0x80 = 0
    ∧ scanCode false code = undefinedCode

instance (code : Byte) : Decidable (Undefined code) :=
  inferInstanceAs (Decidable (_ ∧ _ ∧ _))

/-- The scan codes of a run. -/
def codesOf (tr : List (Keystrokes × KeyOp)) : List Byte :=
  tr.filterMap fun x => match x.2 with
    | .key code => some code
    | .getchar => none

/-- A scan code finds room in the buffer. -/
def FindsRoom (s : Keystrokes) : KeyOp → Prop
  | .key _ => cInputQueue s.console ≠ cBufsize - 1
  | .getchar => True

/-- `ctrl_mask` -/
def controlMask (control : Bool) : Byte := if control then 0x1F else 0xFF

/-- The keys of the console are in the state the translator has them in. -/
structure Tracks (c : Console) (t : Translator) : Prop where
  shift : c.shift = t.shift
  mask : c.ctrlMask = controlMask t.control

variable {c : Console} {s : Keystrokes} {t : Translator}

/-! ## One scan code -/

/-- Shift makes no difference to whether a key has a character. -/
theorem scanCode_undefined (shift : Bool) (code : Byte) :
    scanCode shift code = undefinedCode ↔ scanCode false code = undefinedCode := by
  have htable : ∀ k < 84, BitVec.ofNat 8 ((scanCodes true).getD k 0xFF) = undefinedCode
      ↔ BitVec.ofNat 8 ((scanCodes false).getD k 0xFF) = undefinedCode := by
    decide +kernel
  have hend : ∀ shift, (scanCodes shift).length = 84 := by decide
  cases shift with
  | false => exact Iff.rfl
  | true =>
      by_cases hk : code.toNat < 84
      · exact htable code.toNat hk
      · have hout : ∀ shift, scanCode shift code = undefinedCode := by
          intro shift
          rw [scanCode, List.getD_eq_default _ _ (by rw [hend]; omega)]
          rfl
        exact iff_of_true (hout true) (hout false)

theorem masked (control : Bool) (char : Byte) :
    char &&& controlMask control = if control then char &&& 0x1F else char := by
  cases control with
  | true => rfl
  | false => exact BitVec.and_allOnes

/-- What a scan code does to the shift and control keys. -/
theorem Tracks.press (h : Tracks c t) (code : Byte) :
    Tracks (cInputScanCode c code) (t.press code) := by
  obtain ⟨hs, hm⟩ := h
  simp only [cInputScanCode, Translator.press]
  split
  · exact ⟨rfl, hm⟩
  split
  · exact ⟨rfl, hm⟩
  split
  · exact ⟨hs, rfl⟩
  split
  · exact ⟨hs, rfl⟩
  repeat' split
  all_goals exact ⟨hs, hm⟩

/-- A key without a character is stored, and any other translated. -/
theorem Tracks.chars (h : Tracks c t) (code : Byte) :
    (Undefined code → (t.press code).chars = t.chars
      ∧ (keyChars c.shift c.ctrlMask [code]).length = 1)
    ∧ (¬Undefined code →
      (t.press code).chars = t.chars ++ keyChars c.shift c.ctrlMask [code]) := by
  obtain ⟨hs, hm⟩ := h
  rw [Undefined, ← scanCode_undefined t.shift]
  simp only [Translator.press, keyChars, hs, hm, masked]
  split
  · next hc =>
      rcases hc with rfl | rfl
      · simp
      · simp
  split
  · next hc =>
      rcases hc with rfl | rfl
      · simp
      · simp
  split
  · next hc => simp [hc]
  split
  · next hc => simp [hc]
  next h1 h2 h3 h4 =>
  have hplain : code ∉ ([0x2A, 0x36, 0x1D] : List Byte) := by
    rw [not_or] at h1
    simp only [List.mem_cons, List.not_mem_nil, or_false, not_or]
    exact ⟨h1.1, h1.2, h3⟩
  by_cases hpress : code &&& 0x80 = 0
  · by_cases hu : scanCode t.shift code = undefinedCode
    · rw [if_neg fun hc => hc.2 hu, if_pos hpress]
      exact ⟨fun _ => ⟨rfl, rfl⟩, fun hd => absurd ⟨hplain, hpress, hu⟩ hd⟩
    · rw [if_pos ⟨hpress, hu⟩, if_pos hpress]
      exact ⟨fun hd => absurd hd.2.2 hu, fun _ => rfl⟩
  · rw [if_neg fun hc => hpress hc.1, if_neg hpress, List.append_nil]
    exact ⟨fun hd => absurd hd.2.1 hpress, fun _ => rfl⟩

/-! ## Runs -/

theorem codesOf_key (tr : List (Keystrokes × KeyOp)) (s : Keystrokes) (code : Byte) :
    codesOf (tr ++ [(s, .key code)]) = codesOf tr ++ [code] := by
  rw [codesOf, List.filterMap_append]
  rfl

theorem codesOf_getchar (tr : List (Keystrokes × KeyOp)) (s : Keystrokes) :
    codesOf (tr ++ [(s, .getchar)]) = codesOf tr := by
  rw [codesOf, List.filterMap_append]
  exact List.append_nil _

/-- The characters that a sequence of scan codes is to store. -/
def translated (codes : List Byte) : Translator := codes.foldl Translator.press .released

theorem translated_append (codes : List Byte) (code : Byte) :
    translated (codes ++ [code]) = (translated codes).press code := by
  rw [translated, List.foldl_append]
  rfl

/-- The characters stored are those translated, and one for each key without
a character. -/
structure Translating (s : Keystrokes) (codes : List Byte) : Prop where
  inside : s.console.Ok
  tracks : Tracks s.console (translated codes)
  same : (∀ code ∈ codes, ¬Undefined code) → s.stored = (translated codes).chars
  count : s.stored.length = (translated codes).chars.length + codes.countP (decide <| Undefined ·)

theorem Translating.key {code : Byte} {codes : List Byte} {s' : Keystrokes}
    (h : Translating s codes) (hroom : FindsRoom s (.key code))
    (hst : keyStep s (.key code) = .ok s') : Translating s' (codes ++ [code]) := by
  obtain rfl := Except.ok.inj hst
  have hacc := (h.inside.accepted_eq code).1
  rw [if_neg hroom] at hacc
  obtain ⟨hundef, hdef⟩ := h.tracks.chars code
  refine ⟨h.inside.press code, ?_, fun hall => ?_, ?_⟩
  · rw [translated_append]
    exact h.tracks.press code
  · rw [List.forall_mem_append, List.forall_mem_singleton] at hall
    rw [translated_append, hdef hall.2, hacc, h.same hall.1]
  · rw [translated_append, List.length_append, hacc, h.count, List.countP_append,
      List.countP_singleton]
    by_cases hu : Undefined code
    · rw [(hundef hu).1, (hundef hu).2, if_pos (decide_eq_true hu)]
      exact Nat.add_assoc ..
    · rw [hdef hu, if_neg (by simpa using hu), List.length_append, Nat.add_zero]
      exact Nat.add_right_comm ..

theorem Translating.getchar {codes : List Byte} {s' : Keystrokes} (h : Translating s codes)
    (hst : keyStep s .getchar = .ok s') : Translating s' codes := by
  by_cases hne : s.console.nextChar ≠ s.console.nextSpace
  · have hok := (h.inside.take_oldest hne).1
    rw [keyStep, cGetchar_queued hne] at hst
    obtain rfl := Except.ok.inj hst
    exact ⟨hok, ⟨h.tracks.shift, h.tracks.mask⟩, h.same, h.count⟩
  · rw [keyStep, cGetchar, pollKeys, if_neg hne] at hst
    cases hst

theorem translating_run {tr : List (Keystrokes × KeyOp)} (hc : c.Ok) (hs : c.shift = false)
    (hm : c.ctrlMask = 0xFF) (hrun : Steps keyStep ⟨c, [], []⟩ tr s)
    (hroom : ∀ x ∈ tr, FindsRoom x.1 x.2) : Translating s (codesOf tr) := by
  induction hrun with
  | refl => exact ⟨hc, ⟨hs, hm⟩, fun _ => rfl, rfl⟩
  | @tail tr t t' op _ hst ih =>
      rw [List.forall_mem_append, List.forall_mem_singleton] at hroom
      cases op with
      | key code =>
          rw [codesOf_key]
          exact (ih hroom.1).key hroom.2 hst
      | getchar =>
          rw [codesOf_getchar]
          exact (ih hroom.1).getchar hst

/-- Whatever is typed and read, as long as there is room, the characters
stored are those of the translator exactly if no key without a character is
pressed. -/
theorem key_translation_iff {tr : List (Keystrokes × KeyOp)} (hc : c.Ok) (hs : c.shift = false)
    (hm : c.ctrlMask = 0xFF) (hrun : Steps keyStep ⟨c, [], []⟩ tr s)
    (hroom : ∀ x ∈ tr, FindsRoom x.1 x.2) :
    s.stored = (translated (codesOf tr)).chars ↔ ∀ code ∈ codesOf tr, ¬Undefined code := by
  have h := translating_run hc hs hm hrun hroom
  refine ⟨fun he => ?_, h.same⟩
  have hcount := h.count
  rw [he, Nat.left_eq_add, List.countP_eq_zero] at hcount
  exact fun code hcode hu => hcount code hcode (decide_eq_true hu)

/-- The state at the start of the system. -/
def unpressed : Keystrokes := ⟨Console.zero, [], []⟩

theorem first_key (code : Byte) :
    Steps keyStep unpressed [(unpressed, .key code)]
        { unpressed with
          console := cInputScanCode Console.zero code
          stored := [] ++ accepted Console.zero code }
      ∧ ∀ x ∈ [(unpressed, KeyOp.key code)], FindsRoom x.1 x.2 := by
  refine ⟨Steps.refl.tail rfl, ?_⟩
  rw [List.forall_mem_singleton]
  show cInputQueue Console.zero ≠ _
  decide

theorem Console.zero_ok : Console.zero.Ok := ⟨Nat.zero_lt_succ _, Nat.zero_lt_succ _⟩

/-- Shift is pressed, `a` is pressed and read, shift is let go and `a` pressed
again. -/
theorem key_translation_shift : ∃ tr s, Steps keyStep unpressed tr s
    ∧ tr.map Prod.snd = [.key 0x2A, .key 0x1E, .getchar, .key 0xAA, .key 0x1E]
    ∧ s.stored = [0x41, 0x61] := by
  have ht : checkedRun keyStep (fun s _ => decide (cInputQueue s.console ≠ cBufsize - 1))
      (fun _ => true) [.key 0x2A, .key 0x1E, .getchar, .key 0xAA, .key 0x1E] unpressed = true := by
    decide +kernel
  obtain ⟨tr, s, hrun, hes, hcheck, -⟩ := steps_of_checked ht
  have hroom : ∀ x ∈ tr, FindsRoom x.1 x.2 := by
    rintro ⟨t, op⟩ hx
    cases op with
    | key code =>
        have hspace := of_decide_eq_true (hcheck _ hx)
        exact hspace
    | getchar => trivial
  have hcodes : codesOf tr = [0x2A, 0x1E, 0xAA, 0x1E] := by
    simp only [List.map_eq_cons_iff, List.map_eq_nil_iff] at hes
    obtain ⟨⟨s₁, op₁⟩, tr₁, rfl, rfl, ⟨s₂, op₂⟩, tr₂, rfl, rfl, ⟨s₃, op₃⟩, tr₃, rfl, rfl,
      ⟨s₄, op₄⟩, tr₄, rfl, rfl, ⟨s₅, op₅⟩, tr₅, rfl, rfl, rfl⟩ := hes
    rfl
  have hdefined : ∀ code ∈ codesOf tr, ¬Undefined code := by
    rw [hcodes]
    decide
  refine ⟨tr, s, hrun, hes, ?_⟩
  rw [(key_translation_iff Console.zero_ok rfl rfl hrun hroom).mpr hdefined, hcodes]
  decide

/-- The function keys store the mark. -/
theorem key_translation_function_key : ∃ tr s, Steps keyStep unpressed tr s
    ∧ (∀ x ∈ tr, FindsRoom x.1 x.2) ∧ codesOf tr = [0x3B]
    ∧ s.stored ≠ (translated (codesOf tr)).chars := by
  obtain ⟨hrun, hroom⟩ := first_key 0x3B
  refine ⟨_, _, hrun, hroom, rfl, ?_⟩
  show [] ++ accepted Console.zero 0x3B ≠ (translated [0x3B]).chars
  decide

end SpKernel
