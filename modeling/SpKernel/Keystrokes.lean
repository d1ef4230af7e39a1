import SpKernel.Keyboard

/-!
# The keyboard buffer is a bounded queue

What `__c_input_scan_code` stores, `c_getchar` returns, in that order.
One cell of the buffer stays free to tell full from empty, so there is
room for 199 characters, and a character is lost only when that many are
waiting: `keyboard_fifo`.

`Keystrokes` is the console with two records that no function reads, the
characters stored and the characters returned, and a run is any sequence
of scan codes and calls of `c_getchar`. `Keystrokes.Fifo` is the
invariant: what was stored is what was returned followed by what is in
the buffer. A scan code keeps it by what it accepts
(`Console.Ok.accepted_eq`), which is a function of the console and the
code, and a call by taking the oldest character
(`Console.Ok.take_oldest`), so that no step looks at the positions in the
buffer.
-/

namespace SpKernel

open Function (update update_self update_of_ne)
open Lib

/-- The console, with the characters stored and returned so far. -/
structure Keystrokes where
  console : Console
  stored : List Byte
  returned : List Byte

inductive KeyOp where
  | key (code : Byte)
  | getchar

/-- What a scan code leaves in the buffer: the byte written at
`__c_next_space`, if that has moved on. -/
def accepted (c : Console) (code : Byte) : List Byte :=
  let c' := cInputScanCode c code
  if c'.nextSpace = c.nextSpace then [] else [c'.inputBuffer c.nextSpace]

/-- `c_getchar` is called on a buffer that is not empty. -/
def keyStep (s : Keystrokes) : KeyOp → Except Fault Keystrokes
  | .key code =>
      .ok { s with
        console := cInputScanCode s.console code
        stored := s.stored ++ accepted s.console code }
  | .getchar => do
      let (ch, c, _) ← cGetchar s.console []
      .ok { s with console := c, returned := s.returned ++ [ch] }

variable {c : Console}

/-! ## One scan code -/

theorem cInputQueue_length : (buffered c).length = cInputQueue c :=
  ring_length

/-- A scan code for a character stores it, or drops it when 199 are
waiting; the other scan codes store nothing. -/
theorem Console.Ok.accepted_eq (h : c.Ok) (code : Byte) :
    accepted c code
        = (if cInputQueue c = cBufsize - 1 then [] else keyChars c.shift c.ctrlMask [code])
      ∧ buffered (cInputScanCode c code) = buffered c ++ accepted c code := by
  have hsame : ∀ shift mask,
      buffered { c with shift := shift, ctrlMask := mask } = buffered c ++ [] := fun shift mask =>
    (List.append_nil _).symm
  have hmoved : cIncrement c.nextSpace ≠ c.nextSpace := by
    intro he
    have h2 := h.space
    unfold cIncrement at he
    simp only [cBufsize] at h2 he
    split at he
    · omega
    · omega
  unfold accepted cInputScanCode keyChars
  split
  · exact ⟨by simp [keyChars], by simpa using hsame true c.ctrlMask⟩
  split
  · exact ⟨by simp [keyChars], by simpa using hsame false c.ctrlMask⟩
  split
  · exact ⟨by simp [keyChars], by simpa using hsame c.shift 0x1F⟩
  split
  · exact ⟨by simp [keyChars], by simpa using hsame c.shift 0xFF⟩
  split
  · simp only [ne_eq, h.full_iff, keyChars]
    by_cases hfull : cInputQueue c = cBufsize - 1
    · simp [hfull]
    · simp only [hfull, not_false_eq_true, if_true, if_false, hmoved, update_self, true_and]
      exact h.insert hfull _
  · exact ⟨by simp [keyChars], by simp⟩

/-! ## Runs -/

/-- What has been returned and what is waiting is what was stored. -/
structure Keystrokes.Fifo (s : Keystrokes) : Prop where
  inside : s.console.Ok
  order : s.stored = s.returned ++ buffered s.console

theorem Keystrokes.Fifo.start : Keystrokes.Fifo ⟨Console.zero, [], []⟩ :=
  ⟨⟨Nat.zero_lt_succ _, Nat.zero_lt_succ _⟩, rfl⟩

theorem cGetchar_queued (hne : c.nextChar ≠ c.nextSpace) (keys : List Byte) :
    cGetchar c keys
      = .ok (c.inputBuffer c.nextChar, { c with nextChar := cIncrement c.nextChar }, keys) := by
  cases keys with
  | nil =>
      rw [cGetchar, pollKeys, if_pos hne]
      rfl
  | cons code keys =>
      rw [cGetchar, pollKeys, if_pos hne]
      rfl

theorem Console.Ok.take_oldest (h : c.Ok) (hne : c.nextChar ≠ c.nextSpace) :
    Console.Ok { c with nextChar := cIncrement c.nextChar }
      ∧ buffered c
        = c.inputBuffer c.nextChar :: buffered { c with nextChar := cIncrement c.nextChar } := by
  obtain ⟨hcons, hok⟩ := h.cons hne []
  have hnil : ∀ c : Console, typed c [] = buffered c := fun c => List.append_nil _
  rw [hnil, hnil] at hcons
  exact ⟨hok, hcons⟩

theorem Keystrokes.Fifo.step {s s' : Keystrokes} {op : KeyOp} (h : s.Fifo)
    (hst : keyStep s op = .ok s') : s'.Fifo := by
  cases op with
  | key code =>
      obtain rfl := Except.ok.inj hst
      refine ⟨h.inside.press code, ?_⟩
      simp only [(h.inside.accepted_eq code).2]
      rw [h.order, List.append_assoc]
  | getchar =>
      by_cases hne : s.console.nextChar ≠ s.console.nextSpace
      · obtain ⟨hok, hcons⟩ := h.inside.take_oldest hne
        rw [keyStep, cGetchar_queued hne] at hst
        obtain rfl := Except.ok.inj hst
        refine ⟨hok, ?_⟩
        have horder := h.order
        rw [hcons] at horder
        simpa using horder
      · rw [keyStep, cGetchar, pollKeys, if_neg hne] at hst
        cases hst

/-- Keyboard input is a queue of 199 characters: in every run the
characters returned are the first of those stored, `c_getchar` returns the
next one, the count of those waiting is right, both pointers are inside
the buffer, and a character is dropped exactly when 199 are waiting. -/
theorem keyboard_fifo {tr : List (Keystrokes × KeyOp)} {s : Keystrokes}
    (hrun : Steps keyStep ⟨Console.zero, [], []⟩ tr s) :
    s.console.nextChar < cBufsize ∧ s.console.nextSpace < cBufsize
    ∧ s.returned <+: s.stored
    ∧ cInputQueue s.console = s.stored.length - s.returned.length
    ∧ (∀ code ch, keyChars s.console.shift s.console.ctrlMask [code] = [ch] →
      accepted s.console code
        = if s.stored.length - s.returned.length = 199 then [] else [ch])
    ∧ (∀ code, keyChars s.console.shift s.console.ctrlMask [code] = [] →
      accepted s.console code = [])
    ∧ ∀ keys, 0 < cInputQueue s.console → ∃ ch c', cGetchar s.console keys = .ok (ch, c', keys)
      ∧ s.stored[s.returned.length]? = some ch := by
  have h : s.Fifo := hrun.inv (fun _ _ _ h hst => h.step hst) .start
  have hcount : cInputQueue s.console = s.stored.length - s.returned.length := by
    rw [h.order, List.length_append, Nat.add_sub_cancel_left, cInputQueue_length]
  refine ⟨h.inside.char, h.inside.space, ⟨_, h.order.symm⟩, hcount, fun code ch hch => ?_,
    fun code hch => ?_, fun keys hpos => ?_⟩
  · rw [(h.inside.accepted_eq code).1, hch, hcount, show cBufsize - 1 = 199 from rfl]
  · rw [(h.inside.accepted_eq code).1, hch, ite_self]
  · have hne : s.console.nextChar ≠ s.console.nextSpace := fun he =>
      absurd (h.inside.queue_zero.mpr he) (by omega)
    refine ⟨_, _, cGetchar_queued hne keys, ?_⟩
    rw [h.order, (h.inside.take_oldest hne).2]
    simp

/-- Two keys and one character returned. -/
theorem keyboard_fifo_two : ∃ tr s, Steps keyStep ⟨Console.zero, [], []⟩ tr s
    ∧ s.returned = [97] ∧ s.stored = [97, 98] ∧ cInputQueue s.console = 1 := by
  have hrun : okAnd (run keyStep ⟨Console.zero, [], []⟩ [.key 0x1E, .key 0x30, .getchar])
      (fun s => decide (s.returned = [97] ∧ s.stored = [97, 98])) = true := by
    decide +kernel
  obtain ⟨s, hs, ht⟩ := of_okAnd hrun
  obtain ⟨hret, hstored⟩ := of_decide_eq_true ht
  obtain ⟨tr, hrun, -⟩ := steps_of_run hs
  refine ⟨tr, s, hrun, hret, hstored, ?_⟩
  rw [(keyboard_fifo hrun).2.2.2.1, hret, hstored]
  rfl

end SpKernel
