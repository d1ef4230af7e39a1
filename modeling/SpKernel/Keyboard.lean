import SpKernel.Lib.Outcome
import SpKernel.Lib.Ring
import SpKernel.Console

/-!
# Lines from the keyboard

`c_gets` as a function of the characters it will be given: those in the
input buffer, and those the keys to come stand for. Whether it returns,
what it stores and how much it counts are then questions about a list of
characters (`cGetsLoop_eq`, over `cLine`).

`buffered` reads the waiting characters off the circular buffer, and
`typed` appends to them what the keys to come will make (`keyChars`). The
invariant is only that the two positions are in the buffer
(`Console.Ok`); a key that finds room goes to the end of the list
(`insert`), one that finds none leaves it alone (`full_iff`), and
`c_getchar` returns the first of all characters, waiting or still to be
typed (`cGetchar_eq`).

The call waits for ever exactly if the characters run out before the line
ends (`cLine_eq_none`).
-/

namespace SpKernel

open Function (update update_self update_of_ne)
open Lib

/-- The positions are inside the buffer. -/
structure Console.Ok (c : Console) : Prop where
  char : c.nextChar < cBufsize
  space : c.nextSpace < cBufsize

/-- The characters in the buffer, oldest first. -/
def buffered (c : Console) : List Byte :=
  ring cBufsize c.inputBuffer c.nextChar (cInputQueue c)

/-- The characters that keys stand for. -/
def keyChars : Bool → Byte → List Byte → List Byte
  | _, _, [] => []
  | shift, mask, code :: keys =>
      if code = 0x2A ∨ code = 0x36 then keyChars true mask keys
      else if code = 0xAA ∨ code = 0xB6 then keyChars false mask keys
      else if code = 0x1D then keyChars shift 0x1F keys
      else if code = 0x9D then keyChars shift 0xFF keys
      else if code &&& 0x80 = 0 then (scanCode shift code &&& mask) :: keyChars shift mask keys
      else keyChars shift mask keys

/-- The characters that `c_getchar` will return, if it is called often
enough. -/
def typed (c : Console) (keys : List Byte) : List Byte :=
  buffered c ++ keyChars c.shift c.ctrlMask keys

/-- The line that `c_gets` makes of them: up to a newline, an end of
transmission or the end of its buffer. -/
def cLine : Nat → List Byte → Option (List Byte)
  | size + 2, ch :: chars =>
      if ch = eot then some []
      else if ch = 10 then some [10]
      else (cLine (size + 1) chars).map (ch :: ·)
  | _ + 2, [] => none
  | _, _ => some []

variable {c : Console}

theorem cIncrement_eq {p : Nat} (h : p < cBufsize) : cIncrement p = (p + 1) % cBufsize := by
  rw [cIncrement]
  split
  · rw [show p + 1 = cBufsize by omega, Nat.mod_self]
  · rw [Nat.mod_eq_of_lt (by omega)]

theorem cIncrement_lt {p : Nat} (h : p < cBufsize) : cIncrement p < cBufsize := by
  rw [cIncrement_eq h]
  exact Nat.mod_lt _ (by decide)

namespace Console.Ok

theorem queue_zero (h : c.Ok) : cInputQueue c = 0 ↔ c.nextChar = c.nextSpace := by
  have h1 := h.char
  have h2 := h.space
  rw [cInputQueue]
  split
  · omega
  · omega

/-- `__c_next_space` is as many cells after `__c_next_char` as there are
characters. -/
theorem space_eq (h : c.Ok) : c.nextSpace = (c.nextChar + cInputQueue c) % cBufsize := by
  have h1 := h.char
  have h2 := h.space
  simp only [cBufsize] at h1 h2 ⊢
  unfold cInputQueue
  split
  · simp only [cBufsize]
    omega
  · omega

theorem queue_lt (h : c.Ok) : cInputQueue c < cBufsize := by
  have h1 := h.char
  have h2 := h.space
  unfold cInputQueue
  split
  · omega
  · omega

theorem queue_eq (h : c.Ok) {n : Nat} (hn : n < cBufsize)
    (hspace : c.nextSpace = (c.nextChar + n) % cBufsize) : cInputQueue c = n := by
  have h1 := h.char
  have heq := h.space_eq
  have hlt := h.queue_lt
  simp only [cBufsize] at h1 heq hlt hn hspace
  omega

/-- The buffer is full when the next space would be the next character. -/
theorem full_iff (h : c.Ok) :
    cIncrement c.nextSpace = c.nextChar ↔ cInputQueue c = cBufsize - 1 := by
  have h1 := h.char
  have heq := h.space_eq
  have hlt := h.queue_lt
  rw [cIncrement_eq h.space]
  simp only [cBufsize] at h1 heq hlt ⊢
  omega

/-- A character that finds room goes to the end of the queue. -/
theorem insert (h : c.Ok) (hroom : cInputQueue c ≠ cBufsize - 1) (ch : Byte) :
    buffered { c with
        inputBuffer := update c.inputBuffer c.nextSpace ch
        nextSpace := cIncrement c.nextSpace } = buffered c ++ [ch] := by
  have hlt := h.queue_lt
  have heq := h.space_eq
  have hok : Console.Ok { c with
      inputBuffer := update c.inputBuffer c.nextSpace ch
      nextSpace := cIncrement c.nextSpace } := ⟨h.char, cIncrement_lt h.space⟩
  have hcount := hok.queue_eq (n := cInputQueue c + 1) (by omega) (by
    show cIncrement c.nextSpace = (c.nextChar + (cInputQueue c + 1)) % cBufsize
    rw [cIncrement_eq h.space, heq, Nat.mod_add_mod, Nat.add_assoc])
  unfold buffered
  rw [hcount]
  simp only
  rw [heq]
  exact ring_push hlt ch

theorem press (h : c.Ok) (code : Byte) : (cInputScanCode c code).Ok := by
  have h1 := h.char
  have h2 := h.space
  have h3 := cIncrement_lt h2
  simp only [cInputScanCode]
  repeat' split
  all_goals first | exact ⟨h1, h2⟩ | exact ⟨h1, h3⟩

end Console.Ok

/-! ## One character -/

theorem buffered_nil (he : c.nextChar = c.nextSpace) : buffered c = [] := by
  rw [buffered, cInputQueue, if_neg (by omega), he, Nat.sub_self, ring_zero]

theorem Console.Ok.cons (h : c.Ok) (hne : c.nextChar ≠ c.nextSpace) (keys : List Byte) :
    typed c keys = c.inputBuffer c.nextChar
        :: typed { c with nextChar := cIncrement c.nextChar } keys
      ∧ Console.Ok { c with nextChar := cIncrement c.nextChar } := by
  have h1 := h.char
  have hlt := h.queue_lt
  obtain ⟨n, hn⟩ := Nat.exists_eq_succ_of_ne_zero fun hz => hne (h.queue_zero.mp hz)
  have hok : Console.Ok { c with nextChar := cIncrement c.nextChar } :=
    ⟨cIncrement_lt h1, h.space⟩
  have hrest : cInputQueue { c with nextChar := cIncrement c.nextChar } = n := by
    refine hok.queue_eq (by omega) ?_
    show c.nextSpace = (cIncrement c.nextChar + n) % cBufsize
    rw [h.space_eq, hn, cIncrement_eq h1, Nat.mod_add_mod, Nat.add_right_comm, Nat.add_assoc]
  refine ⟨?_, hok⟩
  rw [typed, typed, buffered, buffered, hn, ring_pop, hrest, Nat.mod_eq_of_lt h1,
    ← cIncrement_eq h1]
  rfl

theorem Console.Ok.key (h : c.Ok) (he : c.nextChar = c.nextSpace) (code : Byte)
    (keys : List Byte) : typed (cInputScanCode c code) keys = typed c (code :: keys) := by
  have hsize : cBufsize = 200 := rfl
  have hzero := h.queue_zero.mpr he
  have hnil : ∀ shift mask, buffered { c with shift := shift, ctrlMask := mask } = [] :=
    fun shift mask => buffered_nil he
  have hc : buffered c = [] := buffered_nil he
  rw [typed, typed, hc, List.nil_append, keyChars, cInputScanCode]
  split
  · rw [hnil true c.ctrlMask, List.nil_append]
  split
  · rw [hnil false c.ctrlMask, List.nil_append]
  split
  · rw [hnil c.shift 0x1F, List.nil_append]
  split
  · rw [hnil c.shift 0xFF, List.nil_append]
  split
  · have hroom : cInputQueue c ≠ cBufsize - 1 := by omega
    rw [if_pos (mt h.full_iff.mp hroom)]
    have hone := h.insert hroom (scanCode c.shift code &&& c.ctrlMask)
    rw [hc, List.nil_append] at hone
    rw [hone]
    rfl
  · rw [hc, List.nil_append]

/-- `c_getchar` returns the first character typed, and leaves the rest. -/
theorem cGetchar_eq (keys : List Byte) : ∀ {c : Console}, c.Ok →
    (typed c keys = [] ∧ cGetchar c keys = .error .diverge)
    ∨ ∃ ch c' keys', cGetchar c keys = .ok (ch, c', keys') ∧ c'.Ok
      ∧ typed c keys = ch :: typed c' keys' := by
  induction keys with
  | nil =>
      intro c h
      by_cases hne : c.nextChar ≠ c.nextSpace
      · obtain ⟨hcons, hok⟩ := h.cons hne []
        refine .inr ⟨_, _, _, ?_, hok, hcons⟩
        rw [cGetchar, pollKeys, if_pos hne]
        rfl
      · refine .inl ⟨?_, ?_⟩
        · rw [typed, buffered_nil (not_not.mp hne)]
          rfl
        · rw [cGetchar, pollKeys, if_neg hne]
          rfl
  | cons code keys ih =>
      intro c h
      by_cases hne : c.nextChar ≠ c.nextSpace
      · obtain ⟨hcons, hok⟩ := h.cons hne (code :: keys)
        refine .inr ⟨_, _, _, ?_, hok, hcons⟩
        rw [cGetchar, pollKeys, if_pos hne]
        rfl
      · rw [← h.key (not_not.mp hne), cGetchar, pollKeys, if_neg hne]
        exact ih (h.press code)

/-! ## A line -/

/-- `c_gets` waits for ever, or stores the line and a `'\0'`. -/
theorem cGetsLoop_eq : ∀ (size : Nat) {c : Console} (keys : List Byte) (m : Mem) (buffer : Word)
    (count : Nat), c.Ok →
    (cLine size (typed c keys) = none
      ∧ cGetsLoop size c keys m buffer count = .error .diverge)
    ∨ ∃ line c', cLine size (typed c keys) = some line ∧ c'.Ok
      ∧ cGetsLoop size c keys m buffer count
        = .ok (count + line.length, c', storeBytes m buffer (line ++ [0])) := by
  intro size
  induction size with
  | zero => exact fun keys m buffer count h => .inr ⟨[], _, rfl, h, rfl⟩
  | succ size ih =>
      intro c keys m buffer count h
      cases size with
      | zero => exact .inr ⟨[], c, rfl, h, rfl⟩
      | succ size =>
          rcases cGetchar_eq keys h with ⟨hnil, hget⟩ | ⟨ch, c₁, keys₁, hget, hok, hcons⟩
          · refine .inl ⟨by rw [hnil]; rfl, ?_⟩
            rw [cGetsLoop, hget]
            rfl
          · rw [hcons, cLine, cGetsLoop, hget, ok_bind]
            dsimp only
            split
            · exact .inr ⟨[], c₁, rfl, hok, rfl⟩
            · split
              · rename_i hlf
                exact .inr ⟨[10], c₁, rfl, hok, by rw [hlf]; rfl⟩
              · rcases ih keys₁ (store 1 m buffer ch) (buffer + 1) (count + 1) hok with
                  ⟨hnone, heq⟩ | ⟨line, c₂, hsome, hok₂, heq⟩
                · exact .inl ⟨by rw [hnone]; rfl, heq⟩
                · refine .inr ⟨ch :: line, c₂, by rw [hsome]; rfl, hok₂, ?_⟩
                  rw [heq, List.length_cons, List.cons_append, storeBytes, Nat.add_assoc,
                    Nat.add_comm 1]
                  rfl

/-- The loop of `c_gets` ends when it has a newline, an end of
transmission or a full buffer. -/
theorem cLine_eq_none : ∀ (size : Nat) (chars : List Byte), cLine size chars = none
    ↔ chars.length + 1 < size ∧ eot ∉ chars ∧ 10 ∉ chars := by
  intro size
  induction size with
  | zero => exact fun chars => iff_of_false (fun h => by cases h) fun h => by omega
  | succ size ih =>
      intro chars
      cases size with
      | zero => exact iff_of_false (fun h => by cases h) fun h => by omega
      | succ size =>
          cases chars with
          | nil => exact iff_of_true rfl ⟨by simp, List.not_mem_nil, List.not_mem_nil⟩
          | cons ch chars =>
              rw [cLine]
              split
              · rename_i he
                exact iff_of_false (fun h => by cases h) fun h => h.2.1 (he ▸ List.mem_cons_self)
              · split
                · rename_i he
                  exact iff_of_false (fun h => by cases h)
                    fun h => h.2.2 (he ▸ List.mem_cons_self)
                · rename_i h1 h2
                  rw [Option.map_eq_none_iff, ih, List.length_cons, List.mem_cons, List.mem_cons]
                  have h1' : eot ≠ ch := Ne.symm h1
                  have h2' : 10 ≠ ch := Ne.symm h2
                  simp only [h1', h2', false_or]
                  refine and_congr_left fun _ => ?_
                  omega

/-- Nothing is read when there is no room for it, or the transmission
ends first. -/
theorem cLine_eq_nil {size : Nat} {ch : Byte} {chars : List Byte} :
    cLine size (ch :: chars) = some [] ↔ size ≤ 1 ∨ ch = eot := by
  match size with
  | 0 => exact iff_of_true rfl (.inl (Nat.zero_le 1))
  | 1 => exact iff_of_true rfl (.inl (Nat.le_refl 1))
  | size + 2 =>
      rw [cLine]
      split
      · rename_i he
        exact iff_of_true rfl (.inr he)
      · rename_i he
        refine iff_of_false ?_ fun hc => hc.elim (fun h => by omega) he
        split
        · exact fun hc => by cases hc
        · rw [Option.map_eq_some_iff]
          rintro ⟨_, -, hc⟩
          cases hc

end SpKernel
