import Mathlib

/-!
# A serial memory

A memory of 16-bit words behind three wires. While it is selected it
takes one bit with every rising edge of the clock: it waits for a one,
the start bit, and takes two more bits for the command and then the
address, the highest bit first. When a command to read has come in it
puts out a zero, and with every further edge one bit of the word, the
highest first. Its output floats, and is read as a one, for as long as it
is not driven.

What the memory has taken since it was selected says what it puts out
(`SerialMemory.out`), so its state is a list of bits and there is no
machine to step through. While the command is not complete the output
floats (`SerialMemory.out_floats`), and `SerialMemory.out_read` reads it
off for a command to read.

Addresses have any width. `bitsOf` and `valueOf` translate between a
number and its bits, and are inverse to each other (`valueOf_bitsOf`).
-/

namespace SpKernel.Lib

/-- `w` is the number of bits of an address. What is put out behind the last
bit of a word, or after another command, is `rest`. -/
structure SerialMemory (w : Nat) where
  words : Nat → BitVec 16
  rest : List Bool → Bool

namespace SerialMemory

/-- An edge of the clock: zeros before the start bit are not taken. -/
def shift (rx : List Bool) (di : Bool) : List Bool :=
  if rx = [] ∧ di = false then [] else rx ++ [di]

/-- The start bit and the command to read. -/
def readCommand : List Bool := [true, true, false]

/-- The bits of a number, the highest of the `n` first. -/
def bitsOf (n a : Nat) : List Bool := (List.range n).map fun j => a.testBit (n - 1 - j)

/-- The number with these bits. -/
def valueOf (bits : List Bool) : Nat := bits.foldl (fun n b => 2 * n + b.toNat) 0

variable {w : Nat}

/-- What is on the data line when the bits `rx` have been taken. -/
def out (m : SerialMemory w) (rx : List Bool) : Bool :=
  if rx.length < 3 + w then true
  else if rx.take 3 = readCommand then
    match rx.length - (3 + w) with
    | 0 => false
    | k + 1 =>
        if k < 16 then (m.words (valueOf ((rx.drop 3).take w))).getLsbD (15 - k) else m.rest rx
  else m.rest rx

/-! ## Numbers and their bits -/

@[simp] theorem bitsOf_length (n a : Nat) : (bitsOf n a).length = n := by
  simp [bitsOf]

theorem bitsOf_zero (n : Nat) : bitsOf n 0 = List.replicate n false := by
  simp [bitsOf]

theorem bitsOf_succ (n a : Nat) : bitsOf (n + 1) a = bitsOf n (a / 2) ++ [a.testBit 0] := by
  rw [bitsOf, List.range_succ, List.map_append, bitsOf]
  refine congrArg₂ (· ++ ·) (List.map_congr_left fun j hj => ?_) ?_
  · have hlt := List.mem_range.mp hj
    rw [← Nat.testBit_succ]
    congr 1
    omega
  · simp

theorem valueOf_append_singleton (bits : List Bool) (b : Bool) :
    valueOf (bits ++ [b]) = 2 * valueOf bits + b.toNat := by
  rw [valueOf, List.foldl_append]
  rfl

theorem valueOf_bitsOf : ∀ (n : Nat) {a : Nat}, a < 2 ^ n → valueOf (bitsOf n a) = a
  | 0, a, h => by
      obtain rfl : a = 0 := by omega
      rfl
  | n + 1, a, h => by
      have hhalf : a / 2 < 2 ^ n := by omega
      rw [bitsOf_succ, valueOf_append_singleton, valueOf_bitsOf n hhalf, Nat.testBit_zero]
      rcases Nat.mod_two_eq_zero_or_one a with h2 | h2
      · simp [h2]
        omega
      · simp [h2]
        omega

/-! ## Reading -/

theorem out_floats (m : SerialMemory w) {rx : List Bool} (h : rx.length < 3 + w) :
    m.out rx = true :=
  if_pos h

/-- The command to read the word at `a`, and `dis` more bits: a zero first,
and then the bits of the word. -/
theorem out_read (m : SerialMemory w) {a : Nat} (ha : a < 2 ^ w) (dis : List Bool) :
    (dis = [] → m.out (readCommand ++ bitsOf w a ++ dis) = false)
    ∧ (dis ≠ [] → dis.length ≤ 16 → m.out (readCommand ++ bitsOf w a ++ dis)
      = (m.words a).getLsbD (16 - dis.length)) := by
  have hlen : (readCommand ++ bitsOf w a ++ dis).length = 3 + w + dis.length := by
    rw [List.length_append, List.length_append, bitsOf_length]
    rfl
  have hcommand : (readCommand ++ bitsOf w a ++ dis).take 3 = readCommand := by
    rw [List.append_assoc]
    rfl
  have haddress : (((readCommand ++ bitsOf w a ++ dis).drop 3).take w) = bitsOf w a := by
    have hdrop : (readCommand ++ bitsOf w a ++ dis).drop 3 = bitsOf w a ++ dis := by
      rw [List.append_assoc]
      rfl
    rw [hdrop, List.take_append_of_le_length (Nat.le_of_eq (bitsOf_length w a).symm),
      List.take_of_length_le (Nat.le_of_eq (bitsOf_length w a))]
  have hstep : m.out (readCommand ++ bitsOf w a ++ dis) = match dis.length with
      | 0 => false
      | k + 1 => if k < 16 then (m.words a).getLsbD (15 - k)
          else m.rest (readCommand ++ bitsOf w a ++ dis) := by
    rw [out, if_neg (by omega), if_pos hcommand, haddress, valueOf_bitsOf w ha, hlen,
      Nat.add_sub_cancel_left]
  rw [hstep]
  cases dis with
  | nil => exact ⟨fun _ => rfl, fun hc => absurd rfl hc⟩
  | cons b dis =>
      refine ⟨nofun, fun _ hle => ?_⟩
      rw [List.length_cons] at hle ⊢
      exact (if_pos (by omega)).trans (by congr 1; omega)

end SerialMemory

end SpKernel.Lib
