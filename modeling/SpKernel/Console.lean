import SpKernel.Lib.Memory
import SpKernel.Types

/-!
# Keyboard input (`c_io.c`)

The circular buffer between the keyboard and `read` on the console
channel. Positions are offsets into `__c_input_buffer`: the next
character to be read, and the next free space. The buffer is full when
the next space would be the next character, so it holds one character
less than it has room for, and a key that finds it full is dropped. What
is printed on the screen is left out.

A scan code is translated on the way in (`cInputScanCode`): the table has
a row for each state of the shift key, and a character that is typed
while the control key is down is masked.

Kernel code runs with interrupts off, so `c_getchar` polls the keyboard
itself when the buffer is empty; the scan codes it will find there are an
argument (`pollKeys`), and running out of them means waiting for ever.
`c_gets` reads up to a newline or an end of transmission, and stores a
NUL behind what it has read.
-/

namespace SpKernel

open Function (update)
open Lib

abbrev cBufsize : Nat := 200

/-- The statics of the input part. -/
structure Console where
  inputBuffer : Nat → Byte
  nextChar : Nat
  nextSpace : Nat
  shift : Bool
  ctrlMask : Byte

def Console.zero : Console where
  inputBuffer := fun _ => 0
  nextChar := 0
  nextSpace := 0
  shift := false
  ctrlMask := 0xFF

/-- The characters of the first 84 scan codes, unshifted and shifted;
`'\377'` stands for keys without one. -/
def scanCodes (shift : Bool) : List Nat :=
  if shift then
    [0xFF, 0x1B, 0x21, 0x40, 0x23, 0x24, 0x25, 0x5E, 0x26, 0x2A, 0x28, 0x29, 0x5F, 0x2B, 8, 9,
     0x51, 0x57, 0x45, 0x52, 0x54, 0x59, 0x55, 0x49, 0x4F, 0x50, 0x7B, 0x7D, 10, 0xFF, 0x41, 0x53,
     0x44, 0x46, 0x47, 0x48, 0x4A, 0x4B, 0x4C, 0x3A, 0x22, 0x7E, 0xFF, 0x7C, 0x5A, 0x58, 0x43, 0x56,
     0x42, 0x4E, 0x4D, 0x3C, 0x3E, 0x3F, 0xFF, 0x2A, 0xFF, 0x20, 0xFF, 0xFF, 0xFF, 0xFF, 0xFF, 0xFF,
     0xFF, 0xFF, 0xFF, 0xFF, 0xFF, 0xFF, 0xFF, 0x37, 0x38, 0x39, 0x2D, 0x34, 0x35, 0x36, 0x2B, 0x31,
     0x32, 0x33, 0x30, 0x2E]
  else
    [0xFF, 0x1B, 0x31, 0x32, 0x33, 0x34, 0x35, 0x36, 0x37, 0x38, 0x39, 0x30, 0x2D, 0x3D, 8, 9,
     0x71, 0x77, 0x65, 0x72, 0x74, 0x79, 0x75, 0x69, 0x6F, 0x70, 0x5B, 0x5D, 10, 0xFF, 0x61, 0x73,
     0x64, 0x66, 0x67, 0x68, 0x6A, 0x6B, 0x6C, 0x3B, 0x27, 0x60, 0xFF, 0x5C, 0x7A, 0x78, 0x63, 0x76,
     0x62, 0x6E, 0x6D, 0x2C, 0x2E, 0x2F, 0xFF, 0x2A, 0xFF, 0x20, 0xFF, 0xFF, 0xFF, 0xFF, 0xFF, 0xFF,
     0xFF, 0xFF, 0xFF, 0xFF, 0xFF, 0xFF, 0xFF, 0x37, 0x38, 0x39, 0x2D, 0x34, 0x35, 0x36, 0x2B, 0x31,
     0x32, 0x33, 0x30, 0x2E]

/-- `scan_code[ shift ][ code ]` -/
def scanCode (shift : Bool) (code : Byte) : Byte :=
  BitVec.ofNat 8 ((scanCodes shift).getD code.toNat 0xFF)

def cIncrement (pointer : Nat) : Nat :=
  if cBufsize ≤ pointer + 1 then 0 else pointer + 1

/-- `__c_input_scan_code`. The table holds unsigned characters, so no
entry equals the (negative) character constant `'\377'` and the test for
undefined scan codes never holds. -/
def cInputScanCode (c : Console) (code : Byte) : Console :=
  if code = 0x2A ∨ code = 0x36 then { c with shift := true }
  else if code = 0xAA ∨ code = 0xB6 then { c with shift := false }
  else if code = 0x1D then { c with ctrlMask := 0x1F }
  else if code = 0x9D then { c with ctrlMask := 0xFF }
  else if code &&& 0x80 = 0 then
    let code := scanCode c.shift code
    let next := cIncrement c.nextSpace
    if next ≠ c.nextChar then
      { c with
        inputBuffer := update c.inputBuffer c.nextSpace (code &&& c.ctrlMask)
        nextSpace := next }
    else c
  else c

/-- Read keystrokes until there is a character. -/
def pollKeys : List Byte → Console → Except Fault (Console × List Byte)
  | [], c => if c.nextChar ≠ c.nextSpace then .ok (c, []) else .error .diverge
  | code :: keys, c =>
      if c.nextChar ≠ c.nextSpace then .ok (c, code :: keys)
      else pollKeys keys (cInputScanCode c code)

def cGetchar (c : Console) (keys : List Byte) : Except Fault (Byte × Console × List Byte) := do
  let (c, keys) ← pollKeys keys c
  .ok (c.inputBuffer c.nextChar, { c with nextChar := cIncrement c.nextChar }, keys)

abbrev eot : Byte := 4

/-- The loop of `c_gets`, by the room left, and the final `'\0'`. -/
def cGetsLoop : Nat → Console → List Byte → Mem → Word → Nat → Except Fault (Nat × Console × Mem)
  | size + 2, c, keys, m, buffer, count => do
      let (ch, c, keys) ← cGetchar c keys
      if ch = eot then .ok (count, c, store 1 m buffer 0#8)
      else
        let m := store 1 m buffer ch
        if ch = 10 then .ok (count + 1, c, store 1 m (buffer + 1) 0#8)
        else cGetsLoop (size + 1) c keys m (buffer + 1) (count + 1)
  | _, c, _, m, buffer, count => .ok (count, c, store 1 m buffer 0#8)

/-- `c_gets`: the number of characters stored. -/
def cGets (c : Console) (keys : List Byte) (m : Mem) (buffer size : Word) :
    Except Fault (Nat × Console × Mem) :=
  cGetsLoop size.toNat c keys m buffer 0

def cInputQueue (c : Console) : Nat :=
  if c.nextSpace < c.nextChar then c.nextSpace + cBufsize - c.nextChar
  else c.nextSpace - c.nextChar

end SpKernel
