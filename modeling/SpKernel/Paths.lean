import SpKernel.Strings

/-!
# Paths (`libpath.c`)

The functions walk over the characters of a path with an index, and the
loops end at the NUL. `io_path_keep_n_nodes` ends the path it copies
from, not the copy. In `io_path_canonicalized_compare` the inner loop
only moves on at a delimiter, so once the two sides have passed a
different number of them it may not end.

The paths are in memory, and a character is read with `charAt`, at an
offset from the start of the path. The loops run on fuel: those over one
path as long as there is memory, and the comparison as long as its two
indices can have different values. What the functions compute is the
subject of `PathNodes` and `PathCompare`.

`Comparison` has the variables of `io_path_canonicalized_compare` that
survive a round of its outer loop: an index for each side, and the tokens
that each has met.
-/

namespace SpKernel

open Lib

abbrev ioPathDelimiter : Byte := 0x5C

/-- `path[index]` -/
def charAt (m : Mem) (path : Word) (index : Nat) : Byte := m (path + BitVec.ofNat 32 index)

/-- The delimiter at this index ends a node. -/
def endsNode (index : Nat) (lastChar currentChar : Byte) : Bool :=
  decide (currentChar = ioPathDelimiter ∧ index ≠ 0 ∧ currentChar ≠ lastChar)

/-- The loop of `io_path_count_nodes`. -/
def countNodesLoop (m : Mem) (path : Word) : Nat → Nat → Nat → Byte → Except Fault Nat
  | 0, _, _, _ => .error .diverge
  | fuel + 1, index, pathcount, lastChar =>
      let currentChar := charAt m path index
      if currentChar ≠ 0 then
        let pathcount := if endsNode index lastChar currentChar then pathcount + 1 else pathcount
        countNodesLoop m path fuel (index + 1) pathcount currentChar
      else if lastChar ≠ ioPathDelimiter ∧ lastChar ≠ 0 then .ok (pathcount + 1)
      else .ok pathcount

def ioPathCountNodes (m : Mem) (path : Word) : Except Fault Nat :=
  countNodesLoop m path (2 ^ 32) 0 0 0

/-- The loop of `io_path_keep_n_nodes`. The NUL goes into `path`. -/
def keepNNodesLoop (path : Word) (n : Nat) (out : Word) :
    Nat → Mem → Nat → Nat → Byte → Except Fault Mem
  | 0, _, _, _, _ => .error .diverge
  | fuel + 1, m, index, pathcount, lastChar =>
      let currentChar := charAt m path index
      if currentChar ≠ 0 then
        let m := store 1 m (out + BitVec.ofNat 32 index) currentChar
        let pathcount := if endsNode index lastChar currentChar then pathcount + 1 else pathcount
        if pathcount = n then .ok (store 1 m (path + BitVec.ofNat 32 index) (0 : Byte))
        else keepNNodesLoop path n out fuel m (index + 1) pathcount currentChar
      else .ok m

def ioPathKeepNNodes (m : Mem) (path n out : Word) : Except Fault Mem :=
  keepNNodesLoop path n.toNat out (2 ^ 32) m 0 0 0

/-- `io_path_disc_n_nodes`: the difference becomes unsigned. -/
def ioPathDiscNNodes (m : Mem) (path n out : Word) : Except Fault Mem := do
  let nodes ← ioPathCountNodes m path
  ioPathKeepNNodes m path (BitVec.ofNat 32 nodes - n) out

/-! ## Comparing -/

/-- The first loop of `io_path_canonicalized_compare`. -/
def skipDelimiters (m : Mem) (path1 path2 : Word) : Nat → Nat → Nat → Except Fault (Nat × Nat)
  | 0, _, _ => .error .diverge
  | fuel + 1, lIndex, rIndex =>
      let lIndex := if charAt m path1 lIndex = ioPathDelimiter then lIndex + 1 else lIndex
      let rIndex := if charAt m path2 rIndex = ioPathDelimiter then rIndex + 1 else rIndex
      if charAt m path1 lIndex = ioPathDelimiter ∨ charAt m path2 rIndex = ioPathDelimiter then
        skipDelimiters m path1 path2 fuel lIndex rIndex
      else .ok (lIndex, rIndex)

/-- The indices and the delimiters each side has passed. -/
structure Comparison where
  lIndex : Nat
  rIndex : Nat
  lTokens : Nat
  rTokens : Nat
deriving Repr, DecidableEq

/-- The character is a delimiter and the one before it is not. -/
def atDelimiter (m : Mem) (path : Word) (index : Nat) : Bool :=
  decide (charAt m path index = ioPathDelimiter ∧ charAt m path (index - 1) ≠ ioPathDelimiter)

/-- The inner loop. -/
def tokenLoop (m : Mem) (path1 path2 : Word) : Nat → Comparison → Except Fault Comparison
  | 0, _ => .error .diverge
  | fuel + 1, c =>
      if charAt m path1 c.lIndex = 0 ∨ charAt m path2 c.rIndex = 0 then .ok c
      else
        let c := if atDelimiter m path1 c.lIndex then
          { c with lTokens := c.lTokens + 1, lIndex := c.lIndex + 1 } else c
        let c := if atDelimiter m path2 c.rIndex then
          { c with rTokens := c.rTokens + 1, rIndex := c.rIndex + 1 } else c
        if c.lTokens ≠ c.rTokens then tokenLoop m path1 path2 fuel c else .ok c

/-- The outer loop, and the test after it. -/
def compareLoop (m : Mem) (path1 path2 : Word) : Nat → Comparison → Except Fault Int
  | 0, _ => .error .diverge
  | fuel + 1, c =>
      if charAt m path1 c.lIndex ≠ 0 ∧ charAt m path2 c.rIndex ≠ 0 then do
        let c ← tokenLoop m path1 path2 (2 ^ 32)
          { c with lIndex := c.lIndex + 1, rIndex := c.rIndex + 1 }
        if charAt m path1 c.lIndex ≠ charAt m path2 c.rIndex then .ok 1
        else compareLoop m path1 path2 fuel c
      else if charAt m path1 c.lIndex ≠ charAt m path2 c.rIndex then .ok 1
      else .ok 0

def ioPathCanonicalizedCompare (m : Mem) (path1 path2 : Word) : Except Fault Int := do
  let (lIndex, rIndex) ← skipDelimiters m path1 path2 (2 ^ 32) 0 0
  compareLoop m path1 path2 (2 ^ 32) ⟨lIndex, rIndex, 0, 0⟩

end SpKernel
