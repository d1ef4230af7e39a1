import SpKernel.Sio

/-!
# Serial input is a queue

Received characters go into `_inbuffer` and come out of it through
`_sio_readc` and `_sio_reads`. The buffer is compared with a plain list
of unread characters, operation by operation: `Line` is that list, with
the number of characters stored since it was last empty, and
`Holding s l` that the state of the driver represents it.

`_inlast` only moves back when everything has been read, so the buffer is
a queue as long as it never stores more than `BUF_SIZE` characters
between two moments at which it is empty, and leaves the array after
that: `serial_input_fifo_iff`. `Line.Room` is the condition on one
operation and `Line.Fits` that on a run, both read off the abstract line.

- `Holding.exec` is the step: an operation with room is simulated by the
  one on the list, with the same characters returned.
- `Holding.inside` says that leaving the buffer is the only way to fail,
  which is the other direction of the equivalence.
- `sioReads_eq` is the specification of `_sio_reads`, wherever its
  pointers are; the loop that copies to the user's buffer is
  `sioReadsLoop_eq`.

`serial_input_overrun` is a line that is never empty: after `BUF_SIZE`
characters the next one is stored behind the array.
-/

namespace SpKernel

open Function (update update_self update_of_ne)
open Lib

/-! ## Operations -/

/-- What can happen to the input side while no process is blocked. -/
inductive InOp where
  | receive (ch : Byte)
  | readc
  | reads (buf : Word) (length : Int)

/-- The mapping of CR to LF in `_sio_isr`. -/
def crToLf (ch : Byte) : Byte := if ch = 13 then 10 else ch

/-- The characters an operation returns, and the state after it. -/
def InOp.exec (s : Sio) (m : Mem) : InOp → List Byte × Sio × Mem
  | .receive ch => ([], sioReceive s (crToLf ch), m)
  | .readc =>
      let (ch, s) := sioReadc s
      (if ch = -1 then [] else [BitVec.ofInt 8 ch], s, m)
  | .reads buf length =>
      let (n, s, m) := sioReads s m buf length
      (bytes m buf n, s, m)

/-- The offsets that the loop of `_sio_reads` reads through. -/
def readsOffsets (length : Int) : Nat → Sio → Nat → List Nat
  | 0, _, _ => []
  | fuel + 1, s, copied =>
      if 0 < s.incount ∧ (copied : Int) < length then
        let innext := s.innext + 1
        s.innext :: readsOffsets length fuel
          { s with
            innext := if bufSize < innext then 0 else innext
            incount := s.incount - 1 } (copied + 1)
      else []

/-- `_inlast` is inside the buffer if it is written through, `_innext` if
it is read through. -/
def InOp.Inside (s : Sio) : InOp → Prop
  | .receive _ => s.incount < bufSize → s.inlast < bufSize
  | .readc => 0 < s.incount → s.innext < bufSize
  | .reads _ length => ∀ i ∈ readsOffsets length s.incount s 0, i < bufSize

/-! ## The abstract line -/

/-- The unread characters, and how many were stored since there were none.
The second number has no part in what is returned. -/
structure Line where
  unread : List Byte
  filled : Nat

def Line.empty : Line := ⟨[], 0⟩

/-- Return the `n` oldest characters. -/
def Line.take (l : Line) (n : Nat) : List Byte × Line :=
  (l.unread.take n, ⟨l.unread.drop n, if l.unread.length ≤ n then 0 else l.filled⟩)

/-- A bounded queue: a character that finds `BUF_SIZE` unread ones is
dropped. -/
def Line.exec (l : Line) : InOp → List Byte × Line
  | .receive ch =>
      ([], if l.unread.length < bufSize then ⟨l.unread ++ [crToLf ch], l.filled + 1⟩ else l)
  | .readc => l.take 1
  | .reads _ length => l.take length.toNat

/-- A character that is accepted is not one too many since the line was
last empty. -/
def Line.Room (l : Line) : InOp → Prop
  | .receive _ => l.unread.length < bufSize → l.filled < bufSize
  | _ => True

/-- All characters find room. -/
def Line.Fits : Line → List InOp → Prop
  | _, [] => True
  | l, op :: ops => l.Room op ∧ Fits (l.exec op).2 ops

/-- Every operation returns what the queue returns, and stays inside the
buffer. -/
def InputFifo : Sio → Mem → Line → List InOp → Prop
  | _, _, _, [] => True
  | s, m, l, op :: ops =>
      op.Inside s ∧ (op.exec s m).1 = (l.exec op).1
        ∧ InputFifo (op.exec s m).2.1 (op.exec s m).2.2 (l.exec op).2 ops

/-! ## The loop of `_sio_reads` -/

variable {s : Sio} {l : Line}

theorem readsOffsets_length (length : Int) : ∀ (fuel : Nat) (s : Sio) (copied : Nat),
    s.incount ≤ fuel →
    (readsOffsets length fuel s copied).length = min s.incount (length - copied).toNat := by
  intro fuel
  induction fuel with
  | zero =>
      intro s copied hf
      rw [Nat.le_zero.mp hf, Nat.zero_min]
      rfl
  | succ fuel ih =>
      intro s copied hf
      rw [readsOffsets]
      split
      · rw [List.length_cons, ih _ _ (by simp only; omega)]
        simp only
        omega
      · rw [List.length_nil]
        omega

theorem readsOffsets_inside (length : Int) : ∀ (fuel : Nat) (s : Sio) (copied : Nat),
    s.innext + s.incount ≤ bufSize → readsOffsets length fuel s copied
      = List.range' s.innext (readsOffsets length fuel s copied).length := by
  intro fuel
  induction fuel with
  | zero => exact fun _ _ _ => rfl
  | succ fuel ih =>
      intro s copied hb
      rw [readsOffsets]
      split
      · have hwrap : ¬ bufSize < s.innext + 1 := by omega
        rw [List.length_cons, List.range'_succ]
        simp only [hwrap, ↓reduceIte]
        exact congrArg _ (ih _ _ (by simp only; omega))
      · rfl

/-- The loop copies the bytes it reads to the user's buffer. -/
theorem sioReadsLoop_eq (length : Int) : ∀ (fuel : Nat) (s : Sio) (m : Mem) (ptr : Word)
    (copied : Nat), ∃ innext,
    (s.innext + s.incount ≤ bufSize →
      innext = s.innext + (readsOffsets length fuel s copied).length)
    ∧ sioReadsLoop length fuel s m ptr copied
      = (copied + (readsOffsets length fuel s copied).length,
         { s with
           innext := innext
           incount := s.incount - (readsOffsets length fuel s copied).length },
         storeBytes m ptr ((readsOffsets length fuel s copied).map s.inbuffer)) := by
  intro fuel
  induction fuel with
  | zero => exact fun s m ptr copied => ⟨s.innext, fun _ => rfl, rfl⟩
  | succ fuel ih =>
      intro s m ptr copied
      rw [sioReadsLoop, readsOffsets]
      split
      · obtain ⟨innext, hin, heq⟩ := ih
          { s with
            innext := if bufSize < s.innext + 1 then 0 else s.innext + 1
            incount := s.incount - 1 }
          (store 1 m ptr (s.inbuffer s.innext)) (ptr + 1) (copied + 1)
        refine ⟨innext, fun hb => ?_, ?_⟩
        · have hwrap : ¬ bufSize < s.innext + 1 := by omega
          rw [hin (by simp only [hwrap, ↓reduceIte]; omega), List.length_cons]
          simp only [hwrap, ↓reduceIte]
          omega
        · rw [heq, List.length_cons, List.map_cons, storeBytes]
          refine Prod.ext (by simp only; omega) (Prod.ext ?_ rfl)
          simp only [Nat.sub_sub, Nat.add_comm 1]
      · exact ⟨s.innext, fun _ => rfl, rfl⟩

/-- How many characters `_sio_reads` copies. -/
def readsCount (s : Sio) (length : Int) : Nat := min s.incount length.toNat

theorem readsOffsets_count (s : Sio) (length : Int) :
    (readsOffsets length s.incount s 0).length = readsCount s length := by
  rw [readsOffsets_length length _ _ _ (Nat.le_refl _), Nat.cast_zero, sub_zero, readsCount]

/-- `_sio_reads` as a whole, wherever its pointers are. -/
theorem sioReads_eq (s : Sio) (m : Mem) (buf : Word) (length : Int) : ∃ inlast innext,
    sioReads s m buf length
      = (readsCount s length,
         { s with
           inlast := inlast
           innext := innext
           incount := s.incount - readsCount s length },
         storeBytes m buf ((readsOffsets length s.incount s 0).map s.inbuffer))
    ∧ (0 < s.incount → s.incount ≤ length.toNat → inlast = 0 ∧ innext = 0)
    ∧ (length.toNat < s.incount ∨ s.incount = 0 → inlast = s.inlast
      ∧ (s.innext + s.incount ≤ bufSize → innext = s.innext + readsCount s length)) := by
  have hcount := readsOffsets_count s length
  rw [sioReads]
  split
  · rename_i hnone
    obtain hz : s.incount = 0 := by omega
    refine ⟨s.inlast, s.innext, ?_, fun h => absurd h (by omega), fun _ => ⟨rfl, fun _ => ?_⟩⟩
    · simp only [readsCount, hz, Nat.zero_min, Nat.sub_zero, readsOffsets, List.map_nil,
        storeBytes]
      rw [← hz]
    · rw [readsCount, hz, Nat.zero_min, Nat.add_zero]
  · obtain ⟨innext, hin, heq⟩ := sioReadsLoop_eq length s.incount s m buf 0
    rw [hcount] at hin heq
    rw [heq, Nat.zero_add]
    simp only
    unfold readsCount at *
    split
    · exact ⟨0, 0, rfl, fun _ _ => ⟨rfl, rfl⟩, fun h => by omega⟩
    · exact ⟨s.inlast, innext, rfl, fun _ h => by omega, fun _ => ⟨rfl, hin⟩⟩

/-! ## Simulation -/

/-- The buffer holds the unread characters of the line. -/
structure Holding (s : Sio) (l : Line) : Prop where
  contents : (List.range' s.innext s.incount).map s.inbuffer = l.unread
  last : s.inlast = l.filled
  next : s.innext + s.incount = s.inlast
  bound : s.inlast ≤ bufSize
  idle : s.incount = 0 → s.inlast = 0

theorem Holding.count (h : Holding s l) : s.incount = l.unread.length := by
  rw [← h.contents, List.length_map, List.length_range']

theorem holding_empty : Holding sioInit Line.empty :=
  ⟨rfl, rfl, rfl, Nat.zero_le _, fun _ => rfl⟩

theorem Holding.inside (h : Holding s l) (op : InOp) : op.Inside s ↔ l.Room op := by
  have hnext := h.next
  have hbound := h.bound
  cases op with
  | receive ch => rw [InOp.Inside, Line.Room, h.count, h.last]
  | readc => exact ⟨fun _ => trivial, fun _ hs => by omega⟩
  | reads buf length =>
      refine ⟨fun _ => trivial, fun _ i hi => ?_⟩
      rw [readsOffsets_inside _ _ _ _ (by omega), readsOffsets_count, List.mem_range'_1,
        readsCount] at hi
      omega

theorem Holding.receive (h : Holding s l) {ch : Byte} (hroom : l.Room (.receive ch)) :
    Holding (sioReceive s (crToLf ch)) (l.exec (.receive ch)).2 := by
  have hcount := h.count
  have hnext := h.next
  rw [sioReceive, Line.exec]
  by_cases hfull : s.incount < bufSize
  · have hlast : s.inlast < bufSize := by
      rw [h.last]
      exact hroom (hcount ▸ hfull)
    rw [if_pos hfull, if_pos (hcount ▸ hfull)]
    refine ⟨?_, congrArg (· + 1) h.last, congrArg (· + 1) hnext, hlast,
      fun hc => absurd hc (Nat.succ_ne_zero _)⟩
    rw [← h.contents]
    simp only [List.range'_1_concat, List.map_append, List.map_singleton, hnext, update_self]
    refine congrArg (· ++ _) (List.map_congr_left fun i hi => update_of_ne ?_ ..)
    have := List.mem_range'_1.mp hi
    omega
  · rw [if_neg hfull, if_neg (hcount ▸ hfull)]
    exact h

/-- The oldest `n` characters are gone, and the pointers are as the
readers leave them. -/
theorem Holding.take (h : Holding s l) (n inlast innext : Nat)
    (hempty : 0 < s.incount → s.incount ≤ n → inlast = 0 ∧ innext = 0)
    (hrest : n < s.incount ∨ s.incount = 0 → inlast = s.inlast
      ∧ innext = s.innext + min s.incount n) :
    Holding { s with inlast := inlast, innext := innext, incount := s.incount - min s.incount n }
      (l.take n).2 := by
  have hcount := h.count
  have hnext := h.next
  have hbound := h.bound
  have hidle := h.idle
  rw [Line.take]
  by_cases hall : 0 < s.incount ∧ s.incount ≤ n
  · obtain ⟨rfl, rfl⟩ := hempty hall.1 hall.2
    have hz : s.incount - min s.incount n = 0 := by omega
    rw [if_pos (hcount ▸ hall.2), List.drop_of_length_le (hcount ▸ hall.2)]
    simp only [hz]
    exact ⟨rfl, rfl, rfl, Nat.zero_le _, fun _ => rfl⟩
  · obtain ⟨rfl, rfl⟩ := hrest (by omega)
    refine ⟨?_, ?_, by simp only; omega, hbound, fun hc => hidle (by simp only at hc; omega)⟩
    · rw [← h.contents, ← List.map_drop, List.drop_range', Nat.mul_one]
      rcases Nat.lt_or_ge n s.incount with hn | hn
      · rw [Nat.min_eq_right hn.le]
      · obtain hz : s.incount = 0 := by omega
        simp only [hz, Nat.zero_sub, List.range'_zero]
    · rcases Nat.lt_or_ge n s.incount with hn | hn
      · rw [if_neg (by omega)]
        exact h.last
      · rw [if_pos (hcount ▸ hn)]
        exact hidle (by omega)

theorem Holding.taken (h : Holding s l) (n : Nat) :
    (l.take n).1 = (List.range' s.innext (min s.incount n)).map s.inbuffer := by
  rw [Line.take, ← h.contents, ← List.map_take]
  rcases Nat.le_total s.incount n with hn | hn
  · rw [List.take_range'_of_length_le hn, Nat.min_eq_left hn]
  · rw [List.take_range'_of_length_ge hn, Nat.min_eq_right hn]

theorem sioReadc_eq (hs : 0 < s.incount) : ∃ inlast innext,
    sioReadc s = (((s.inbuffer s.innext).toNat : Int),
      { s with inlast := inlast, innext := innext, incount := s.incount - 1 })
    ∧ (s.incount ≤ 1 → inlast = 0 ∧ innext = 0)
    ∧ (1 < s.incount → inlast = s.inlast ∧ innext = s.innext + 1) := by
  rw [sioReadc, if_pos hs]
  simp only
  split
  · exact ⟨0, 0, rfl, fun _ => ⟨rfl, rfl⟩, fun hc => by omega⟩
  · exact ⟨s.inlast, s.innext + 1, rfl, fun hc => by omega, fun _ => ⟨rfl, rfl⟩⟩

theorem Holding.readc (h : Holding s l) (m : Mem) :
    (InOp.exec s m .readc).1 = (l.exec .readc).1
      ∧ Holding (InOp.exec s m .readc).2.1 (l.exec .readc).2 := by
  have htake := h.taken 1
  rw [InOp.exec, Line.exec, htake]
  by_cases hs : 0 < s.incount
  · have hmin : min s.incount 1 = 1 := by omega
    have hch : ¬ (((s.inbuffer s.innext).toNat : Int) = -1) := by omega
    obtain ⟨inlast, innext, heq, hempty, hrest⟩ := sioReadc_eq hs
    rw [heq, hmin]
    refine ⟨by simp [hch], ?_⟩
    have := h.take 1 _ _ (fun _ => hempty) fun hc => by
      rw [hmin]
      exact hrest (by omega)
    rwa [hmin] at this
  · have hz : s.incount = 0 := by omega
    rw [sioReadc, if_neg hs, hz, Nat.zero_min]
    refine ⟨rfl, ?_⟩
    have hsame : s.incount - min s.incount 1 = s.incount := by omega
    have := h.take 1 s.inlast s.innext (fun hc => absurd hc hs) fun _ => ⟨rfl, by omega⟩
    rw [hsame] at this
    exact this

theorem Holding.reads (h : Holding s l) (m : Mem) (buf : Word) (length : Int) :
    (InOp.exec s m (.reads buf length)).1 = (l.exec (.reads buf length)).1
      ∧ Holding (InOp.exec s m (.reads buf length)).2.1 (l.exec (.reads buf length)).2 := by
  have hnext := h.next
  have hbound := h.bound
  have hin : s.innext + s.incount ≤ bufSize := by omega
  obtain ⟨inlast, innext, heq, hempty, hrest⟩ := sioReads_eq s m buf length
  rw [InOp.exec, heq, Line.exec]
  refine ⟨?_, h.take _ _ _ hempty fun hc => ⟨(hrest hc).1, (hrest hc).2 hin⟩⟩
  rw [h.taken, ← readsCount, readsOffsets_inside _ _ _ _ hin, readsOffsets_count]
  have hlen : ((List.range' s.innext (readsCount s length)).map s.inbuffer).length
      = readsCount s length := by
    rw [List.length_map, List.length_range']
  have hle : readsCount s length ≤ bufSize :=
    (Nat.min_le_left _ _).trans (by omega)
  have := bytes_storeBytes (m := m) (a := buf) (hlen.trans_le (hle.trans (by decide)))
  rwa [hlen] at this

theorem Holding.exec (h : Holding s l) (m : Mem) {op : InOp} (hroom : l.Room op) :
    (op.exec s m).1 = (l.exec op).1 ∧ Holding (op.exec s m).2.1 (l.exec op).2 := by
  cases op with
  | receive ch => exact ⟨rfl, h.receive hroom⟩
  | readc => exact h.readc m
  | reads buf length => exact h.reads m buf length

theorem Holding.fifo (h : Holding s l) (m : Mem) (ops : List InOp) :
    InputFifo s m l ops ↔ l.Fits ops := by
  induction ops generalizing s m l with
  | nil => exact Iff.rfl
  | cons op ops ih =>
      rw [InputFifo, Line.Fits, h.inside]
      refine and_congr_right fun hroom => ?_
      obtain ⟨hout, hnext⟩ := h.exec m hroom
      rw [ih hnext, and_iff_right hout]

/-- From initialisation on, the input side is a bounded queue that stays
inside its buffer exactly as long as no more than `BUF_SIZE` characters
are stored between two moments at which nothing is unread. -/
theorem serial_input_fifo_iff (m : Mem) (ops : List InOp) :
    InputFifo sioInit m Line.empty ops ↔ Line.empty.Fits ops :=
  holding_empty.fifo m ops

/-- Characters that arrive on an empty line fill it up. -/
theorem fits_replicate {ch : Byte} {ops : List InOp} (n : Nat) : ∀ i, i + n ≤ bufSize →
    (Line.Fits ⟨List.replicate i (crToLf ch), i⟩ (List.replicate n (.receive ch) ++ ops)
      ↔ Line.Fits ⟨List.replicate (i + n) (crToLf ch), i + n⟩ ops) := by
  induction n with
  | zero => exact fun _ _ => Iff.rfl
  | succ n ih =>
      intro i hi
      have hlt : i < bufSize := by omega
      have := ih (i + 1) (by omega)
      rw [Nat.add_right_comm, Nat.add_assoc] at this
      rw [List.replicate_succ, List.cons_append, Line.Fits, Line.Room, Line.exec, ← this]
      simp only [List.length_replicate, hlt, ↓reduceIte, implies_true, true_and,
        List.replicate_succ']

/-- A full buffer, one character read, and one more received: it is
stored past the end of `_inbuffer`. -/
theorem serial_input_overrun : ¬InputFifo sioInit (fun _ => 0) Line.empty
    (List.replicate 2048 (.receive 97) ++ [.readc, .receive 97]) := by
  rw [holding_empty.fifo]
  intro h
  obtain ⟨-, hroom, -⟩ := (fits_replicate 2048 0 (Nat.le_refl _)).mp h
  simp only [Line.Room, Line.exec, Line.take, List.length_drop, List.length_replicate] at hroom
  exact absurd (hroom (by decide)) (by decide)

end SpKernel
