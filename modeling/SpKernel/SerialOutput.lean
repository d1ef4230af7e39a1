import SpKernel.Lib.Outcome
import SpKernel.Lib.Ring
import SpKernel.Sio

/-!
# Serial output is a queue

Bytes given to `_sio_writec` and `_sio_writes` go to the transmitter at
once if it is idle and through the circular `_outbuffer` otherwise.

`_sio_writes` wraps `_outlast` around and stops when the buffer is full;
`_sio_writec` does neither. The output side is a queue exactly as long as
that makes no difference: `serial_output_fifo_iff`. The condition is
about positions (`OutPos`), which can be computed from the operations
alone, without the contents of the buffer: `OutPos.Room` for one
operation and `OutPos.Fits` for a run.

`Sending s accepted pos` is the simulation relation. What has been sent
and what is unsent in the buffer (`unsent`, the entries of a circular
array) is what was accepted, in order, and the pointers are at `pos`.
`Sending.exec` is the step, with one lemma for each operation and each
state of the transmitter before it, and `Sending.room` says that an
operation which stayed inside the array and the bound had room. The loop
of `_sio_writes` takes as many bytes as there is room for
(`sioWritesLoop_spec`).

The flag, the interrupt-enable register and its shadow agree as long as
nothing that is stored in the buffer reaches other variables
(`transmitter_driven`, for a buffer without end; `SerialOverrun` has the
buffer as it is).
-/

namespace SpKernel

open Function (update)
open Lib

/-! ## Operations -/

/-- What can happen to the output side. A call of `_sio_writes` comes with
the memory its buffer is in. -/
inductive OutOp where
  | writec (ch : Byte)
  | writes (m : Mem) (buffer : Word) (length : Int)
  | transmit

/-- Data without newlines, and some of it. -/
def OutOp.Plain : OutOp → Prop
  | .writec ch => ch ≠ 10
  | .writes m buffer length =>
      0 < length ∧ ∀ i : Nat, (i : Int) < length → m (buffer + BitVec.ofNat 32 i) ≠ 10
  | .transmit => True

def OutOp.exec (s : Sio) : OutOp → Sio
  | .writec ch => sioWritec s ch
  | .writes m buffer length => (sioWrites s m buffer length).2
  | .transmit => sioTransmit s

/-- The bytes a call accepts: as many as it says. -/
def OutOp.accepts (s : Sio) : OutOp → List Byte
  | .writec ch => [ch]
  | .writes m buffer length => bytes m buffer (sioWrites s m buffer length).1.toNat
  | .transmit => []

/-- The offsets that the loop of `_sio_writes` writes through. -/
def writesOffsets (length : Int) : Nat → Sio → Int → List Nat
  | 0, _, _ => []
  | fuel + 1, s, copied =>
      if copied < length ∧ s.outcount < bufSize then
        let outlast := s.outlast + 1
        s.outlast :: writesOffsets length fuel
          { s with
            outlast := if bufSize ≤ outlast then 0 else outlast
            outcount := s.outcount + 1 } (copied + 1)
      else []

/-- `_outlast` is inside the buffer if it is written through, `_outnext`
if it is read through. -/
def OutOp.Inside (s : Sio) : OutOp → Prop
  | .writec _ => s.sending → s.outlast < bufSize
  | .writes _ _ length =>
      ∀ i ∈ writesOffsets length bufSize s (if s.sending then 0 else 1), i < bufSize
  | .transmit => s.sending ∧ 0 < s.outcount → s.outnext < bufSize

/-- What has been sent is the first part of what was accepted, and what is
pending is the rest. -/
structure Delivering (s : Sio) (accepted : List Byte) : Prop where
  order : s.txd <+: accepted
  count : accepted.length = s.txd.length + s.outcount
  bound : s.outcount ≤ bufSize

/-- The output side is a queue in every state, and stays inside the
buffer. -/
def OutputFifo : Sio → List Byte → List OutOp → Prop
  | s, accepted, [] => Delivering s accepted
  | s, accepted, op :: ops =>
      Delivering s accepted ∧ op.Inside s
        ∧ OutputFifo (op.exec s) (accepted ++ op.accepts s) ops

/-! ## Positions -/

/-- Is the transmitter busy, how many bytes are pending, and which cell
takes the next one. -/
structure OutPos where
  busy : Bool
  pending : Nat
  cell : Nat

def OutPos.idle : OutPos := ⟨false, 0, 0⟩

/-- How many bytes a call of `_sio_writes` puts into the buffer. -/
def OutPos.queued (p : OutPos) (length : Int) : Nat :=
  min (if p.busy then length else length - 1).toNat (bufSize - p.pending)

def OutPos.exec (p : OutPos) : OutOp → OutPos
  | .writec _ => if p.busy then ⟨true, p.pending + 1, p.cell + 1⟩ else ⟨true, p.pending, p.cell⟩
  | .writes _ _ length =>
      ⟨true, p.pending + p.queued length,
        if p.queued length = 0 then p.cell else (p.cell + p.queued length) % bufSize⟩
  | .transmit => if p.busy ∧ 0 < p.pending then ⟨true, p.pending - 1, p.cell⟩ else .idle

/-- A byte for the buffer finds a free cell, and the cell is not the one
past the end that `_sio_writec` leaves behind. -/
def OutPos.Room (p : OutPos) : OutOp → Prop
  | .writec _ => p.busy → p.pending < bufSize ∧ p.cell < bufSize
  | .writes _ _ _ => p.busy → p.pending < bufSize → p.cell < bufSize
  | .transmit => True

def OutPos.Fits : OutPos → List OutOp → Prop
  | _, [] => True
  | p, op :: ops => p.Room op ∧ Fits (p.exec op) ops

/-! ## The loop of `_sio_writes` -/

variable {s : Sio} {p : OutPos} {accepted : List Byte}

/-- The circular buffer of the output side. -/
structure Circular (s : Sio) : Prop where
  next : s.outnext < bufSize
  bound : s.outcount ≤ bufSize
  last : s.outlast ≤ bufSize
  place : s.outlast % bufSize = (s.outnext + s.outcount) % bufSize

/-- The pending bytes. -/
def unsent (s : Sio) : List Byte := ring bufSize s.outbuffer s.outnext s.outcount

/-- One byte more in the buffer; `outlast` is the next cell, wrapped
around or not. -/
theorem Circular.put (h : Circular s) (hroom : s.outcount < bufSize) (hin : s.outlast < bufSize)
    (ch : Byte) (outlast : Nat) (hle : outlast ≤ bufSize)
    (hlast : outlast % bufSize = (s.outlast + 1) % bufSize) :
    Circular { s with
        outbuffer := update s.outbuffer s.outlast ch
        outlast := outlast
        outcount := s.outcount + 1 }
      ∧ unsent { s with
          outbuffer := update s.outbuffer s.outlast ch
          outlast := outlast
          outcount := s.outcount + 1 } = unsent s ++ [ch] := by
  have hcell : s.outlast = (s.outnext + s.outcount) % bufSize := by
    rw [← h.place, Nat.mod_eq_of_lt hin]
  refine ⟨⟨h.next, hroom, hle, ?_⟩, ?_⟩
  · simp only
    rw [hlast, hcell, Nat.mod_add_mod, Nat.add_assoc]
  · simp only [unsent]
    rw [hcell]
    exact ring_push hroom ch

/-- The cell after the last one written, wrapped around. -/
theorem wrap_eq_mod {i : Nat} (hi : i < bufSize) :
    (if bufSize ≤ i + 1 then 0 else i + 1) = (i + 1) % bufSize := by
  split
  · rw [show i + 1 = bufSize by omega, Nat.mod_self]
  · rw [Nat.mod_eq_of_lt (by omega)]

/-- The bytes `bs` have been put into the buffer. -/
structure Queued (s : Sio) (bs : List Byte) (s' : Sio) : Prop where
  same : ∃ outbuffer outlast outcount,
    s' = { s with outbuffer := outbuffer, outlast := outlast, outcount := outcount }
  count : s'.outcount = s.outcount + bs.length
  last : s'.outlast = (s.outlast + bs.length) % bufSize
  circular : Circular s'
  unsent : unsent s' = unsent s ++ bs

theorem Queued.nil (hc : Circular s) (hin : s.outlast < bufSize) : Queued s [] s :=
  ⟨⟨_, _, _, rfl⟩, rfl, (Nat.mod_eq_of_lt hin).symm, hc, (List.append_nil _).symm⟩

theorem Queued.cons {s₁ s' : Sio} {ch : Byte} {bs : List Byte} (h : Queued s [ch] s₁)
    (h' : Queued s₁ bs s') : Queued s (ch :: bs) s' := by
  obtain ⟨_, _, _, hs₁⟩ := h.same
  obtain ⟨_, _, _, hs'⟩ := h'.same
  have hlen : (ch :: bs).length = [ch].length + bs.length := Nat.add_comm ..
  refine ⟨⟨_, _, _, hs'.trans (by rw [hs₁])⟩, ?_, ?_, h'.circular, ?_⟩
  · rw [h'.count, h.count, Nat.add_assoc, hlen]
  · rw [h'.last, h.last, Nat.mod_add_mod, Nat.add_assoc, hlen]
  · rw [h'.unsent, h.unsent, List.append_assoc, List.singleton_append]

/-- The number of rounds: the bytes left, or the room for them. -/
def rounds (s : Sio) (length copied : Int) : Nat :=
  min (length - copied).toNat (bufSize - s.outcount)

/-- The loop takes as many bytes as there is room for. -/
theorem sioWritesLoop_spec (m : Mem) (length : Int) : ∀ (fuel : Nat) (s : Sio) (ptr : Word)
    (copied : Int), bufSize - s.outcount ≤ fuel → Circular s → s.outlast < bufSize →
    ∃ s', sioWritesLoop m length fuel s ptr copied = (s', copied + rounds s length copied)
      ∧ Queued s (bytes m ptr (rounds s length copied)) s' := by
  intro fuel
  induction fuel with
  | zero =>
      intro s ptr copied hf hc hin
      have hn : rounds s length copied = 0 := by
        unfold rounds
        omega
      rw [hn, Nat.cast_zero, add_zero]
      exact ⟨s, rfl, .nil hc hin⟩
  | succ fuel ih =>
      intro s ptr copied hf hc hin
      rw [sioWritesLoop]
      split
      · rename_i hmore
        have hlt : (s.outlast + 1) % bufSize < bufSize := Nat.mod_lt _ (by decide)
        obtain ⟨hc₁, hu₁⟩ := hc.put hmore.2 hin (m ptr) _ hlt.le (Nat.mod_mod ..)
        have hq : Queued s [m ptr] _ := ⟨⟨_, _, _, rfl⟩, rfl, rfl, hc₁, hu₁⟩
        obtain ⟨s', hloop, hq'⟩ := ih _ (ptr + 1) (copied + 1) (by simp only; omega) hc₁ hlt
        have hn : rounds s length copied = rounds { s with
            outbuffer := update s.outbuffer s.outlast (m ptr)
            outlast := (s.outlast + 1) % bufSize
            outcount := s.outcount + 1 } length (copied + 1) + 1 := by
          unfold rounds
          simp only
          omega
        refine ⟨s', ?_, ?_⟩
        · simp only [wrap_eq_mod hin]
          rw [hloop, hn, Nat.cast_add, Nat.cast_one, add_assoc, add_comm (1 : Int)]
        · rw [hn, bytes_succ]
          exact hq.cons hq'
      · rename_i hmore
        have hn : rounds s length copied = 0 := by
          have := hc.bound
          unfold rounds
          omega
        rw [hn, Nat.cast_zero, add_zero]
        exact ⟨s, rfl, .nil hc hin⟩

/-- Without room, or without bytes, the loop does nothing. -/
theorem sioWritesLoop_none (m : Mem) {length copied : Int} (fuel : Nat) (ptr : Word)
    (hn : ¬(copied < length ∧ s.outcount < bufSize)) :
    sioWritesLoop m length fuel s ptr copied = (s, copied) := by
  cases fuel with
  | zero => rfl
  | succ fuel => rw [sioWritesLoop, if_neg hn]

/-- The loop stays inside the buffer if it starts there. -/
theorem writesOffsets_inside (length : Int) : ∀ (fuel : Nat) (s : Sio) (copied : Int),
    s.outlast < bufSize → ∀ i ∈ writesOffsets length fuel s copied, i < bufSize := by
  intro fuel
  induction fuel with
  | zero => exact fun _ _ _ i hi => absurd hi List.not_mem_nil
  | succ fuel ih =>
      intro s copied hin i hi
      rw [writesOffsets] at hi
      split at hi
      · rcases List.mem_cons.mp hi with rfl | hi
        · exact hin
        · refine ih _ _ ?_ i hi
          rw [wrap_eq_mod hin]
          exact Nat.mod_lt _ (by decide)
      · cases hi

theorem writesOffsets_iff {length copied : Int} :
    (∀ i ∈ writesOffsets length bufSize s copied, i < bufSize)
      ↔ (copied < length ∧ s.outcount < bufSize → s.outlast < bufSize) := by
  constructor
  · intro h hmore
    refine h s.outlast ?_
    rw [writesOffsets, if_pos hmore]
    exact List.mem_cons_self
  · intro h
    by_cases hmore : copied < length ∧ s.outcount < bufSize
    · exact writesOffsets_inside _ _ _ _ (h hmore)
    · rw [writesOffsets, if_neg hmore]
      exact fun i hi => absurd hi List.not_mem_nil

/-! ## Simulation -/

/-- Switching interrupts on or off touches the register only. -/
theorem setIer_rest (s : Sio) (x : Byte) :
    ∃ ier reg, setIer s x = { s with ier := ier, ierReg := reg } := by
  rw [setIer]
  split
  · exact ⟨_, _, rfl⟩
  · exact ⟨_, _, rfl⟩

theorem sioEnable_rest (s : Sio) (which : Byte) :
    ∃ ier reg, sioEnable s which = { s with ier := ier, ierReg := reg } :=
  setIer_rest ..

theorem sioDisable_rest (s : Sio) (which : Byte) :
    ∃ ier reg, sioDisable s which = { s with ier := ier, ierReg := reg } :=
  setIer_rest ..

theorem sioTransmit_next (hs : s.sending = true) (hnext : s.outnext < bufSize)
    (hplace : s.outlast % bufSize = (s.outnext + s.outcount) % bufSize) {n : Nat}
    (hn : s.outcount = n + 1) :
    ∃ outnext, sioTransmit s
        = { s with txd := s.txd ++ [s.outbuffer s.outnext], outnext := outnext, outcount := n }
      ∧ outnext < bufSize ∧ s.outlast % bufSize = (outnext + n) % bufSize
      ∧ unsent s = s.outbuffer s.outnext :: ring bufSize s.outbuffer outnext n := by
  have hmore : s.sending = true ∧ 0 < s.outcount := ⟨hs, by omega⟩
  refine ⟨(s.outnext + 1) % bufSize, ?_, Nat.mod_lt _ (by decide), ?_, ?_⟩
  · rw [sioTransmit, if_pos hmore]
    simp only [wrap_eq_mod hnext, hn, Nat.add_sub_cancel]
  · rw [hplace, Nat.mod_add_mod, hn, Nat.add_assoc, Nat.add_comm 1]
  · rw [unsent, hn, ring_pop, Nat.mod_eq_of_lt hnext]

theorem sioTransmit_idle (h : ¬(s.sending = true ∧ 0 < s.outcount)) :
    ∃ ier reg, sioTransmit s = { s with
      outcount := 0
      outlast := 0
      outnext := 0
      sending := false
      ier := ier
      ierReg := reg } := by
  rw [sioTransmit, if_neg h]
  exact sioDisable_rest ..

/-- The output side as it should be at these positions. -/
structure Sending (s : Sio) (accepted : List Byte) (p : OutPos) : Prop where
  circular : Circular s
  busy : s.sending = p.busy
  count : s.outcount = p.pending
  last : s.outlast = p.cell
  idle : s.sending = false → s.outcount = 0 ∧ s.outlast = 0
  contents : s.txd ++ unsent s = accepted

theorem sending_init : Sending sioInit [] .idle :=
  ⟨⟨by decide, Nat.zero_le _, Nat.zero_le _, rfl⟩, rfl, rfl, rfl, fun _ => ⟨rfl, rfl⟩, rfl⟩

theorem Sending.delivering (h : Sending s accepted p) : Delivering s accepted := by
  refine ⟨⟨_, h.contents⟩, ?_, h.circular.bound⟩
  rw [← h.contents, List.length_append, unsent, ring_length]

/-- A byte for an idle transmitter, after `bs` were put into the buffer. -/
theorem Sending.prime {s' : Sio} {ch : Byte} {bs : List Byte} {q : OutPos}
    (h : Sending s accepted p) (hs : s.sending = false) (hq : Queued s bs s') (hch : ch ≠ 10)
    (hp : q = ⟨true, s'.outcount, s'.outlast⟩) :
    Sending (sioWritec s' ch) (accepted ++ (ch :: bs)) q := by
  obtain ⟨_, _, _, hs'⟩ := hq.same
  have hidle : s'.sending = false := by rw [hs', hs]
  have htxd : s'.txd = accepted := by
    rw [hs', ← h.contents, unsent, (h.idle hs).1, ring_zero, List.append_nil]
  have hun : unsent s' = bs := by
    rw [hq.unsent, unsent, (h.idle hs).1, ring_zero, List.nil_append]
  rw [sioWritec, if_neg hch, sioPut, if_neg (by rw [hidle]; decide)]
  obtain ⟨ier, reg, heq⟩ := sioEnable_rest { s' with sending := true, txd := s'.txd ++ [ch] } sioTx
  have hc := hq.circular
  rw [heq, hp]
  refine ⟨⟨hc.next, hc.bound, hc.last, hc.place⟩, rfl, rfl, rfl, fun hc => Bool.noConfusion hc, ?_⟩
  show s'.txd ++ [ch] ++ unsent s' = accepted ++ ch :: bs
  rw [htxd, hun, List.append_assoc, List.singleton_append]

theorem Sending.writec (h : Sending s accepted p) {ch : Byte} (hch : ch ≠ 10)
    (hroom : p.Room (.writec ch)) :
    Sending (sioWritec s ch) (accepted ++ [ch]) (p.exec (.writec ch)) := by
  rw [OutPos.exec]
  cases hs : s.sending with
  | false =>
      rw [if_neg (by rw [← h.busy, hs]; decide)]
      refine h.prime hs (.nil h.circular ?_) hch (by rw [h.count, h.last])
      rw [(h.idle hs).2]
      decide
  | true =>
      rw [if_pos (by rw [← h.busy, hs])]
      obtain ⟨hlt, hin⟩ := hroom (by rw [← h.busy, hs])
      rw [← h.count] at hlt
      rw [← h.last] at hin
      obtain ⟨hc, hu⟩ := h.circular.put hlt hin ch (s.outlast + 1) hin rfl
      rw [sioWritec, if_neg hch, sioPut, if_pos hs]
      refine ⟨hc, hs, congrArg (· + 1) h.count, congrArg (· + 1) h.last,
        fun hc => absurd (hs.symm.trans hc) (by decide), ?_⟩
      rw [hu, ← List.append_assoc, ← h.contents]

theorem Sending.transmit (h : Sending s accepted p) :
    Sending (sioTransmit s) accepted (p.exec .transmit) := by
  have hc := h.circular
  rw [OutPos.exec, ← h.busy, ← h.count, ← h.last]
  by_cases hmore : s.sending = true ∧ 0 < s.outcount
  · obtain ⟨n, hn⟩ : ∃ n, s.outcount = n + 1 := ⟨s.outcount - 1, by omega⟩
    obtain ⟨outnext, heq, hlt, hplace, hun⟩ := sioTransmit_next hmore.1 hc.next hc.place hn
    have hbound : n ≤ bufSize := by
      have := hc.bound
      omega
    rw [if_pos hmore, heq, hn, Nat.add_sub_cancel]
    refine ⟨⟨hlt, hbound, hc.last, hplace⟩, hmore.1, rfl, rfl,
      fun hf => absurd (hmore.1.symm.trans hf) (by decide), ?_⟩
    rw [← h.contents, hun, List.append_assoc, List.singleton_append]
    rfl
  · obtain ⟨ier, reg, heq⟩ := sioTransmit_idle hmore
    have hz : s.outcount = 0 := by
      cases hs : s.sending with
      | false => exact (h.idle hs).1
      | true => rw [hs] at hmore; simp only [true_and] at hmore; omega
    rw [if_neg hmore, heq]
    refine ⟨⟨show 0 < bufSize by decide, Nat.zero_le _, Nat.zero_le _, rfl⟩, rfl, rfl, rfl,
      fun _ => ⟨rfl, rfl⟩, ?_⟩
    rw [← h.contents, unsent, unsent, hz]
    rfl

/-- The bytes of a call that finds the transmitter busy. -/
theorem Sending.queue {s' : Sio} {bs : List Byte} (h : Sending s accepted p)
    (hs : s.sending = true) (hq : Queued s bs s') :
    Sending s' (accepted ++ bs) ⟨true, s'.outcount, s'.outlast⟩ := by
  obtain ⟨_, _, _, hs'⟩ := hq.same
  have hs1 : s'.sending = true := by rw [hs', hs]
  refine ⟨hq.circular, hs1, rfl, rfl, fun hc => absurd (hs1.symm.trans hc) (by decide), ?_⟩
  rw [hq.unsent, ← List.append_assoc, ← h.contents, show s'.txd = s.txd by rw [hs']]

theorem Sending.writes_busy (h : Sending s accepted p) (hs : s.sending = true) (m : Mem)
    (buffer : Word) {length : Int} (hlen : 0 < length)
    (hroom : p.Room (.writes m buffer length)) :
    Sending (sioWrites s m buffer length).2
      (accepted ++ bytes m buffer (sioWrites s m buffer length).1.toNat)
      (p.exec (.writes m buffer length)) := by
  have hbusy : p.busy = true := h.busy.symm.trans hs
  have hn : p.queued length = rounds s length 0 := by
    simp only [OutPos.queued, rounds, hbusy, ↓reduceIte, h.count, sub_zero]
  simp only [sioWrites, hs, ↓reduceIte, OutPos.exec, hn]
  by_cases hlt : s.outcount < bufSize
  · have hin : s.outlast < bufSize := by
      rw [h.last]
      exact hroom hbusy (h.count ▸ hlt)
    obtain ⟨s', hloop, hq⟩ := sioWritesLoop_spec m length bufSize s buffer 0 (Nat.sub_le ..)
      h.circular hin
    have hpos : rounds s length 0 ≠ 0 := by
      unfold rounds
      omega
    rw [hloop, zero_add, Int.toNat_natCast, if_neg hpos]
    have := h.queue hs hq
    rwa [hq.count, hq.last, bytes_length, h.count, h.last] at this
  · have hzero : rounds s length 0 = 0 := by
      unfold rounds
      omega
    rw [sioWritesLoop_none m bufSize buffer fun hc => hlt hc.2, hzero, if_pos rfl, ← h.count,
      ← h.last]
    exact ⟨h.circular, hs, rfl, rfl, h.idle, h.contents.trans (List.append_nil _).symm⟩

theorem Sending.writes_idle (h : Sending s accepted p) (hs : s.sending = false) (m : Mem)
    (buffer : Word) {length : Int} (hch : m buffer ≠ 10) :
    Sending (sioWrites s m buffer length).2
      (accepted ++ bytes m buffer (sioWrites s m buffer length).1.toNat)
      (p.exec (.writes m buffer length)) := by
  have hbusy : p.busy = false := h.busy.symm.trans hs
  have hn : p.queued length = rounds s length 1 := by
    simp only [OutPos.queued, rounds, hbusy, h.count, Bool.false_eq_true, ↓reduceIte]
  obtain ⟨hcount, hlast⟩ := h.idle hs
  have hin : s.outlast < bufSize := by
    rw [hlast]
    decide
  obtain ⟨s', hloop, hq⟩ := sioWritesLoop_spec m length bufSize s (buffer + 1) 1 (Nat.sub_le ..)
    h.circular hin
  have hcopied : ((1 : Int) + rounds s length 1).toNat = rounds s length 1 + 1 := by omega
  simp only [sioWrites, hs, OutPos.exec, hn, Bool.false_eq_true, ↓reduceIte]
  rw [hloop, hcopied, bytes_succ]
  refine h.prime hs hq hch ?_
  rw [hq.count, hq.last, bytes_length, h.count, h.last]
  rcases Nat.eq_zero_or_pos (rounds s length 1) with hz | hz
  · rw [hz, if_pos rfl, Nat.add_zero, Nat.add_zero, Nat.mod_eq_of_lt (h.last ▸ hin)]
  · rw [if_neg hz.ne']

theorem Sending.exec (h : Sending s accepted p) {op : OutOp} (hplain : op.Plain)
    (hroom : p.Room op) : Sending (op.exec s) (accepted ++ op.accepts s) (p.exec op) := by
  cases op with
  | writec ch => exact h.writec hplain hroom
  | writes m buffer length =>
      cases hs : s.sending with
      | false =>
          refine h.writes_idle hs m buffer ?_
          have := hplain.2 0 (by exact_mod_cast hplain.1)
          rwa [BitVec.add_zero] at this
      | true => exact h.writes_busy hs m buffer hplain.1 hroom
  | transmit =>
      rw [OutOp.accepts, List.append_nil]
      exact h.transmit

theorem Sending.inside (h : Sending s accepted p) {op : OutOp} (hroom : p.Room op) :
    op.Inside s := by
  cases op with
  | writec ch =>
      intro hs
      rw [h.last]
      exact (hroom (h.busy.symm.trans hs)).2
  | writes m buffer length =>
      refine writesOffsets_iff.mpr fun hmore => ?_
      cases hs : s.sending with
      | false =>
          rw [(h.idle hs).2]
          decide
      | true =>
          rw [h.last]
          exact hroom (h.busy.symm.trans hs) (h.count ▸ hmore.2)
  | transmit => exact fun _ => h.circular.next

/-- An operation that stays inside the buffer and the bound had room. -/
theorem Sending.room (h : Sending s accepted p) {op : OutOp} (hplain : op.Plain)
    (hin : op.Inside s) (hbound : (op.exec s).outcount ≤ bufSize) : p.Room op := by
  cases op with
  | writec ch =>
      intro hbusy
      have hs : s.sending = true := h.busy.trans hbusy
      rw [OutOp.exec, sioWritec, if_neg hplain, sioPut, if_pos hs] at hbound
      rw [← h.count, ← h.last]
      exact ⟨hbound, hin hs⟩
  | writes m buffer length =>
      intro hbusy hlt
      have hs : s.sending = true := h.busy.trans hbusy
      rw [← h.last]
      refine writesOffsets_iff.mp hin ⟨?_, h.count ▸ hlt⟩
      rw [if_pos hs]
      exact hplain.1
  | transmit => trivial

theorem OutputFifo.delivering {ops : List OutOp} (h : OutputFifo s accepted ops) :
    Delivering s accepted := by
  cases ops with
  | nil => exact h
  | cons op ops => exact h.1

theorem Sending.fifo (h : Sending s accepted p) {ops : List OutOp}
    (hplain : ∀ op ∈ ops, op.Plain) : OutputFifo s accepted ops ↔ p.Fits ops := by
  induction ops generalizing s accepted p with
  | nil => exact iff_of_true h.delivering trivial
  | cons op ops ih =>
      have hop := hplain op List.mem_cons_self
      have hrest : ∀ op ∈ ops, op.Plain := fun o ho => hplain o (List.mem_cons_of_mem _ ho)
      rw [OutputFifo, OutPos.Fits]
      constructor
      · rintro ⟨-, hin, hnext⟩
        have hroom := h.room hop hin hnext.delivering.bound
        exact ⟨hroom, (ih (h.exec hop hroom) hrest).mp hnext⟩
      · rintro ⟨hroom, hnext⟩
        exact ⟨h.delivering, h.inside hroom, (ih (h.exec hop hroom) hrest).mpr hnext⟩

/-- From initialisation on, the output side is a queue inside its buffer
exactly as long as every byte queued by `_sio_writec` finds a free cell,
and no byte is queued after one that `_sio_writec` put into the last
cell. -/
theorem serial_output_fifo_iff {ops : List OutOp} (hplain : ∀ op ∈ ops, op.Plain) :
    OutputFifo sioInit [] ops ↔ OutPos.idle.Fits ops :=
  sending_init.fifo hplain

/-- Two bytes, the second of them pending when the transmitter asks. -/
theorem serial_output_fifo_two :
    OutputFifo sioInit [] [.writec 97, .writec 98, .transmit] := by
  refine (serial_output_fifo_iff fun op hop => ?_).mpr ?_
  · simp only [List.mem_cons, List.not_mem_nil, or_false] at hop
    rcases hop with rfl | rfl | rfl
    · exact show (97 : Byte) ≠ 10 by decide
    · exact show (98 : Byte) ≠ 10 by decide
    · trivial
  · simp [OutPos.Fits, OutPos.Room, OutPos.exec, OutPos.idle]

/-- Bytes written to a busy transmitter that never asks fill the buffer. -/
theorem outFits_replicate {ch : Byte} {ops : List OutOp} (n : Nat) : ∀ i, i + n ≤ bufSize →
    (OutPos.Fits ⟨true, i, i⟩ (List.replicate n (.writec ch) ++ ops)
      ↔ OutPos.Fits ⟨true, i + n, i + n⟩ ops) := by
  induction n with
  | zero => exact fun _ _ => Iff.rfl
  | succ n ih =>
      intro i hi
      have hlt : i < bufSize := by omega
      have := ih (i + 1) (by omega)
      rw [Nat.add_right_comm, Nat.add_assoc] at this
      rw [List.replicate_succ, List.cons_append, OutPos.Fits, OutPos.Room, OutPos.exec, ← this]
      simp only [hlt, and_self, implies_true, true_and, ↓reduceIte]

/-- After the byte sent at once and 2048 pending ones, the next is stored
past the end of `_outbuffer`. -/
theorem serial_output_overrun :
    ¬OutputFifo sioInit [] (.writec 97 :: (List.replicate 2048 (.writec 97) ++ [.writec 97])) := by
  have hplain : ∀ op ∈ OutOp.writec 97 :: (List.replicate 2048 (.writec 97) ++ [.writec 97]),
      op.Plain := by
    intro op hop
    simp only [List.mem_cons, List.mem_append, List.mem_replicate, List.not_mem_nil,
      or_false] at hop
    have : op = .writec 97 := by tauto
    rw [this]
    exact show (97 : Byte) ≠ 10 by decide
  rw [sending_init.fifo hplain]
  rintro ⟨-, h⟩
  obtain ⟨hroom, -⟩ := (outFits_replicate 2048 0 (Nat.le_refl _)).mp h
  exact absurd (hroom rfl).2 (by decide)

/-! ## The transmitter interrupt -/

/-- What can happen to the output side and the interrupt enables. -/
inductive LineOp where
  | enableRx
  | disableRx
  | writec (ch : Byte)
  | writes (m : Mem) (buffer : Word) (length : Int)
  | puts (m : Mem) (buffer : Word)
  | transmit

def lineStep (s : Sio) : LineOp → Except Fault Sio
  | .enableRx => .ok (sioEnable s sioRx)
  | .disableRx => .ok (sioDisable s sioRx)
  | .writec ch => .ok (sioWritec s ch)
  | .writes m buffer length => .ok (sioWrites s m buffer length).2
  | .puts m buffer => Prod.snd <$> sioPuts s m buffer
  | .transmit => .ok (sioTransmit s)

/-- The register holds what `_ier` says, its transmit bit is set exactly
while `_sending`, and pending bytes are being sent. -/
structure Driven (s : Sio) : Prop where
  shadow : s.ierReg = s.ier
  bit : s.ier &&& 0x02 ≠ 0 ↔ s.sending
  busy : 0 < s.outcount → s.sending

/-- A new register value, and the flag that goes with it. -/
theorem driven_setIer {x : Byte} (hs : s.ierReg = s.ier) (hbit : x &&& 0x02 ≠ 0 ↔ s.sending)
    (hbusy : 0 < s.outcount → s.sending) : Driven (setIer s x) := by
  rw [setIer]
  split
  · exact ⟨rfl, hbit, hbusy⟩
  · rename_i hx
    rw [not_not] at hx
    exact ⟨hs, hx ▸ hbit, hbusy⟩

theorem Driven.enableRx (h : Driven s) : Driven (sioEnable s sioRx) := by
  refine driven_setIer h.shadow ?_ h.busy
  rw [← h.bit]
  generalize s.ier = x
  revert x
  decide

theorem Driven.disableRx (h : Driven s) : Driven (sioDisable s sioRx) := by
  refine driven_setIer h.shadow ?_ h.busy
  rw [← h.bit]
  generalize s.ier = x
  revert x
  decide

/-- The first byte switches the transmitter interrupt on, whatever is
pending. -/
theorem driven_put (hs : s.ierReg = s.ier) (hbit : s.ier &&& 0x02 ≠ 0 ↔ s.sending) (ch : Byte) :
    Driven (sioPut s ch) := by
  rw [sioPut]
  split
  · rename_i hsend
    exact ⟨hs, hbit, fun _ => hsend⟩
  · refine driven_setIer hs (iff_of_true ?_ rfl) fun _ => rfl
    generalize s.ier = x
    revert x
    decide

theorem driven_writec (hs : s.ierReg = s.ier) (hbit : s.ier &&& 0x02 ≠ 0 ↔ s.sending) (ch : Byte) :
    Driven (sioWritec s ch) := by
  have h := driven_put hs hbit
  rw [sioWritec]
  split
  · exact driven_put (h 13).shadow (h 13).bit ch
  · exact h ch

/-- The loop of `_sio_writes` leaves the register and the flag alone. -/
theorem sioWritesLoop_rest (m : Mem) (length : Int) : ∀ (fuel : Nat) (s : Sio) (ptr : Word)
    (copied : Int), ∃ outbuffer outlast outcount, (sioWritesLoop m length fuel s ptr copied).1
      = { s with outbuffer := outbuffer, outlast := outlast, outcount := outcount } := by
  intro fuel
  induction fuel with
  | zero => exact fun s _ _ => ⟨_, _, _, rfl⟩
  | succ fuel ih =>
      intro s ptr copied
      rw [sioWritesLoop]
      split
      · obtain ⟨b, l, c, heq⟩ := ih _ (ptr + 1) (copied + 1)
        exact ⟨b, l, c, heq⟩
      · exact ⟨_, _, _, rfl⟩

theorem Driven.writes (h : Driven s) (m : Mem) (buffer : Word) (length : Int) :
    Driven (sioWrites s m buffer length).2 := by
  rw [sioWrites]
  cases hs : s.sending with
  | false =>
      obtain ⟨b, l, c, heq⟩ := sioWritesLoop_rest m length bufSize s (buffer + 1) 1
      simp only [Bool.false_eq_true, ↓reduceIte]
      rw [heq]
      refine driven_writec ?_ ?_ _
      · exact h.shadow
      · exact h.bit
  | true =>
      obtain ⟨b, l, c, heq⟩ := sioWritesLoop_rest m length bufSize s buffer 0
      simp only [↓reduceIte]
      rw [heq]
      exact ⟨h.shadow, h.bit, fun _ => hs⟩

theorem Driven.puts (m : Mem) : ∀ (fuel : Nat) {s : Sio} {buffer : Word} {n : Nat}
    {r : Nat × Sio}, Driven s → sioPutsLoop m fuel s buffer n = .ok r → Driven r.2 := by
  intro fuel
  induction fuel with
  | zero => exact fun _ hr => by cases hr
  | succ fuel ih =>
      intro s buffer n r h hr
      rw [sioPutsLoop] at hr
      split at hr
      · obtain rfl := Except.ok.inj hr
        exact h
      · exact ih (driven_writec h.shadow h.bit _) hr

theorem Driven.transmit (h : Driven s) : Driven (sioTransmit s) := by
  rw [sioTransmit]
  split
  · rename_i hmore
    exact ⟨h.shadow, h.bit, fun _ => hmore.1⟩
  · refine driven_setIer h.shadow (iff_of_false ?_ Bool.false_ne_true)
      fun hc => absurd hc (Nat.lt_irrefl 0)
    generalize s.ier = x
    revert x
    decide

theorem Driven.step {op : LineOp} {s' : Sio} (h : Driven s) (hst : lineStep s op = .ok s') :
    Driven s' := by
  cases op with
  | enableRx => exact Except.ok.inj hst ▸ h.enableRx
  | disableRx => exact Except.ok.inj hst ▸ h.disableRx
  | writec ch => exact Except.ok.inj hst ▸ driven_writec h.shadow h.bit ch
  | writes m buffer length => exact Except.ok.inj hst ▸ h.writes m buffer length
  | puts m buffer =>
      rw [lineStep, sioPuts] at hst
      cases hr : sioPutsLoop m (2 ^ 32 + 1) s buffer 0 with
      | error f =>
          rw [hr] at hst
          cases hst
      | ok r =>
          rw [hr] at hst
          exact Except.ok.inj hst ▸ Driven.puts m _ h hr
  | transmit => exact Except.ok.inj hst ▸ h.transmit

/-- With a buffer without end, in every state the device can get into,
pending bytes are being sent and the hardware is set up for it. -/
theorem transmitter_driven {tr : List (Sio × LineOp)} (hrun : Steps lineStep sioInit tr s) :
    Driven s :=
  hrun.inv (fun _ _ _ h hst => h.step hst) ⟨rfl, by decide, fun hc => absurd hc (Nat.lt_irrefl 0)⟩

end SpKernel
