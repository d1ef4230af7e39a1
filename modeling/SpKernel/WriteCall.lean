import SpKernel.Lib.Trace
import SpKernel.SerialStreams
import SpKernel.Runs

/-!
# `write` to the serial line

`_sys_write` hands its buffer to `_sio_writes` and returns the size it
was asked for, whatever `_sio_writes` made of it. `Reports` says that the
value returned is the number of bytes that were accepted, and `Fits` when
that is so: the bytes fit into the buffer, at least one of them if the
transmitter is idle, which sends the first byte in any case.

What was accepted is read off the stream of the line before and after the
call (`Accepted`); for an idle transmitter that is the bytes in the order
in which they go out, a rearrangement of those in the buffer
(`primed_perm`). `reports_iff_fits` is the equivalence for one call, from
any sound state of the output side.

A run is made of `write` calls and transmitter interrupts, with anything
in between that leaves the output side alone (`LineUse`). A call that
fits leaves the output side sound, and one that does not may not, so
`write_reports_iff` is by `Steps.forall_iff` of the library: all calls of
a run report the truth exactly if all of them fit. `write_misreports` has
the two ways to fail: too many bytes, and none for an idle transmitter,
which sends one all the same.
-/

namespace SpKernel

open Lib

/-! ## Definitions -/

/-- The first `j` bytes of the buffer were accepted and nothing else: they
are what the line sends more than before, with the CR that the mapping puts
before a first LF. -/
def Accepted (s s' : Sio) (m : Mem) (buf : Word) (j : Nat) : Prop :=
  ∃ old added, Sends s old ∧ Sends s' (old ++ added)
    ∧ added.Perm ((if s.sending = false ∧ m buf = 10 then [13] else []) ++ bytes m buf j)

/-- `write` by `p` to the serial line returns the number of bytes it
accepted, each of them in a cell of the buffer or sent. -/
def Reports (k : Kernel) (p : PcbId) : Prop :=
  k.arg p 1 = 1 → ∃ k' j, sysWrite k p = .ok k' ∧ (k'.pcbs p).context.regs.eax.toInt = (j : Nat)
    ∧ Accepted k.sio k'.sio k.mm.mem (k.arg p 2) j
    ∧ (OutOp.writes k.mm.mem (k.arg p 2) (k.arg p 3).toInt).Inside k.sio

/-- The size fits. A busy transmitter: the bytes fit into the room that is
left, and the next cell is not the one past the end. An idle one: there is a
first byte, and if it is an LF it finds a cell behind the others. -/
def Fits (k : Kernel) (p : PcbId) : Prop :=
  let size := (k.arg p 3).toInt
  let buf := k.arg p 2
  k.arg p 1 = 1 →
    if k.sio.sending then
      0 ≤ size ∧ size ≤ (bufSize - k.sio.outcount : Nat) ∧ (0 < size → k.sio.outlast < bufSize)
    else
      1 ≤ size ∧ size ≤ bufSize + 1
        ∧ (size = bufSize + 1 → k.mm.mem buf = 10 → k.mm.mem (buf + 1) = 10)

/-- What can happen to the output side: a `write`, a transmitter interrupt,
and what leads to any state with the output side as it was. -/
inductive LineUse where
  | write (p : PcbId)
  | transmit
  | other (k' : Kernel)

/-- The output side of `s` with the rest of `t`. -/
def Sio.outputOf (t s : Sio) : Sio :=
  { t with
    outbuffer := s.outbuffer
    outlast := s.outlast
    outnext := s.outnext
    outcount := s.outcount
    sending := s.sending
    txd := s.txd }

def lineUse (k : Kernel) : LineUse → Except Fault Kernel
  | .write p => sysWrite k p
  | .transmit => .ok { k with sio := sioTransmit k.sio }
  | .other k' => .ok { k' with sio := k'.sio.outputOf k.sio }

/-- Every `write` returns what it accepted. -/
def LineUse.Reports (k : Kernel) : LineUse → Prop
  | .write p => SpKernel.Reports k p
  | _ => True

def LineUse.Fits (k : Kernel) : LineUse → Prop
  | .write p => SpKernel.Fits k p
  | _ => True

/-! ## What was accepted -/

section Primed

variable {m : Mem} {buffer : Word} {k : Nat}

theorem length_primed : (primed m buffer k).length
    = (if m buffer = 10 then [13] else ([] : List Byte)).length + (k + 1) := by
  unfold primed
  by_cases hch : m buffer = 10
  · rw [if_pos hch, if_pos hch]
    split
    · simp only [List.length_cons, List.length_append, bytes_length, List.length_nil]
      omega
    · have hbuf : bufSize = 2048 := rfl
      simp only [List.length_cons, List.length_append, bytes_length, List.length_nil]
      omega
  · rw [if_neg hch, if_neg hch]
    simp only [List.length_cons, bytes_length, List.length_nil, Nat.zero_add]

/-- The first byte and `k` queued ones are there, unless the first one is an
LF that overwrote another byte. -/
theorem primed_perm (hk : k ≤ bufSize) :
    (primed m buffer k).Perm ((if m buffer = 10 then [13] else []) ++ bytes m buffer (k + 1))
      ↔ (k = bufSize → m buffer = 10 → m (buffer + 1) = 10) := by
  have hfirst : bytes m buffer (k + 1) = m buffer :: bytes m (buffer + 1) k := bytes_succ ..
  unfold primed
  rw [hfirst]
  by_cases hch : m buffer = 10
  · simp only [hch, ↓reduceIte, List.singleton_append, true_implies]
    by_cases hlt : k < bufSize
    · rw [if_pos hlt]
      refine iff_of_true (List.Perm.cons 13 ?_) fun he => absurd he hlt.ne
      exact (@List.perm_append_comm _ _ [10]).trans (List.Perm.refl _)
    · obtain rfl : k = bufSize := by omega
      have hsecond : bytes m (buffer + 1) bufSize
          = m (buffer + 1) :: bytes m (buffer + 1 + 1) (bufSize - 1) := bytes_succ ..
      rw [if_neg hlt, hsecond, List.perm_cons, List.perm_cons]
      generalize bytes m (buffer + 1 + 1) (bufSize - 1) = rest
      rw [List.perm_append_comm.congr_left]
      show ([10] ++ rest).Perm ([m (buffer + 1)] ++ rest) ↔ _
      rw [List.perm_append_right_iff, List.singleton_perm_singleton, eq_comm]
      exact ⟨fun he _ => he, fun he => he rfl⟩
  · simp only [if_neg hch, List.nil_append]
    exact iff_of_true (List.Perm.refl _) fun _ he => absurd he hch

end Primed

/-! ## One call -/

section Call

variable {k : Kernel} {p : PcbId}

/-- The call returns the size and leaves what `_sio_writes` makes of the
output side. -/
theorem sysWrite_sio (hchan : k.arg p 1 = 1) :
    ∃ k', sysWrite k p = .ok k' ∧ (k'.pcbs p).context.regs.eax = k.arg p 3
      ∧ k'.sio = (sioWrites k.sio k.mm.mem (k.arg p 2) (k.arg p 3).toInt).2 := by
  have hcall : sysWrite k p = .ok (({ k with
      sio := (sioWrites k.sio k.mm.mem (k.arg p 2) (k.arg p 3).toInt).2 } : Kernel).setRet p
        (k.arg p 3)) := by
    simp only [sysWrite, hchan]
    rw [if_neg (by decide), if_pos trivial]
  refine ⟨_, hcall, ?_, rfl⟩
  simp [Kernel.setRet, Kernel.setPcb]

/-- The stream of a sound state that stays sound: what was accepted. -/
theorem accepted_iff {s s' : Sio} {m : Mem} {buf : Word} {j : Nat} {added : List Byte}
    (h : OutputSound s) (h' : OutputSound s') (hadd : stream s' = stream s ++ added) :
    Accepted s s' m buf j ↔ added.Perm
      ((if s.sending = false ∧ m buf = 10 then [13] else []) ++ bytes m buf j) := by
  constructor
  · rintro ⟨old, more, hold, hnew, hperm⟩
    rw [h.sends_iff] at hold
    rw [h'.sends_iff, hold, hadd, List.append_cancel_left_eq] at hnew
    rwa [← hnew]
  · intro hperm
    exact ⟨stream s, added, h.sends, hadd ▸ h'.sends, hperm⟩

theorem reports_busy (h : OutputSound k.sio) (hchan : k.arg p 1 = 1)
    (hs : k.sio.sending = true) : Reports k p ↔ Fits k p := by
  obtain ⟨k', hk', heax, hsio⟩ := sysWrite_sio hchan
  have hinside : (OutOp.writes k.mm.mem (k.arg p 2) (k.arg p 3).toInt).Inside k.sio
      ↔ (0 < (k.arg p 3).toInt ∧ k.sio.outcount < bufSize → k.sio.outlast < bufSize) := by
    rw [OutOp.Inside, hs, if_pos rfl]
    exact writesOffsets_iff
  have hacc : (0 < (k.arg p 3).toInt ∧ k.sio.outcount < bufSize → k.sio.outlast < bufSize) →
      ∀ j, Accepted k.sio k'.sio k.mm.mem (k.arg p 2) j ↔
        (bytes k.mm.mem (k.arg p 2) (rounds k.sio (k.arg p 3).toInt 0)).Perm
          (bytes k.mm.mem (k.arg p 2) j) := by
    intro hin j
    obtain ⟨hsound, -, hstream⟩ := h.writes_busy k.mm.mem (k.arg p 2) (k.arg p 3).toInt hs hin
    rw [← hsio] at hsound hstream
    rw [accepted_iff h hsound hstream, if_neg (by simp [hs]), List.nil_append]
  simp only [Reports, Fits, hchan, hs, true_implies, ↓reduceIte]
  constructor
  · rintro ⟨k'', j, hk'', hret, haccept, hin⟩
    obtain rfl := Except.ok.inj (hk'.symm.trans hk'')
    rw [hinside] at hin
    have hlen := ((hacc hin j).mp haccept).length_eq
    rw [bytes_length, bytes_length] at hlen
    rw [heax] at hret
    unfold rounds at hlen
    omega
  · rintro ⟨hpos, hle, hin⟩
    have hj : ((k.arg p 3).toInt.toNat : Int) = (k.arg p 3).toInt := Int.toNat_of_nonneg hpos
    refine ⟨k', (k.arg p 3).toInt.toNat, hk', ?_, ?_, ?_⟩
    · rw [heax, hj]
    · have hn : rounds k.sio (k.arg p 3).toInt 0 = (k.arg p 3).toInt.toNat := by
        unfold rounds
        omega
      rw [hacc fun hmore => hin hmore.1, hn]
    · rw [hinside]
      exact fun hmore => hin hmore.1

theorem reports_idle (h : OutputSound k.sio) (hchan : k.arg p 1 = 1)
    (hs : k.sio.sending = false) : Reports k p ↔ Fits k p := by
  obtain ⟨k', hk', heax, hsio⟩ := sysWrite_sio hchan
  obtain ⟨hcount, hlast⟩ := h.idle hs
  have hinside : (OutOp.writes k.mm.mem (k.arg p 2) (k.arg p 3).toInt).Inside k.sio := by
    rw [OutOp.Inside]
    exact writesOffsets_inside _ _ _ _ (by rw [hlast]; decide)
  obtain ⟨hsound, -, hstream⟩ := h.writes_idle k.mm.mem (k.arg p 2) (k.arg p 3).toInt hs
  rw [← hsio] at hsound hstream
  have hle : rounds k.sio (k.arg p 3).toInt 1 ≤ bufSize := by
    unfold rounds
    omega
  have hacc : ∀ j, Accepted k.sio k'.sio k.mm.mem (k.arg p 2) j ↔
      (primed k.mm.mem (k.arg p 2) (rounds k.sio (k.arg p 3).toInt 1)).Perm
        ((if k.mm.mem (k.arg p 2) = 10 then [13] else []) ++ bytes k.mm.mem (k.arg p 2) j) := by
    intro j
    rw [accepted_iff h hsound hstream]
    simp only [hs, true_and]
  simp only [Reports, Fits, hchan, hs, true_implies, Bool.false_eq_true, ↓reduceIte]
  constructor
  · rintro ⟨k'', j, hk'', hret, haccept, -⟩
    obtain rfl := Except.ok.inj (hk'.symm.trans hk'')
    rw [hacc] at haccept
    have hlen := haccept.length_eq
    rw [length_primed, List.length_append, bytes_length] at hlen
    rw [heax] at hret
    have hj : j = rounds k.sio (k.arg p 3).toInt 1 + 1 := by omega
    rw [hj, primed_perm hle] at haccept
    refine ⟨by omega, by omega, fun hmax => haccept ?_⟩
    omega
  · rintro ⟨hpos, hmax, hlf⟩
    have hn : rounds k.sio (k.arg p 3).toInt 1 = (k.arg p 3).toInt.toNat - 1 := by
      unfold rounds
      omega
    refine ⟨k', rounds k.sio (k.arg p 3).toInt 1 + 1, hk', ?_, ?_, hinside⟩
    · rw [heax]
      omega
    · rw [hacc, primed_perm hle]
      exact fun hfull => hlf (by omega)

/-- `write` returns the number of bytes it accepted exactly if they fit. -/
theorem reports_iff_fits (h : OutputSound k.sio) : Reports k p ↔ Fits k p := by
  by_cases hchan : k.arg p 1 = 1
  · cases hs : k.sio.sending with
    | false => exact reports_idle h hchan hs
    | true => exact reports_busy h hchan hs
  · exact iff_of_true (fun hc => absurd hc hchan) fun hc => absurd hc hchan

end Call

/-! ## Runs -/

theorem OutputSound.of_outputOf {s t : Sio} (h : OutputSound s) : OutputSound (t.outputOf s) :=
  ⟨h.next, h.last, h.place, h.idle⟩

theorem OutputSound.write {k k' : Kernel} {p : PcbId} (h : OutputSound k.sio) (hfits : Fits k p)
    (hk : sysWrite k p = .ok k') : OutputSound k'.sio := by
  by_cases hchan : k.arg p 1 = 1
  · obtain ⟨k'', hk'', -, hsio⟩ := sysWrite_sio hchan
    obtain rfl := Except.ok.inj (hk.symm.trans hk'')
    rw [hsio]
    cases hs : k.sio.sending with
    | false => exact (h.writes_idle _ _ _ hs).1
    | true =>
        have hf := hfits hchan
        rw [hs, if_pos rfl] at hf
        exact (h.writes_busy _ _ _ hs fun hmore => hf.2.2 hmore.1).1
  · unfold sysWrite at hk
    simp only [hchan, ↓reduceIte] at hk
    split at hk
    · obtain rfl := Except.ok.inj hk
      exact h
    · obtain rfl := Except.ok.inj hk
      exact h

theorem OutputSound.lineUse {k k' : Kernel} {e : LineUse} (h : OutputSound k.sio)
    (hfits : e.Fits k) (hk : lineUse k e = .ok k') : OutputSound k'.sio := by
  cases e with
  | write p => exact h.write hfits hk
  | transmit =>
      obtain rfl := Except.ok.inj hk
      exact h.transmit
  | other k'' =>
      obtain rfl := Except.ok.inj hk
      exact h.of_outputOf

/-- From any sound state of the output side, every `write` of a run returns
the number of bytes it accepted exactly if every one of them fits. -/
theorem write_reports_iff {k₀ k : Kernel} {tr : List (Kernel × LineUse)}
    (h0 : OutputSound k₀.sio) (h : Steps lineUse k₀ tr k) :
    (∀ x ∈ tr, x.2.Reports x.1) ↔ ∀ x ∈ tr, x.2.Fits x.1 := by
  refine h.forall_iff (P := fun k => OutputSound k.sio)
    (fun t e t' ht hfits hst => ht.lineUse hfits hst) (fun t e ht => ?_) h0
  cases e with
  | write p => exact reports_iff_fits ht
  | transmit => exact Iff.rfl
  | other k' => exact Iff.rfl

/-- Process `p` is about to write `size` bytes to an idle line. -/
def writeCall (p : PcbId) (size : Word) : Kernel :=
  (Kernel.zero someImage lowPageUsed).setPcb p fun x => { x with context := callFrame 2 1 0 size }

theorem writeCall_sound (p : PcbId) (size : Word) : OutputSound (writeCall p size).sio := by
  show OutputSound (sioEnable sioInit sioRx)
  exact ⟨by decide, by decide, by decide, fun _ => ⟨rfl, rfl⟩⟩

/-- Two bytes. -/
theorem write_reports_two : ∃ k tr, Steps lineUse (writeCall 0 2) tr k
    ∧ tr.map Prod.snd = [.write 0, .transmit] ∧ ∀ x ∈ tr, x.2.Reports x.1 := by
  obtain ⟨k₁, hk₁, -, -⟩ := sysWrite_sio (k := writeCall 0 2) (p := 0) rfl
  have hfirst : Steps lineUse (writeCall 0 2) ([] ++ [(writeCall 0 2, .write 0)]) k₁ :=
    Steps.refl.tail hk₁
  have hrun : Steps lineUse (writeCall 0 2)
      ([(writeCall 0 2, .write 0)] ++ [(k₁, .transmit)]) { k₁ with sio := sioTransmit k₁.sio } :=
    hfirst.tail rfl
  refine ⟨_, _, hrun, rfl, (write_reports_iff (writeCall_sound 0 2) hrun).mpr fun x hx => ?_⟩
  rcases List.mem_cons.mp hx with rfl | hx
  · exact fun _ => show (1 : Int) ≤ 2 ∧ (2 : Int) ≤ 2048 + 1 ∧ ((2 : Int) = 2048 + 1 → _) by decide
  · rw [List.mem_singleton.mp hx]
    trivial

/-- Of 3000 bytes 2049 are accepted, and of none the first; `write` returns
3000 and 0. -/
theorem write_misreports : ¬Reports (writeCall 0 3000) 0 ∧ ¬Reports (writeCall 0 0) 0 := by
  rw [reports_iff_fits (writeCall_sound 0 3000), reports_iff_fits (writeCall_sound 0 0)]
  constructor
  · intro h
    obtain ⟨-, hle, -⟩ := h rfl
    exact absurd hle (show ¬(3000 : Int) ≤ 2048 + 1 by decide)
  · intro h
    obtain ⟨hpos, -⟩ := h rfl
    exact absurd hpos (show ¬(1 : Int) ≤ 0 by decide)

end SpKernel
