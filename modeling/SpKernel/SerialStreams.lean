import SpKernel.SerialOutput
import SpKernel.Lib.CString

/-!
# What the serial line sends

`stream s` is what has gone to the transmitter and what is pending, in
order. A transmitter interrupt does not change it and takes one pending
byte, so it is what the line sends in the end (`OutputSound.sends`), and
that is one list (`Sends.unique`). `OutputSound` is the invariant of the
output side that this needs: what is pending is a segment of the circular
buffer, and nothing is pending if the transmitter is idle.

`_sio_writec` appends to the stream what the newline mapping `crlf` makes
of its character; `_sio_puts` is a sequence of such calls
(`sioPuts_string`). `_sio_writes` copies bytes into the buffer as they
are and maps at most the first one, after the others are in the buffer
(`OutputSound.writes_idle`).

`writes_same_stream_iff` says when the two ways of sending a string
agree, if there is room for every byte that has to wait: if the string
has no newline and, for an idle transmitter, is not empty, or if it is a
single newline for an idle one (`Alike`). That is an equation between
lists, `crlf` of the string and what the block write sends of it, and
`crlf_eq_self` and `crlf_late` solve it.
-/

namespace SpKernel

open Function (update)
open Lib

/-! ## Definitions -/

/-- What is on the line and what is still to go. -/
def stream (s : Sio) : List Byte := s.txd ++ unsent s

/-- When the transmitter has asked often enough, `bs` has been sent, and
then nothing more. -/
def Sends (s : Sio) (bs : List Byte) : Prop :=
  ∃ enough, ∀ n, enough ≤ n → (sioTransmit^[n] s).txd = bs

/-- Each LF becomes CR LF. -/
def crlf (bs : List Byte) : List Byte := bs.flatMap fun c => if c = 10 then [13, 10] else [c]

/-- The output side as every call leaves it that stays inside the buffer. -/
structure OutputSound (s : Sio) : Prop where
  next : s.outnext < bufSize
  last : s.outlast ≤ bufSize
  place : s.outlast % bufSize = (s.outnext + s.outcount) % bufSize
  idle : s.sending = false → s.outcount = 0 ∧ s.outlast = 0

/-- How many of the bytes have to wait: the first goes out at once if the
transmitter is idle. -/
def waiting (s : Sio) (cs : List Byte) : Nat := cs.length - if s.sending then 0 else 1

/-- There is a free cell for every byte that has to wait. `_sio_writec`
does not wrap around, so the cells are the ones up to the end. -/
def Roomy (s : Sio) (cs : List Byte) : Prop :=
  s.outcount + waiting s cs ≤ bufSize ∧ s.outlast + waiting s cs ≤ bufSize

/-- `_sio_writes` and `_sio_writec` for each character send the same. -/
def SameStream (s : Sio) (m : Mem) (buffer : Word) (bs : List Byte) : Prop :=
  ∃ sent, Sends (sioWrites s m buffer bs.length).2 sent ∧ Sends (bs.foldl sioWritec s) sent

variable {s : Sio}

/-! ## The stream is sent -/

theorem outputSound_init : OutputSound sioInit :=
  ⟨by decide, Nat.zero_le _, rfl, fun _ => ⟨rfl, rfl⟩⟩

namespace OutputSound

theorem circular (h : OutputSound s) (hb : s.outcount ≤ bufSize) : Circular s :=
  ⟨h.next, hb, h.last, h.place⟩

theorem transmit_next (h : OutputSound s) {n : Nat} (hn : s.outcount = n + 1) :
    OutputSound (sioTransmit s) ∧ stream (sioTransmit s) = stream s
      ∧ (sioTransmit s).outcount = n := by
  have hs : s.sending = true := by
    by_contra hf
    have := (h.idle (Bool.eq_false_iff.mpr hf)).1
    omega
  obtain ⟨outnext, heq, hlt, hplace, hun⟩ := sioTransmit_next hs h.next h.place hn
  rw [heq]
  refine ⟨⟨hlt, h.last, hplace, fun hf => absurd (hs.symm.trans hf) (by decide)⟩, ?_, rfl⟩
  rw [stream, stream, hun, List.append_assoc, List.singleton_append]
  rfl

theorem transmit_idle (h : s.outcount = 0) :
    OutputSound (sioTransmit s) ∧ (sioTransmit s).txd = s.txd
      ∧ (sioTransmit s).outcount = 0 := by
  obtain ⟨ier, reg, heq⟩ := sioTransmit_idle (s := s) (by omega)
  rw [heq]
  exact ⟨⟨show 0 < bufSize by decide, Nat.zero_le _, rfl, fun _ => ⟨rfl, rfl⟩⟩, rfl, rfl⟩

theorem transmit (h : OutputSound s) : OutputSound (sioTransmit s) := by
  cases hn : s.outcount with
  | zero => exact (transmit_idle hn).1
  | succ n => exact (h.transmit_next hn).1

theorem txd_idle : ∀ (n : Nat) {s : Sio}, s.outcount = 0 → (sioTransmit^[n] s).txd = s.txd := by
  intro n
  induction n with
  | zero => exact fun _ => rfl
  | succ n ih =>
      intro s h
      obtain ⟨-, htxd, hz⟩ := transmit_idle h
      rw [Function.iterate_succ_apply, ih hz, htxd]

theorem sends (h : OutputSound s) : Sends s (stream s) := by
  obtain ⟨k, hk⟩ : ∃ k, s.outcount = k := ⟨_, rfl⟩
  induction k generalizing s with
  | zero =>
      refine ⟨0, fun n _ => ?_⟩
      rw [txd_idle n hk, stream, unsent, hk, ring_zero, List.append_nil]
  | succ k ih =>
      obtain ⟨hsound, hstream, hcount⟩ := h.transmit_next hk
      obtain ⟨enough, hall⟩ := ih hsound hcount
      refine ⟨enough + 1, fun n hn => ?_⟩
      obtain ⟨n, rfl⟩ : ∃ n', n = n' + 1 := ⟨n - 1, by omega⟩
      rw [Function.iterate_succ_apply, hall n (by omega), hstream]

end OutputSound

theorem Sends.unique {bs cs : List Byte} (h : Sends s bs) (h' : Sends s cs) : bs = cs := by
  obtain ⟨n, hn⟩ := h
  obtain ⟨n', hn'⟩ := h'
  rw [← hn (max n n') (le_max_left ..), hn' (max n n') (le_max_right ..)]

theorem OutputSound.sends_iff (h : OutputSound s) {bs : List Byte} :
    Sends s bs ↔ bs = stream s := by
  refine ⟨fun hb => hb.unique h.sends, fun hb => ?_⟩
  rw [hb]
  exact h.sends

/-! ## Character writes -/

theorem sioPut_idle (hs : s.sending = false) (ch : Byte) :
    ∃ ier reg, sioPut s ch
      = { s with sending := true, txd := s.txd ++ [ch], ier := ier, ierReg := reg } := by
  rw [sioPut, if_neg (by rw [hs]; decide)]
  exact sioEnable_rest _ _

theorem OutputSound.put (h : OutputSound s) {ch : Byte} {cs : List Byte}
    (hroom : Roomy s (ch :: cs)) :
    OutputSound (sioPut s ch) ∧ stream (sioPut s ch) = stream s ++ [ch]
      ∧ Roomy (sioPut s ch) cs := by
  obtain ⟨hcount, hlast⟩ := hroom
  unfold waiting at hcount hlast
  rw [List.length_cons] at hcount hlast
  cases hs : s.sending with
  | false =>
      obtain ⟨hz, hl⟩ := h.idle hs
      rw [hs] at hcount hlast
      simp only [Bool.false_eq_true, ↓reduceIte, Nat.add_sub_cancel] at hcount hlast
      obtain ⟨ier, reg, heq⟩ := sioPut_idle hs ch
      rw [heq]
      refine ⟨⟨h.next, h.last, h.place, fun hf => Bool.noConfusion hf⟩, ?_, ?_⟩
      · simp only [stream, unsent, hz, ring_zero, List.append_nil]
      · simpa only [Roomy, waiting, ↓reduceIte, Nat.sub_zero] using And.intro hcount hlast
  | true =>
      rw [hs] at hcount hlast
      simp only [↓reduceIte, Nat.sub_zero] at hcount hlast
      have hlt : s.outcount < bufSize := by omega
      have hin : s.outlast < bufSize := by omega
      obtain ⟨hc, hu⟩ := (h.circular hlt.le).put hlt hin ch (s.outlast + 1) hin rfl
      rw [sioPut, if_pos hs]
      refine ⟨⟨hc.next, hc.last, hc.place, fun hf => absurd (hs.symm.trans hf) (by decide)⟩,
        ?_, ?_⟩
      · simp only [stream]
        rw [hu, List.append_assoc]
      · simp only [Roomy, waiting, hs, ↓reduceIte, Nat.sub_zero]
        omega

theorem OutputSound.puts {cs : List Byte} (h : OutputSound s) (hroom : Roomy s cs) :
    OutputSound (cs.foldl sioPut s) ∧ stream (cs.foldl sioPut s) = stream s ++ cs := by
  induction cs generalizing s with
  | nil => exact ⟨h, (List.append_nil _).symm⟩
  | cons ch cs ih =>
      obtain ⟨hsound, hstream, hrest⟩ := h.put hroom
      obtain ⟨hsound', hstream'⟩ := ih hsound hrest
      refine ⟨hsound', ?_⟩
      rw [List.foldl_cons, hstream', hstream, List.append_assoc, List.singleton_append]

theorem sioWritec_eq (s : Sio) (ch : Byte) :
    sioWritec s ch = (if ch = 10 then [13, 10] else [ch]).foldl sioPut s := by
  rw [sioWritec]
  split
  · rename_i hch
    rw [hch]
    rfl
  · rfl

theorem crlf_cons (c : Byte) (bs : List Byte) :
    crlf (c :: bs) = (if c = 10 then [13, 10] else [c]) ++ crlf bs :=
  List.flatMap_cons ..

theorem foldl_writec (bs : List Byte) (s : Sio) :
    bs.foldl sioWritec s = (crlf bs).foldl sioPut s := by
  induction bs generalizing s with
  | nil => rfl
  | cons c bs ih => rw [List.foldl_cons, ih, crlf_cons, List.foldl_append, ← sioWritec_eq]

theorem sioPutsLoop_string {m : Mem} : ∀ {bs : List Byte} {fuel : Nat} {s : Sio} {buffer : Word}
    {n : Nat}, IsString m buffer bs → bs.length < fuel →
    sioPutsLoop m fuel s buffer n = .ok (n + bs.length, bs.foldl sioWritec s)
  | _, 0, _, _, _, _, hf => absurd hf (Nat.not_lt_zero _)
  | [], fuel + 1, s, buffer, n, hb, _ => by
      have hz : m buffer = 0 := hb
      rw [sioPutsLoop, if_pos hz]
      rfl
  | c :: bs, fuel + 1, s, buffer, n, ⟨hc, hne, hb⟩, hf => by
      rw [List.length_cons] at hf
      have ih : sioPutsLoop m fuel (sioWritec s c) (buffer + 1) (n + 1) = _ :=
        sioPutsLoop_string hb (by omega)
      rw [sioPutsLoop, hc, if_neg hne, ih, List.foldl_cons, List.length_cons, Nat.add_assoc,
        Nat.add_comm 1]

theorem sioPuts_string {m : Mem} {bs : List Byte} {buffer : Word} (hb : IsString m buffer bs) :
    sioPuts s m buffer = .ok (bs.length, bs.foldl sioWritec s) := by
  rw [sioPuts, sioPutsLoop_string hb (Nat.lt_succ_of_lt hb.length_lt), Nat.zero_add]

/-! ## Block writes -/

/-- What a call of `_sio_writes` sends that finds the transmitter idle and
queues `k` bytes. The first byte goes through `_sio_writec` when the others
are in the buffer: the LF it may be lands behind them, or, if they fill the
buffer, on the first of them. -/
def primed (m : Mem) (buffer : Word) (k : Nat) : List Byte :=
  if m buffer = 10 then
    if k < bufSize then 13 :: (bytes m (buffer + 1) k ++ [10])
    else 13 :: 10 :: (bytes m (buffer + 1 + 1) (k - 1) ++ [10])
  else m buffer :: bytes m (buffer + 1) k

section Block

variable {m : Mem} {buffer : Word} {length : Int}

/-- The bytes for a busy transmitter are queued as they are. -/
theorem OutputSound.writes_busy (h : OutputSound s) (m : Mem) (buffer : Word) (length : Int)
    (hs : s.sending = true)
    (hin : 0 < length ∧ s.outcount < bufSize → s.outlast < bufSize) :
    OutputSound (sioWrites s m buffer length).2
      ∧ (sioWrites s m buffer length).2.sending = true
      ∧ stream (sioWrites s m buffer length).2
        = stream s ++ bytes m buffer (rounds s length 0) := by
  simp only [sioWrites, hs, ↓reduceIte]
  by_cases hmore : 0 < length ∧ s.outcount < bufSize
  · obtain ⟨s', hloop, hq⟩ := sioWritesLoop_spec m length bufSize s buffer 0 (Nat.sub_le ..)
      (h.circular hmore.2.le) (hin hmore)
    obtain ⟨_, _, _, hs'⟩ := hq.same
    have hsend : s'.sending = true := by rw [hs', hs]
    rw [hloop]
    refine ⟨⟨hq.circular.next, hq.circular.last, hq.circular.place,
      fun hf => absurd (hsend.symm.trans hf) (by decide)⟩, hsend, ?_⟩
    rw [stream, stream, hq.unsent, List.append_assoc, show s'.txd = s.txd by rw [hs']]
  · have hz : rounds s length 0 = 0 := by
      unfold rounds
      omega
    rw [sioWritesLoop_none m bufSize buffer hmore, hz]
    exact ⟨h, hs, (List.append_nil _).symm⟩

theorem OutputSound.idle_empty (h : OutputSound s) (hs : s.sending = false) :
    s.outcount = 0 ∧ s.outlast = 0 ∧ s.outnext = 0 ∧ stream s = s.txd := by
  obtain ⟨hcount, hlast⟩ := h.idle hs
  have hplace := h.place
  rw [hcount, hlast, Nat.add_zero, Nat.mod_eq_of_lt h.next] at hplace
  refine ⟨hcount, hlast, hplace.symm, ?_⟩
  rw [stream, unsent, hcount, ring_zero, List.append_nil]

/-- A byte for an idle transmitter, after `bs` were put into the buffer. -/
theorem OutputSound.prime {s' : Sio} {bs : List Byte} (h : OutputSound s)
    (hs : s.sending = false) (hq : Queued s bs s') (ch : Byte) :
    OutputSound (sioPut s' ch) ∧ (sioPut s' ch).sending = true
      ∧ (sioPut s' ch).txd = s.txd ++ [ch] ∧ unsent (sioPut s' ch) = bs
      ∧ (sioPut s' ch).outcount = bs.length ∧ (sioPut s' ch).outlast = bs.length % bufSize
      ∧ (sioPut s' ch).outnext = 0 := by
  obtain ⟨hcount, hlast, hnext, -⟩ := h.idle_empty hs
  obtain ⟨_, _, _, hs'⟩ := hq.same
  obtain ⟨ier, reg, heq⟩ := sioPut_idle (show s'.sending = false by rw [hs', hs]) ch
  rw [heq]
  refine ⟨⟨hq.circular.next, hq.circular.last, hq.circular.place,
    fun hf => Bool.noConfusion hf⟩, rfl, ?_, ?_, ?_, ?_, ?_⟩
  · show s'.txd ++ [ch] = s.txd ++ [ch]
    rw [hs']
  · show unsent s' = bs
    rw [hq.unsent, unsent, hcount, ring_zero, List.nil_append]
  · rw [hq.count, hcount, Nat.zero_add]
  · rw [hq.last, hlast, Nat.zero_add]
  · show s'.outnext = 0
    rw [hs', hnext]

/-- An LF behind a full buffer overwrites its first cell. -/
theorem put_full {b : Byte} {bs : List Byte} (h : OutputSound s) (hs : s.sending = true)
    (hfull : s.outcount = bufSize) (hlast : s.outlast = 0) (hnext : s.outnext = 0)
    (hun : unsent s = b :: bs) (ch : Byte) :
    OutputSound (sioPut s ch) ∧ (sioPut s ch).sending = true
      ∧ stream (sioPut s ch) = s.txd ++ (ch :: (bs ++ [ch])) := by
  have hrest : ring bufSize s.outbuffer 1 2047 = bs := by
    have hcells := hun
    rw [unsent, hfull, hnext, ring_pop] at hcells
    exact (List.cons.inj hcells).2
  have hafter : ring bufSize (update s.outbuffer 0 ch) 0 (bufSize + 1) = ch :: (bs ++ [ch]) := by
    have hpush : ring bufSize (update s.outbuffer 0 ch) 1 2048 = _ :=
      ring_push (i := 1) (show 2047 < bufSize by decide) ch
    rw [ring_pop, Nat.zero_mod, Function.update_self, Nat.zero_add,
      Nat.mod_eq_of_lt (show 1 < bufSize by decide), hpush, hrest]
  rw [sioPut, if_pos hs]
  refine ⟨⟨h.next, ?_, ?_, fun hf => absurd (hs.symm.trans hf) (by decide)⟩, hs, ?_⟩
  · simp only [hlast]
    decide
  · simp only [hlast, hfull, hnext]
    decide
  · simp only [stream, unsent, hlast, hfull, hnext]
    rw [hafter]

theorem OutputSound.writes_idle (h : OutputSound s) (m : Mem) (buffer : Word) (length : Int)
    (hs : s.sending = false) :
    OutputSound (sioWrites s m buffer length).2
      ∧ (sioWrites s m buffer length).2.sending = true
      ∧ stream (sioWrites s m buffer length).2
        = stream s ++ primed m buffer (rounds s length 1) := by
  obtain ⟨hcount, hlast, -, hstream⟩ := h.idle_empty hs
  have hle : rounds s length 1 ≤ bufSize := by
    unfold rounds
    omega
  obtain ⟨s', hloop, hq⟩ := sioWritesLoop_spec m length bufSize s (buffer + 1) 1 (Nat.sub_le ..)
    (h.circular (by omega)) (by rw [hlast]; decide)
  simp only [sioWrites, hs, Bool.false_eq_true, ↓reduceIte, hloop]
  rw [sioWritec_eq, hstream, primed]
  generalize rounds s length 1 = k at hq hle
  by_cases hch : m buffer = 10
  · obtain ⟨hsound, hsend, htxd, hun, hcount', hlast', hnext'⟩ := h.prime hs hq 13
    rw [bytes_length] at hcount' hlast'
    rw [if_pos hch, if_pos hch, List.foldl_cons, List.foldl_cons, List.foldl_nil]
    by_cases hk : k < bufSize
    · rw [Nat.mod_eq_of_lt hk] at hlast'
      have hroom : Roomy (sioPut s' 13) [10] := by
        simp only [Roomy, waiting, hsend, hcount', hlast', List.length_singleton, ↓reduceIte]
        omega
      obtain ⟨hsound', hstream', -⟩ := hsound.put hroom
      refine ⟨hsound', ?_, ?_⟩
      · rw [sioPut, if_pos hsend, hsend]
      · rw [hstream', stream, htxd, hun, if_pos hk, List.append_assoc, List.append_assoc,
          List.singleton_append]
    · obtain rfl : k = bufSize := by omega
      have hsplit : bytes m (buffer + 1) bufSize
          = m (buffer + 1) :: bytes m (buffer + 1 + 1) (bufSize - 1) := bytes_succ ..
      rw [hsplit] at hun
      obtain ⟨hsound', hsend', hstream'⟩ :=
        put_full hsound hsend hcount' (hlast'.trans (Nat.mod_self _)) hnext' hun 10
      refine ⟨hsound', hsend', ?_⟩
      rw [hstream', htxd, if_neg hk, List.append_assoc, List.singleton_append]
  · obtain ⟨hsound, hsend, htxd, hun, -⟩ := h.prime hs hq (m buffer)
    rw [if_neg hch, if_neg hch, List.foldl_cons, List.foldl_nil]
    refine ⟨hsound, hsend, ?_⟩
    rw [stream, htxd, hun, List.append_assoc, List.singleton_append]

end Block

/-! ## The two ways compared -/

/-- Without an LF, unless there is nothing to write and the transmitter is
idle; or a single LF for an idle transmitter. -/
def Alike (s : Sio) (bs : List Byte) : Prop :=
  10 ∉ bs ∧ (bs ≠ [] ∨ s.sending = true) ∨ s.sending = false ∧ bs = [10]

theorem length_crlf (bs : List Byte) : (crlf bs).length = bs.length + bs.count 10 := by
  induction bs with
  | nil => rfl
  | cons c bs ih =>
      rw [crlf_cons, List.length_append, ih, List.length_cons, List.count_cons]
      by_cases hc : c = 10
      · simp only [hc, ↓reduceIte, beq_self_eq_true, List.length_cons, List.length_nil]
        omega
      · simp only [hc, ↓reduceIte, beq_iff_eq, List.length_cons, List.length_nil]
        omega

/-- The mapping changes nothing exactly if there is no LF. -/
theorem crlf_eq_self {bs : List Byte} : crlf bs = bs ↔ 10 ∉ bs := by
  constructor
  · intro h
    have hlen := congrArg List.length h
    rw [length_crlf] at hlen
    exact List.count_eq_zero.mp (by omega)
  · intro h
    induction bs with
    | nil => rfl
    | cons c bs ih =>
        obtain ⟨hc, hbs⟩ := List.ne_and_not_mem_of_not_mem_cons h
        rw [crlf_cons, if_neg (Ne.symm hc), ih hbs, List.singleton_append]

/-- An LF behind the other bytes is where the mapping puts it only if there
are none. -/
theorem crlf_late {cs : List Byte} : cs ++ [10] = 10 :: crlf cs ↔ cs = [] := by
  constructor
  · intro h
    have hlen := congrArg List.length h
    rw [List.length_append, List.length_singleton, List.length_cons, length_crlf] at hlen
    have hcs : 10 ∉ cs := List.count_eq_zero.mp (by omega)
    cases cs with
    | nil => rfl
    | cons c cs =>
        have hc : c = 10 := (List.cons.inj h).1
        exact absurd (hc ▸ List.mem_cons_self) hcs
  · rintro rfl
    rfl

section Compare

variable {m : Mem} {buffer : Word} {bs : List Byte}

theorem sends_writecs (h : OutputSound s) (hroom : Roomy s (crlf bs)) :
    OutputSound (bs.foldl sioWritec s) ∧ stream (bs.foldl sioWritec s) = stream s ++ crlf bs := by
  rw [foldl_writec]
  exact h.puts hroom

theorem sameStream_busy (h : OutputSound s) (hroom : Roomy s (crlf bs))
    (hb : bytes m buffer bs.length = bs) (hs : s.sending = true) :
    SameStream s m buffer bs ↔ 10 ∉ bs := by
  obtain ⟨hsound, hstream⟩ := sends_writecs h hroom
  simp only [Roomy, waiting, hs, ↓reduceIte, Nat.sub_zero, length_crlf] at hroom
  obtain ⟨hw, -, hws⟩ := h.writes_busy m buffer bs.length hs
    fun hmore => by omega
  have hn : rounds s bs.length 0 = bs.length := by
    unfold rounds
    omega
  rw [hn, hb] at hws
  simp only [SameStream, hw.sends_iff, hsound.sends_iff, exists_eq_left, hws, hstream,
    List.append_cancel_left_eq]
  rw [eq_comm, crlf_eq_self]

theorem primed_ne_nil (m : Mem) (buffer : Word) (k : Nat) : primed m buffer k ≠ [] := by
  unfold primed
  split_ifs <;> exact List.cons_ne_nil _ _

theorem sameStream_idle (h : OutputSound s) (hroom : Roomy s (crlf bs))
    (hb : bytes m buffer bs.length = bs) (hs : s.sending = false) :
    SameStream s m buffer bs ↔ 10 ∉ bs ∧ bs ≠ [] ∨ bs = [10] := by
  obtain ⟨hsound, hstream⟩ := sends_writecs h hroom
  obtain ⟨hcount, -⟩ := h.idle hs
  obtain ⟨hw, -, hws⟩ := h.writes_idle m buffer bs.length hs
  simp only [SameStream, hw.sends_iff, hsound.sends_iff, exists_eq_left, hws, hstream,
    List.append_cancel_left_eq]
  cases bs with
  | nil =>
      refine iff_of_false (fun he => primed_ne_nil _ _ _ he) fun he => ?_
      rcases he with ⟨-, he⟩ | he
      · exact he rfl
      · cases he
  | cons c cs =>
      rw [List.length_cons, bytes_succ] at hb
      obtain ⟨hc, hcs⟩ := List.cons.inj hb
      simp only [Roomy, waiting, hs, length_crlf, List.length_cons, Bool.false_eq_true,
        ↓reduceIte] at hroom
      have hn : rounds s (c :: cs).length 1 = cs.length := by
        rw [List.length_cons]
        unfold rounds
        omega
      have hcs' : bytes m (buffer + 1) cs.length = cs := hcs
      rw [hn, primed, hc, hcs', crlf_cons]
      by_cases hch : c = 10
      · have hk : cs.length < bufSize := by
          rw [hch, List.count_cons_self] at hroom
          omega
        rw [if_pos hch, if_pos hch, if_pos hk, hch]
        simp only [List.cons_append, List.nil_append, List.cons.injEq, true_and, crlf_late]
        simp
      · rw [if_neg hch, if_neg hch]
        simp only [List.singleton_append, List.cons.injEq, true_and]
        rw [eq_comm, crlf_eq_self]
        constructor
        · intro h10
          exact .inl ⟨List.not_mem_cons_of_ne_of_not_mem (Ne.symm hch) h10, List.cons_ne_nil _ _⟩
        · rintro (⟨h10, -⟩ | he)
          · exact List.not_mem_of_not_mem_cons h10
          · exact absurd he.1 hch

/-- With room for every byte that has to wait, the characters of a string
written one by one send the string with each LF as CR LF, and so does
`_sio_puts`; `_sio_writes` sends the same exactly if `Alike`. -/
theorem writes_same_stream_iff (h : OutputSound s) (hroom : Roomy s (crlf bs))
    (hb : bytes m buffer bs.length = bs) :
    Sends (bs.foldl sioWritec s) (stream s ++ crlf bs)
      ∧ (IsString m buffer bs → ∃ s', sioPuts s m buffer = .ok (bs.length, s')
        ∧ Sends s' (stream s ++ crlf bs))
      ∧ (SameStream s m buffer bs ↔ Alike s bs) := by
  obtain ⟨hsound, hstream⟩ := sends_writecs h hroom
  have hsends : Sends (bs.foldl sioWritec s) (stream s ++ crlf bs) :=
    hsound.sends_iff.mpr hstream.symm
  refine ⟨hsends, fun hstr => ⟨_, sioPuts_string hstr, hsends⟩, ?_⟩
  cases hs : s.sending with
  | false =>
      rw [sameStream_idle h hroom hb hs]
      simp [Alike, hs]
  | true =>
      rw [sameStream_busy h hroom hb hs]
      simp [Alike, hs]

/-- Two letters for an idle line. -/
theorem writes_same_stream_two :
    Sends ([97, 98].foldl sioWritec sioInit) (stream sioInit ++ crlf [97, 98])
      ∧ (IsString (storeBytes (fun _ => 0) 0 [97, 98]) 0 [97, 98] →
        ∃ s', sioPuts sioInit (storeBytes (fun _ => 0) 0 [97, 98]) 0 = .ok (2, s')
          ∧ Sends s' (stream sioInit ++ crlf [97, 98]))
      ∧ (SameStream sioInit (storeBytes (fun _ => 0) 0 [97, 98]) 0 [97, 98]
        ↔ Alike sioInit [97, 98]) :=
  writes_same_stream_iff outputSound_init (show _ ∧ _ by decide) (by decide)

/-- A newline for a busy line gets no CR, and the empty string sends the byte
at its address if the line is idle. -/
theorem writes_other_stream :
    ¬SameStream (sioWritec sioInit 97) (fun _ => 10) 0 [10]
      ∧ ¬SameStream sioInit (fun _ => 97) 0 [] := by
  constructor
  · have hsound : OutputSound (sioWritec sioInit 97) :=
      ⟨by decide, by decide, by decide, fun hf => absurd hf (by decide)⟩
    rw [sameStream_busy hsound (show _ ∧ _ by decide) (by decide) (by decide)]
    decide
  · rw [sameStream_idle outputSound_init (show _ ∧ _ by decide) (by decide) (by decide)]
    decide

end Compare

end SpKernel
