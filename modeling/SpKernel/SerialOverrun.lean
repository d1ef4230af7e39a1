import SpKernel.SerialOutput

/-!
# Stores behind the output buffer (`sio.c`)

`_sio_writec` does not wrap `_outlast` around. While the transmitter is
busy every character goes one further, and after `BUF_SIZE` of them the
next one is stored behind `_outbuffer`, where the compiler has put other
variables: as they are declared, `_outlast`, `_outnext`, `_outcount`,
`_sending` and `_ier`. `SpKernel.Sio` gives the buffer cells without end.
Here a store behind the buffer is whatever a parameter `beyond` makes of
it, so that nothing depends on how the variables are laid out.

The flag, the interrupt-enable register and its shadow agree in every run
whose stores have room (`LineOp.Room`): such a run does not come to
`beyond` and is one of the buffer without end (`lineStepAt_eq`), of which
`transmitter_driven` has shown it. With the variables laid out as they are
declared a run of `_sio_writec` alone overwrites `_outlast`, through it
`_ier`, and the register no longer agrees with it
(`transmitter_overwritten`).
-/

namespace SpKernel

open Function (update)
open Lib

/-! ## The source -/

/-- What a store of a byte at an offset behind `_outbuffer` does. -/
abbrev Beyond := Nat → Byte → Sio → Sio

/-- `*_outlast++ = ch`. The pointer is stored first. -/
def storeOut (beyond : Beyond) (s : Sio) (ch : Byte) : Sio :=
  let i := s.outlast
  let s := { s with outlast := i + 1 }
  if i < bufSize then { s with outbuffer := update s.outbuffer i ch } else beyond i ch s

/-- `_sio_writec` after the newline mapping. -/
def sioPutAt (beyond : Beyond) (s : Sio) (ch : Byte) : Sio :=
  if s.sending then
    let s := storeOut beyond s ch
    { s with outcount := s.outcount + 1 }
  else
    sioEnable { s with sending := true, txd := s.txd ++ [ch] } sioTx

/-- `_sio_writec` -/
def sioWritecAt (beyond : Beyond) (s : Sio) (ch : Byte) : Sio :=
  if ch = 10 then sioPutAt beyond (sioPutAt beyond s 13) ch else sioPutAt beyond s ch

/-- The copying loop of `_sio_writes`. -/
def sioWritesLoopAt (beyond : Beyond) (m : Mem) (length : Int) :
    Nat → Sio → Word → Int → Sio × Int
  | 0, s, _, copied => (s, copied)
  | fuel + 1, s, ptr, copied =>
      if copied < length ∧ s.outcount < bufSize then
        let s := storeOut beyond s (m ptr)
        let s := { s with
          outlast := if bufSize ≤ s.outlast then 0 else s.outlast
          outcount := s.outcount + 1 }
        sioWritesLoopAt beyond m length fuel s (ptr + 1) (copied + 1)
      else (s, copied)

/-- `_sio_writes` -/
def sioWritesAt (beyond : Beyond) (s : Sio) (m : Mem) (buffer : Word) (length : Int) :
    Int × Sio :=
  let first := m buffer
  let (ptr, copied) := if s.sending then (buffer, (0 : Int)) else (buffer + 1, 1)
  let (s', copied) := sioWritesLoopAt beyond m length bufSize s ptr copied
  (copied, if s'.sending then s' else sioWritecAt beyond s' first)

/-- The loop of `_sio_puts`. -/
def sioPutsLoopAt (beyond : Beyond) (m : Mem) :
    Nat → Sio → Word → Nat → Except Fault (Nat × Sio)
  | 0, _, _, _ => .error .diverge
  | fuel + 1, s, buffer, n =>
      if m buffer = 0 then .ok (n, s)
      else sioPutsLoopAt beyond m fuel (sioWritecAt beyond s (m buffer)) (buffer + 1) (n + 1)

/-- `_sio_puts` -/
def sioPutsAt (beyond : Beyond) (s : Sio) (m : Mem) (buffer : Word) :
    Except Fault (Nat × Sio) :=
  sioPutsLoopAt beyond m (2 ^ 32 + 1) s buffer 0

def lineStepAt (beyond : Beyond) (s : Sio) : LineOp → Except Fault Sio
  | .enableRx => .ok (sioEnable s sioRx)
  | .disableRx => .ok (sioDisable s sioRx)
  | .writec ch => .ok (sioWritecAt beyond s ch)
  | .writes m buffer length => .ok (sioWritesAt beyond s m buffer length).2
  | .puts m buffer => Prod.snd <$> sioPutsAt beyond s m buffer
  | .transmit => .ok (sioTransmit s)

/-! ## Room -/

/-- As many characters as are sent for this one. -/
def sentFor (ch : Byte) : Nat := if ch = 10 then 2 else 1

/-- As many characters as `_sio_puts` sends. -/
def sentForString (m : Mem) : Nat → Word → Nat
  | 0, _ => 0
  | fuel + 1, a => if m a = 0 then 0 else sentFor (m a) + sentForString m fuel (a + 1)

/-- Of `n` characters those that do not go straight out fit into the buffer
behind `_outlast`. -/
def RoomFor (s : Sio) (n : Nat) : Prop :=
  0 < (if s.sending then n else n - 1) → s.outlast + (if s.sending then n else n - 1) ≤ bufSize

/-- The stores of the operation have room. -/
def LineOp.Room (s : Sio) : LineOp → Prop
  | .writec ch => RoomFor s (sentFor ch)
  | .writes _ _ length => s.sending → 0 < length → s.outcount < bufSize → s.outlast < bufSize
  | .puts m buffer => RoomFor s (sentForString m (2 ^ 32 + 1) buffer)
  | .enableRx | .disableRx | .transmit => True

instance (s : Sio) : ∀ op : LineOp, Decidable (op.Room s)
  | .writec _ => inferInstanceAs (Decidable (_ → _))
  | .writes _ _ _ => inferInstanceAs (Decidable (_ → _))
  | .puts _ _ => inferInstanceAs (Decidable (_ → _))
  | .enableRx | .disableRx | .transmit => isTrue trivial

variable {beyond : Beyond} {s : Sio} {op : LineOp}

/-! ## With room, nothing comes to `beyond` -/

theorem sioPutAt_eq (h : s.sending = true → s.outlast < bufSize) (ch : Byte) :
    sioPutAt beyond s ch = sioPut s ch := by
  rw [sioPutAt, sioPut]
  split
  · rename_i hs
    simp only [storeOut, if_pos (h hs)]
  · rfl

/-- What a character does to the pointer and the flag. -/
theorem sioPut_last (s : Sio) (ch : Byte) : (sioPut s ch).sending = true
    ∧ (sioPut s ch).outlast = s.outlast + if s.sending then 1 else 0 := by
  rw [sioPut]
  split
  · rename_i hs
    exact ⟨hs, rfl⟩
  · obtain ⟨ier, reg, heq⟩ := sioEnable_rest { s with sending := true, txd := s.txd ++ [ch] } sioTx
    rw [heq]
    exact ⟨rfl, rfl⟩

theorem sioWritec_last (s : Sio) (ch : Byte) : (sioWritec s ch).sending = true
    ∧ (sioWritec s ch).outlast
      = s.outlast + if s.sending then sentFor ch else sentFor ch - 1 := by
  rw [sioWritec, sentFor]
  obtain ⟨h1, h2⟩ := sioPut_last s 13
  split
  · obtain ⟨h3, h4⟩ := sioPut_last (sioPut s 13) ch
    refine ⟨h3, ?_⟩
    rw [h4, h2, h1]
    cases s.sending with
    | true => rfl
    | false => rfl
  · exact sioPut_last s ch

theorem sioWritecAt_eq {ch : Byte} (h : RoomFor s (sentFor ch)) :
    sioWritecAt beyond s ch = sioWritec s ch := by
  unfold RoomFor sentFor at h
  rw [sioWritecAt, sioWritec]
  split
  · rename_i hch
    rw [if_pos hch] at h
    obtain ⟨h1, h2⟩ := sioPut_last s 13
    have hfirst : s.sending = true → s.outlast < bufSize := by
      intro hs
      rw [hs] at h
      have := h (by decide)
      simp only [if_true] at this
      omega
    rw [sioPutAt_eq hfirst]
    refine sioPutAt_eq (fun _ => ?_) ch
    rw [h2]
    cases hs : s.sending with
    | true =>
        rw [hs] at h
        have := h (by decide)
        simp only [if_true] at this ⊢
        omega
    | false =>
        rw [hs] at h
        have := h (by decide)
        simp only [Bool.false_eq_true, if_false] at this ⊢
        omega
  · rename_i hch
    rw [if_neg hch] at h
    refine sioPutAt_eq (fun hs => ?_) ch
    rw [hs] at h
    exact h (by decide)

/-- The loop of `_sio_writes` wraps around, so room for the first store is
enough. -/
theorem sioWritesLoopAt_eq (m : Mem) (length : Int) : ∀ (fuel : Nat) (s : Sio) (ptr : Word)
    (copied : Int), (copied < length → s.outcount < bufSize → s.outlast < bufSize) →
    sioWritesLoopAt beyond m length fuel s ptr copied = sioWritesLoop m length fuel s ptr copied
  | 0, _, _, _, _ => rfl
  | fuel + 1, s, ptr, copied, h => by
      rw [sioWritesLoopAt, sioWritesLoop]
      split
      · rename_i hmore
        have hin := h hmore.1 hmore.2
        simp only [storeOut, if_pos hin]
        refine sioWritesLoopAt_eq m length fuel _ _ _ fun _ _ => ?_
        dsimp only
        split <;> omega
      · rfl

theorem sioWritesLoop_inside (m : Mem) (length : Int) : ∀ (fuel : Nat) (s : Sio) (ptr : Word)
    (copied : Int), s.outlast < bufSize →
    (sioWritesLoop m length fuel s ptr copied).1.outlast < bufSize
  | 0, _, _, _, h => h
  | fuel + 1, s, ptr, copied, h => by
      rw [sioWritesLoop]
      split
      · refine sioWritesLoop_inside m length fuel _ _ _ ?_
        dsimp only
        split <;> omega
      · exact h

/-- While nothing is sent, the pointer is at the start of the buffer. -/
def Rewound (s : Sio) : Prop := s.sending = false → s.outlast = 0

theorem sioWritesAt_eq (hrew : Rewound s) {m : Mem} {buffer : Word} {length : Int}
    (h : s.sending → 0 < length → s.outcount < bufSize → s.outlast < bufSize) :
    sioWritesAt beyond s m buffer length = sioWrites s m buffer length := by
  rw [sioWritesAt, sioWrites]
  cases hs : s.sending with
  | true =>
      simp only [if_true]
      rw [sioWritesLoopAt_eq m length _ _ _ _ fun hlen => h hs hlen]
      obtain ⟨b, l, c, heq⟩ := sioWritesLoop_rest m length bufSize s buffer 0
      rw [heq, if_pos hs]
  | false =>
      simp only [Bool.false_eq_true, if_false]
      have hzero : s.outlast < bufSize := by
        rw [hrew hs]
        decide
      rw [sioWritesLoopAt_eq m length _ _ _ _ fun _ _ => hzero]
      have hin := sioWritesLoop_inside m length bufSize s (buffer + 1) 1 hzero
      obtain ⟨b, l, c, heq⟩ := sioWritesLoop_rest m length bufSize s (buffer + 1) 1
      rw [heq] at hin ⊢
      have hin : l < bufSize := hin
      rw [if_neg (by rw [hs]; exact Bool.false_ne_true)]
      refine congrArg (Prod.mk _) (sioWritecAt_eq fun _ => ?_)
      -- at most the line feed of a pair goes into the buffer
      have hsent : sentFor (m buffer) ≤ 2 := by
        rw [sentFor]
        split <;> omega
      change l + (if s.sending = true then _ else _) ≤ bufSize
      rw [hs, if_neg Bool.false_ne_true]
      omega

theorem sioPutsLoopAt_eq (m : Mem) : ∀ (fuel : Nat) (s : Sio) (a : Word) (n : Nat),
    RoomFor s (sentForString m fuel a) →
    sioPutsLoopAt beyond m fuel s a n = sioPutsLoop m fuel s a n
  | 0, _, _, _, _ => rfl
  | fuel + 1, s, a, n, h => by
      rw [sioPutsLoopAt, sioPutsLoop]
      split
      · rfl
      · rename_i hch
        rw [sentForString, if_neg hch] at h
        have hpos : 1 ≤ sentFor (m a) := by
          rw [sentFor]
          split <;> omega
        obtain ⟨hsend, hlast⟩ := sioWritec_last s (m a)
        have hone : RoomFor s (sentFor (m a)) := by
          unfold RoomFor at h ⊢
          split at h <;> simp only [*, if_true, if_false, Bool.false_eq_true] <;> omega
        rw [sioWritecAt_eq hone]
        refine sioPutsLoopAt_eq m fuel _ _ _ ?_
        unfold RoomFor at h ⊢
        rw [hsend, hlast]
        split at h <;> simp only [*, if_true, if_false, Bool.false_eq_true] <;> omega

/-- A step that has room is a step of the buffer without end. -/
theorem lineStepAt_eq (hrew : Rewound s) (h : op.Room s) :
    lineStepAt beyond s op = lineStep s op := by
  cases op with
  | writec ch => exact congrArg Except.ok (sioWritecAt_eq h)
  | writes m buffer length => exact congrArg (fun x => Except.ok x.2) (sioWritesAt_eq hrew h)
  | puts m buffer => exact congrArg (Prod.snd <$> ·) (sioPutsLoopAt_eq m _ s buffer 0 h)
  | enableRx => rfl
  | disableRx => rfl
  | transmit => rfl

/-! ## Runs with room -/

theorem sioPutsLoop_rewound (m : Mem) : ∀ {fuel : Nat} {s : Sio} {a : Word} {n : Nat}
    {r : Nat × Sio}, Rewound s → sioPutsLoop m fuel s a n = .ok r → Rewound r.2
  | 0, _, _, _, _, _, hr => by cases hr
  | fuel + 1, s, a, n, r, h, hr => by
      rw [sioPutsLoop] at hr
      split at hr
      · obtain rfl := Except.ok.inj hr
        exact h
      · refine sioPutsLoop_rewound m (fun hs => ?_) hr
        rw [(sioWritec_last s (m a)).1] at hs
        cases hs

theorem Rewound.step {s' : Sio} (h : Rewound s) (hst : lineStep s op = .ok s') : Rewound s' := by
  cases op with
  | enableRx =>
      obtain ⟨ier, reg, heq⟩ := sioEnable_rest s sioRx
      obtain rfl := Except.ok.inj hst
      rw [heq]
      exact h
  | disableRx =>
      obtain ⟨ier, reg, heq⟩ := sioDisable_rest s sioRx
      obtain rfl := Except.ok.inj hst
      rw [heq]
      exact h
  | writec ch =>
      obtain rfl := Except.ok.inj hst
      exact fun hs => absurd ((sioWritec_last s ch).1.symm.trans hs) Bool.noConfusion
  | writes m buffer length =>
      obtain rfl := Except.ok.inj hst
      intro hs
      rw [sioWrites] at hs
      cases hsend : s.sending with
      | true =>
          obtain ⟨b, l, c, heq⟩ := sioWritesLoop_rest m length bufSize s buffer 0
          simp only [hsend, if_true] at hs
          rw [heq, hsend] at hs
          cases hs
      | false =>
          simp only [hsend, Bool.false_eq_true, if_false] at hs
          rw [(sioWritec_last _ _).1] at hs
          cases hs
  | puts m buffer =>
      rw [lineStep, sioPuts] at hst
      cases hr : sioPutsLoop m (2 ^ 32 + 1) s buffer 0 with
      | error f =>
          rw [hr] at hst
          cases hst
      | ok r =>
          rw [hr] at hst
          exact Except.ok.inj hst ▸ sioPutsLoop_rewound m h hr
  | transmit =>
      obtain rfl := Except.ok.inj hst
      rw [sioTransmit]
      split
      · rename_i hmore
        exact fun hs => absurd (hmore.1.symm.trans hs) Bool.noConfusion
      · obtain ⟨ier, reg, heq⟩ := sioDisable_rest
          { s with outcount := 0, outlast := 0, outnext := 0, sending := false } sioTx
        rw [heq]
        exact fun _ => rfl

/-- A run whose stores have room is one of the buffer without end. -/
theorem steps_lineStep {tr : List (Sio × LineOp)} (hrun : Steps (lineStepAt beyond) sioInit tr s)
    (hroom : ∀ x ∈ tr, x.2.Room x.1) : Steps lineStep sioInit tr s ∧ Rewound s := by
  induction hrun with
  | refl => exact ⟨.refl, fun _ => rfl⟩
  | @tail tr t t' op _ hst ih =>
      obtain ⟨hpre, hrew⟩ := ih fun x hx => hroom x (List.mem_append_left _ hx)
      have hop := hroom (t, op) (List.mem_append_right _ List.mem_cons_self)
      rw [lineStepAt_eq hrew hop] at hst
      exact ⟨hpre.tail hst, hrew.step hst⟩

/-- As long as the stores have room, pending bytes are being sent and the
hardware is set up for it. -/
theorem transmitter_driven_inside (beyond : Beyond) {tr : List (Sio × LineOp)}
    (hrun : Steps (lineStepAt beyond) sioInit tr s) (hroom : ∀ x ∈ tr, x.2.Room x.1) : Driven s :=
  transmitter_driven (steps_lineStep hrun hroom).1

/-! ## The variables as they are declared -/

/-- A word with one of its bytes replaced. -/
def setByte (w : Word) (k : Nat) (b : Byte) : Word :=
  w &&& ~~~(0xFF#32 <<< (8 * k)) ||| b.setWidth 32 <<< (8 * k)

/-- The layout with `_outlast`, `_outnext`, `_outcount`, `_sending` and
`_ier` behind a buffer at `base`. -/
def declared (base : Word) : Beyond := fun i ch s =>
  if i < 2052 then
    { s with outlast := (setByte (base + BitVec.ofNat 32 s.outlast) (i - 2048) ch - base).toNat }
  else if i < 2056 then
    { s with outnext := (setByte (base + BitVec.ofNat 32 s.outnext) (i - 2052) ch - base).toNat }
  else if i < 2060 then
    { s with outcount := (setByte (BitVec.ofNat 32 s.outcount) (i - 2056) ch).toNat }
  else if i < 2064 then
    { s with sending := setByte (if s.sending then 1 else 0) (i - 2060) ch ≠ 0 }
  else if i = 2064 then { s with ier := ch }
  else s

/-- The receiver is switched on while a character is sent and a line end is
pending, of which one character goes out. -/
theorem transmitter_driven_inside_line : ∃ tr s,
    Steps (lineStepAt (declared 0x20000)) sioInit tr s
      ∧ tr.map Prod.snd = [.writec 97, .enableRx, .writec 10, .transmit]
      ∧ s.outcount = 1 ∧ s.txd = [97, 13] ∧ Driven s := by
  let s₁ := sioWritecAt (declared 0x20000) sioInit 97
  let s₂ := sioEnable s₁ sioRx
  let s₃ := sioWritecAt (declared 0x20000) s₂ 10
  have hrun : Steps (lineStepAt (declared 0x20000)) sioInit
      [(sioInit, .writec 97), (s₁, .enableRx), (s₂, .writec 10), (s₃, .transmit)]
      (sioTransmit s₃) :=
    (((Steps.refl.tail rfl).tail rfl).tail rfl).tail rfl
  refine ⟨_, _, hrun, rfl, by decide, by decide, ?_⟩
  exact transmitter_driven_inside (declared 0x20000) hrun (by decide)

/-- A character is sent, and `n` more are put into the buffer. -/
theorem fill_steps (beyond : Beyond) : ∀ n ≤ bufSize, ∃ tr s,
    Steps (lineStepAt beyond) sioInit tr s
      ∧ tr.map Prod.snd = List.replicate (n + 1) (.writec 97) ∧ s.sending = true
      ∧ s.outlast = n ∧ s.ier = 2 ∧ s.ierReg = 2
  | 0, _ => ⟨_, _, Steps.refl.tail (e := .writec 97) rfl, rfl, rfl, rfl, rfl, rfl⟩
  | n + 1, hn => by
      obtain ⟨tr, s, hrun, htr, hs, hlast, hier, hreg⟩ := fill_steps beyond n (by omega)
      have hput : lineStepAt beyond s (.writec 97) = .ok { s with
          outbuffer := update s.outbuffer s.outlast 97
          outlast := s.outlast + 1
          outcount := s.outcount + 1 } := by
        rw [lineStepAt, sioWritecAt, if_neg (by decide), sioPutAt_eq fun _ => by omega, sioPut,
          if_pos hs]
      refine ⟨_, _, hrun.tail hput, ?_, hs, congrArg (· + 1) hlast, hier, hreg⟩
      rw [List.map_append, htr, List.replicate_succ' (n := n + 1)]
      rfl

/-- Two characters later, the second of them is in `_ier`. -/
theorem transmitter_overwritten : ∃ tr s, Steps (lineStepAt (declared 0x20000)) sioInit tr s
    ∧ tr.map Prod.snd = List.replicate 2049 (.writec 97) ++ [.writec 0x10, .writec 0]
    ∧ s.ier = 0 ∧ s.ierReg = 2 ∧ s.sending = true ∧ ¬Driven s := by
  obtain ⟨tr, s, hrun, htr, hs, hlast, hier, hreg⟩ :=
    fill_steps (declared 0x20000) 2048 (Nat.le_refl _)
  obtain ⟨inbuffer, inlast, innext, incount, outbuffer, outlast, outnext, outcount, sending, ier,
    txd, ierReg⟩ := s
  dsimp only at hs hlast hier hreg
  subst hs hlast hier hreg
  -- the pointer is made to point to `_ier`
  have hone : lineStepAt (declared 0x20000) ⟨inbuffer, inlast, innext, incount, outbuffer, 2048,
      outnext, outcount, true, 2, txd, 2⟩ (.writec 0x10) = .ok ⟨inbuffer, inlast, innext, incount,
      outbuffer, 2064, outnext, outcount + 1, true, 2, txd, 2⟩ := by
    simp [lineStepAt, sioWritecAt, sioPutAt, storeOut, declared, setByte]
  have htwo : lineStepAt (declared 0x20000) ⟨inbuffer, inlast, innext, incount, outbuffer, 2064,
      outnext, outcount + 1, true, 2, txd, 2⟩ (.writec 0) = .ok ⟨inbuffer, inlast, innext, incount,
      outbuffer, 2065, outnext, outcount + 1 + 1, true, 0, txd, 2⟩ := rfl
  refine ⟨_, _, (hrun.tail hone).tail htwo, ?_, rfl, rfl, rfl, fun hd => ?_⟩
  · rw [List.map_append, List.map_append, htr, List.append_assoc]
    rfl
  · have hsame : (2 : Byte) = 0 := hd.shadow
    exact absurd hsame (by decide)

end SpKernel
