import SpKernel.CommandRing

/-!
# Sending a frame (`send_packet`)

`send_packet` takes a command block, fills it with one ethernet frame and
starts the card, if it reads from the status register that the card is
idle. The call is cut in two at that read: the card can be anywhere with
its own work then (`fillBlock` is the part before it).

The card adds the source address to a frame by itself, so that
`eth_packet_t` has 8 bytes in front of the payload.
`NET_INTEL_ETH_HEAD_LEN` is 14 all the same, and the card is told to send
6 bytes more than there are.

A frame is compared with the bytes that the arguments of the call say it
should have. Every byte of the data area is given by the arguments, or is
an old one of the block (`fill_apply`), and those that are old and sent
are `Packet.Stale`. So the frames of two blocks are the same exactly if
the blocks agree on these bytes (`frame_eq_iff`), and `frames_same_iff`
is the same for two calls. `frames_leak` has a byte of an earlier frame
that goes out behind a short one.
-/

namespace SpKernel

open Function (update update_self update_of_ne)
open Lib

/-! ## The data area -/

/-- `NET_INTEL_MIN_ETH_LENGTH` -/
abbrev minEthLength : Nat := 46
/-- `NET_INTEL_MAX_ETH_LENGTH` -/
abbrev maxEthLength : Nat := 1500
/-- `NET_INTEL_ETH_HEAD_LEN` -/
abbrev ethHeadLen : Nat := 14
/-- The offset of `payload` in `eth_packet_t`, after `dst_mac` and `ethertype`. -/
abbrev payloadAt : Nat := 8

/-- `cb->u.tcb` -/
structure Tcb where
  tbdArray : Word
  tcbByteCount : Half
  threshold : Byte
  tbdCount : Byte
  /-- the bytes from `eth_packet` on -/
  ethPacket : Nat → Byte

/-- The arguments of `send_packet`. -/
structure Packet where
  dstHwAddr : Nat → Byte
  data : Nat → Byte
  length : Half
  ethertype : Half

def Packet.txLength (p : Packet) : Nat :=
  if p.length.toNat < minEthLength then minEthLength else p.length.toNat

/-- `memcpy` into the packet, at an offset. -/
def copyTo (packet : Nat → Byte) (ofs : Nat) (src : Nat → Byte) (len : Nat) : Nat → Byte :=
  fun j => if ofs ≤ j ∧ j < ofs + len then src (j - ofs) else packet j

/-- The padding loop, for its last `n` rounds: round `i` clears
`payload.data[i]`. -/
def padLoop : Nat → Nat → (Nat → Byte) → (Nat → Byte)
  | 0, _, packet => packet
  | n + 1, i, packet => padLoop n (i + 1) (update packet (payloadAt + i) 0)

/-- From the end of the data through byte 46. -/
def pad (length : Nat) (packet : Nat → Byte) : Nat → Byte :=
  padLoop (minEthLength + 1 - length) length packet

/-- What `send_packet` stores in the data area of its block. -/
def Tcb.fill (t : Tcb) (p : Packet) : Tcb :=
  let packet := pad p.length.toNat t.ethPacket
  let packet := copyTo packet 0 p.dstHwAddr 6
  let packet := update (update packet 6 (p.ethertype.setWidth 8)) 7
    ((p.ethertype >>> 8).setWidth 8)
  let packet := copyTo packet payloadAt p.data p.length.toNat
  { tbdArray := 0xFFFFFFFF#32
    tcbByteCount := BitVec.ofNat 16 (p.txLength + ethHeadLen) ||| 0x8000#16
    threshold := 1
    tbdCount := 0
    ethPacket := packet }

/-- What the card sends in simplified mode. -/
def Tcb.frame (t : Tcb) : List Byte :=
  (List.range (t.tcbByteCount &&& 0x3FFF#16).toNat).map t.ethPacket

/-! ## The call -/

/-- `cb_el`, the end of the list -/
abbrev cbEl : Half := 0x8000#16
abbrev cbSf : Half := 0x0008#16
abbrev cbTxCmd : Half := 0x0004#16

abbrev cuMask : Byte := 0xC0#8
abbrev cuIdle : Byte := 0x00#8
abbrev cuSuspended : Byte := 0x40#8

/-- The command blocks with their data areas. -/
structure Driver where
  nic : Nic
  tcbs : Word → Tcb

def Nic.setCommand (nic : Nic) (a : Word) (command : Half) : Nic :=
  { nic with cbs := update nic.cbs a { nic.cbs a with command := command } }

/-- `send_packet`, up to the read of the status: the block, `none` when the
call returns -1; the blocks taken back; the state. -/
def fillBlock (d : Driver) (p : Packet) : Except Fault (Option Word × List Word × Driver) :=
  if maxEthLength < p.length.toNat then .ok (none, [], d)
  else do
    let (cb, freed, nic) ← getNextCb d.nic
    match cb with
    | none => .ok (none, freed, ⟨nic, d.tcbs⟩)
    | some cb => .ok (some cb, freed, ⟨nic.setCommand cb (cbEl ||| cbSf ||| cbTxCmd),
        update d.tcbs cb ((d.tcbs cb).fill p)⟩)

/-- `send_packet`, from the read of the status on: does it start the card? -/
def startsCu (status : Byte) : Bool :=
  status &&& cuMask = cuIdle ∨ status &&& cuMask = cuSuspended

/-- `send_packet`, when it reads `status`: the result, the block that the
card is started with, and the state. -/
def sendPacket (d : Driver) (p : Packet) (status : Byte) :
    Except Fault (Word × Option Word × Driver) := do
  let (cb, _, d) ← fillBlock d p
  match cb with
  | none => .ok (-1, none, d)
  | some cb => .ok (0, if startsCu status then some cb else none, d)

/-- The frame that `send_packet` hands to the card. -/
def handed (d : Driver) (p : Packet) (status : Byte) : Except Fault (Option (List Byte)) := do
  let (_, started, d) ← sendPacket d p status
  .ok (started.map fun cb => (d.tcbs cb).frame)

/-! ## What is in a frame -/

theorem padLoop_apply : ∀ (n i : Nat) (packet : Nat → Byte) (j : Nat),
    padLoop n i packet j = if 8 + i ≤ j ∧ j < 8 + i + n then 0 else packet j
  | 0, i, packet, j => (if_neg (by omega)).symm
  | n + 1, i, packet, j => by
      rw [padLoop, padLoop_apply n, Function.update_apply]
      by_cases hj : j = 8 + i
      · rw [if_neg (by omega), if_pos hj, if_pos (by omega)]
      · rw [if_neg hj]
        refine if_congr ?_ rfl rfl
        omega

theorem txLength_le {p : Packet} (h : p.length.toNat ≤ maxEthLength) :
    p.txLength ≤ 1500 := by
  rw [Packet.txLength]
  split
  · decide
  · exact h

theorem le_txLength (p : Packet) : p.length.toNat ≤ p.txLength ∧ 46 ≤ p.txLength := by
  unfold Packet.txLength minEthLength
  split
  · omega
  · omega

theorem fill_count {t : Tcb} {p : Packet} (h : p.length.toNat ≤ maxEthLength) :
    ((t.fill p).tcbByteCount &&& 0x3FFF#16).toNat = p.txLength + 14 := by
  have hle := txLength_le h
  have hmask : ∀ c : Half, (c ||| 0x8000#16) &&& 0x3FFF#16 = c &&& 0x3FFF#16 := by
    intro c
    rw [BitVec.and_or_distrib_right]
    simp
  show ((BitVec.ofNat 16 (p.txLength + 14) ||| 0x8000#16) &&& 0x3FFF#16).toNat = _
  rw [hmask, BitVec.toNat_and, BitVec.toNat_ofNat, show (0x3FFF#16 : Half).toNat = 2 ^ 14 - 1
    from rfl, Nat.and_two_pow_sub_one_eq_mod]
  omega

/-- The bytes that are left from earlier frames: the card sends them, and
neither the padding nor the data covers them. -/
def Packet.Stale (p : Packet) (i : Nat) : Prop :=
  minEthLength < i ∧ p.length.toNat ≤ i ∧ i < p.txLength + 6

/-- A byte of the packet is given by the arguments, or is an old one. -/
theorem fill_apply (t : Tcb) (p : Packet) (j : Nat) : (t.fill p).ethPacket j
    = if 8 ≤ j ∧ j < 8 + p.length.toNat then p.data (j - 8)
      else if j = 7 then (p.ethertype >>> 8).setWidth 8
      else if j = 6 then p.ethertype.setWidth 8
      else if j < 6 then p.dstHwAddr j
      else if j < 55 then 0
      else t.ethPacket j := by
  show copyTo (update (update (copyTo (pad p.length.toNat t.ethPacket) 0 p.dstHwAddr 6) 6 _) 7 _)
    payloadAt p.data p.length.toNat j = _
  rw [copyTo]
  split
  · rfl
  · rw [Function.update_apply, Function.update_apply, copyTo, pad, padLoop_apply]
    split
    · rfl
    · split
      · rfl
      · by_cases h6 : j < 6
        · rw [if_pos (by omega), if_pos h6, Nat.sub_zero]
        · rw [if_neg (by omega), if_neg h6]
          refine if_congr ?_ rfl rfl
          show 8 + p.length.toNat ≤ j ∧ j < 8 + p.length.toNat + (47 - p.length.toNat) ↔ j < 55
          rename_i hdata _ _
          have : ¬(8 ≤ j ∧ j < 8 + p.length.toNat) := hdata
          omega

/-- Two frames with the same arguments are the same exactly if the bytes
left from earlier frames are. -/
theorem frame_eq_iff {t₁ t₂ : Tcb} {p : Packet} (h : p.length.toNat ≤ maxEthLength) :
    (t₁.fill p).frame = (t₂.fill p).frame
    ↔ ∀ i, p.Stale i → t₁.ethPacket (payloadAt + i) = t₂.ethPacket (payloadAt + i) := by
  rw [Tcb.frame, Tcb.frame, fill_count h, fill_count h, List.map_inj_left]
  simp only [List.mem_range]
  have hmin := le_txLength p
  constructor
  · intro hall i hi
    have h46 : 46 < i := hi.1
    have hlen := hi.2.1
    have hlt := hi.2.2
    have := hall (8 + i) (by omega)
    rwa [fill_apply, fill_apply, if_neg (by omega), if_neg (by omega), if_neg (by omega),
      if_neg (by omega), if_neg (by omega), if_neg (by omega), if_neg (by omega), if_neg (by omega),
      if_neg (by omega), if_neg (by omega)] at this
  · intro hall j hj
    have hj : j < p.txLength + 14 := hj
    rw [fill_apply, fill_apply]
    refine ite_congr rfl (fun _ => rfl) fun hdata => ?_
    refine ite_congr rfl (fun _ => rfl) fun h7 => ?_
    refine ite_congr rfl (fun _ => rfl) fun h6 => ?_
    refine ite_congr rfl (fun _ => rfl) fun hmac => ?_
    refine ite_congr rfl (fun _ => rfl) fun hpad => ?_
    have hstale : p.Stale (j - 8) :=
      ⟨show 46 < j - 8 by omega, by omega, by omega⟩
    have := hall (j - 8) hstale
    rwa [show payloadAt + (j - 8) = j from Nat.add_sub_cancel' (show 8 ≤ j by omega)] at this

section Leak

variable {nic : Nic} {tcbs tcbs₁ tcbs₂ : Word → Tcb} {p : Packet} {status : Byte}

/-- The frame goes to the card from the block that `get_next_cb` hands out. -/
theorem handed_eq (h : p.length.toNat ≤ maxEthLength) : handed ⟨nic, tcbs⟩ p status
    = (getNextCb nic).map fun r =>
        if startsCu status then r.1.map fun cb => ((tcbs cb).fill p).frame else none := by
  unfold handed sendPacket fillBlock
  rw [if_neg (Nat.not_lt.mpr h)]
  cases getNextCb nic with
  | error e => rfl
  | ok r =>
      obtain ⟨cb, freed, nic'⟩ := r
      cases cb with
      | none =>
          simp only [ok_bind, Except.map, Option.map_none]
          split
          · rfl
          · rfl
      | some cb =>
          simp only [ok_bind, Except.map, Option.map_some]
          split
          · simp only [Option.map_some, update_self]
          · rfl

/-- What is left in the data areas from earlier frames does not get out
exactly if the card is not started, or the stale bytes of the block are the
same. -/
theorem frames_same_iff (h : p.length.toNat ≤ maxEthLength) :
    handed ⟨nic, tcbs₁⟩ p status = handed ⟨nic, tcbs₂⟩ p status
    ↔ (startsCu status = true → ∀ cb freed nic', getNextCb nic = .ok (some cb, freed, nic') →
        ∀ i, p.Stale i →
          (tcbs₁ cb).ethPacket (payloadAt + i) = (tcbs₂ cb).ethPacket (payloadAt + i)) := by
  rw [handed_eq h, handed_eq h]
  by_cases hs : startsCu status = true
  · simp only [hs, if_true, forall_const]
    cases hget : getNextCb nic with
    | error e => simp [Except.map]
    | ok r =>
        obtain ⟨cb, freed, nic'⟩ := r
        cases cb with
        | none => simp [Except.map]
        | some cb =>
            simp only [Except.map, Option.map_some, Except.ok.injEq, Option.some.injEq,
              Prod.mk.injEq, frame_eq_iff h]
            constructor
            · rintro hall _ _ _ ⟨rfl, -⟩
              exact hall
            · exact fun hall => hall cb freed nic' ⟨rfl, rfl, rfl⟩
  · simp [hs]

/-- A data area of zeros, but for the byte `j` of the packet. -/
def tcbWith (j : Nat) (b : Byte) : Tcb := ⟨0, 0, 0, 0, update (fun _ => 0) j b⟩

/-- An ARP packet. -/
def someArp : Packet := ⟨fun _ => 0xFF, fun _ => 0, 28, 0x0608⟩

/-- After initialisation there is a block to send from. -/
theorem getNextCb_first : ∃ nic mm' cb, initCbl noNic totalCb lowPageUsed = .ok (nic, mm')
    ∧ getNextCb nic = .ok (some cb, [], nic.handOut) := by
  have hinit : okAnd (initCbl noNic totalCb lowPageUsed) (fun r => r.1.availCb ≠ 0#32) = true := by
    decide +kernel
  obtain ⟨⟨nic, mm'⟩, hinit, hne⟩ := of_okAnd hinit
  exact ⟨nic, mm', nic.nextCb, hinit, if_neg (of_decide_eq_true hne)⟩

/-- A byte of an earlier payload is overwritten. -/
theorem frames_same_arp : ∃ nic mm', initCbl noNic totalCb lowPageUsed = .ok (nic, mm')
    ∧ handed ⟨nic, fun _ => tcbWith 8 0⟩ someArp 0
      = handed ⟨nic, fun _ => tcbWith 8 7⟩ someArp 0 := by
  obtain ⟨nic, mm', cb, hinit, -⟩ := getNextCb_first
  refine ⟨nic, mm', hinit, (frames_same_iff (by decide)).mpr fun _ cb _ _ _ i hi => ?_⟩
  have h46 : 46 < i := hi.1
  simp only [tcbWith, Function.update_apply]
  rw [if_neg (by omega), if_neg (by omega)]

/-- The byte 47 of an earlier payload goes out behind an ARP packet. -/
theorem frames_leak : ∃ nic mm', initCbl noNic totalCb lowPageUsed = .ok (nic, mm')
    ∧ handed ⟨nic, fun _ => tcbWith 55 0⟩ someArp 0
      ≠ handed ⟨nic, fun _ => tcbWith 55 7⟩ someArp 0 := by
  obtain ⟨nic, mm', cb, hinit, hget⟩ := getNextCb_first
  refine ⟨nic, mm', hinit, fun h => ?_⟩
  rw [handed_eq (by decide), handed_eq (by decide), hget] at h
  have hframe := Option.some.inj (Except.ok.inj h)
  have h47 : someArp.Stale 47 := ⟨by decide, by decide, by decide⟩
  have := (frame_eq_iff (by decide)).mp hframe 47 h47
  exact absurd this (by decide)

end Leak

end SpKernel
