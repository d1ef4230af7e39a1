import SpKernel.IpChecksum

/-!
# The length of a packet (`send_ipv4`)

`send_ipv4` builds the packet in a local variable. The header's length
field and `send_packet` get the length as 16 bits, with the header; the
payload is copied into the variable with all 32 bits of it, and before
`send_packet` has looked at any length (`ipDataWrites`).

Up to 1480 bytes the packet is sent as it should be (`carries_fill`).
From there to the end of the variable it is refused; behind the end, the
copy has already overwritten what follows on the stack, whatever the 16
bits say.

`LengthHandled` is what a call should do with a length: a frame that
carries the packet whole (`Carries`), or a refusal with nothing sent, and
in neither case a byte behind the variable. `send_ipv4_length` says for
which lengths that is so. The address is taken to be in the cache
(`sendIpv4_found`), since waiting for it has nothing to do with the
length.
-/

namespace SpKernel

open Function (update_self)
open Lib

/-! ## The source -/

/-- The size of `ip_data`, `NET_INTEL_TCB_MAX_DATA_LEN - 5`. -/
abbrev ipDataLen : Nat := 2600 - 5

/-- `memcpy(ipv4.ip_data, data, length)`: the bytes of `ip_data` that are
written, in order. -/
def ipDataWrites (length : Word) : List Nat := List.range length.toNat

/-- A call of `send_ipv4`: the writes into `ip_data`, and what comes of it.
The status is the one that `send_packet` reads. -/
def sendIpv4Call (wait : Nat → ArpCache → ArpCache) (cache : ArpCache) (d : Driver)
    (myIp dstIp : Word) (data : Nat → Byte) (length protocol : Word) (status : Byte) :
    List Nat × Except Fault (Word × Option Word × Driver) :=
  match sendIpv4 wait cache myIp dstIp data length protocol with
  | none => ([], .ok (-1, none, d))
  | some p => (ipDataWrites length, sendPacket d p status)

/-! ## What a frame should be -/

/-- A frame with the length of the payload and the header, in network order,
and the whole payload. -/
structure Carries (frame : List Byte) (data : Nat → Byte) (length : Nat) : Prop where
  totalLen : ∃ hi lo, frame[payloadAt + 2]? = some hi ∧ frame[payloadAt + 3]? = some lo
    ∧ 2 ^ 8 * hi.toNat + lo.toNat = length + ipv4HeadLen
  payload : ∀ j < length, frame[payloadAt + ipv4HeadLen + j]? = some (data j)

/-- The call stays in `ip_data`; and it fails and sends nothing, or the block
`cb` holds the right frame. -/
structure LengthHandled (d : Driver) (cb : Word) (data : Nat → Byte) (length : Word)
    (call : List Nat × Except Fault (Word × Option Word × Driver)) : Prop where
  inside : ∀ i ∈ call.1, i < ipDataLen
  outcome : ∃ result started d', call.2 = .ok (result, started, d')
    ∧ (result = -1 ∧ started = none ∧ d' = d
      ∨ result = 0 ∧ (∀ b, started = some b → b = cb)
        ∧ Carries (d'.tcbs cb).frame data length.toNat)

section Length

variable {wait : Nat → ArpCache → ArpCache} {cache : ArpCache} {d : Driver} {myIp dstIp : Word}
  {data : Nat → Byte} {length protocol : Word} {status : Byte} {hwAddr : BitVec 48}

theorem sendIpv4_found (h : findHwAddr cache dstIp = some hwAddr) :
    sendIpv4 wait cache myIp dstIp data length protocol
      = some (ipv4Packet myIp dstIp hwAddr data length protocol) := by
  rw [sendIpv4, getHwAddr, h]
  rfl

theorem storeHalf_bswap16 (h : Half) :
    storeHalf (bswap16 h) = [(h >>> 8).setWidth 8, h.setWidth 8] := by
  simp only [storeHalf, List.cons.injEq, and_true]
  refine ⟨?_, ?_⟩ <;> refine BitVec.eq_of_getElem_eq fun i hi => ?_ <;>
    interval_cases i <;> simp [bswap16]

theorem ipLength_toNat (h : length.toNat + ipv4HeadLen < 2 ^ 16) :
    (ipLength length).toNat = length.toNat + ipv4HeadLen := by
  have h' : length.toNat + 20 < 2 ^ 16 := h
  rw [ipLength, BitVec.toNat_setWidth, BitVec.toNat_add, BitVec.toNat_ofNat]
  show (length.toNat + 20 % 2 ^ 32) % 2 ^ 32 % 2 ^ 16 = length.toNat + 20
  omega

theorem ipv4Header_totalLen (myIp dstIp length protocol : Word) :
    (ipv4Header myIp dstIp length protocol).bytes.getD 2 0 = (ipLength length >>> 8).setWidth 8
    ∧ (ipv4Header myIp dstIp length protocol).bytes.getD 3 0 = (ipLength length).setWidth 8 := by
  have hbytes : storeHalf (ipv4Header myIp dstIp length protocol).totalLen
      = [(ipLength length >>> 8).setWidth 8, (ipLength length).setWidth 8] := storeHalf_bswap16 _
  rw [Ipv4.bytes, hbytes]
  exact ⟨rfl, rfl⟩

theorem frame_getElem? {t : Tcb} {p : Packet} (h : p.length.toNat ≤ maxEthLength) {j : Nat}
    (hj : j < p.length.toNat) : (t.fill p).frame[payloadAt + j]? = some (p.data j) := by
  have hmin := le_txLength p
  rw [Tcb.frame, fill_count h, List.getElem?_map, List.getElem?_range
    (show 8 + j < p.txLength + 14 by omega), Option.map_some, fill_apply,
    if_pos (show 8 ≤ 8 + j ∧ 8 + j < 8 + p.length.toNat by omega)]
  exact congrArg (some <| p.data ·) (Nat.add_sub_cancel_left 8 j)

/-- The length of a packet that is not too long is right, and so is its
payload. -/
theorem carries_fill (t : Tcb) (h : length.toNat + ipv4HeadLen ≤ maxEthLength) :
    Carries (t.fill (ipv4Packet myIp dstIp hwAddr data length protocol)).frame data
      length.toNat := by
  have h' : length.toNat + 20 ≤ 1500 := h
  have hlen : (ipv4Packet myIp dstIp hwAddr data length protocol).length.toNat
      = length.toNat + 20 := ipLength_toNat (show length.toNat + 20 < 2 ^ 16 by omega)
  have hbyte : ∀ j < length.toNat + 20,
      (t.fill (ipv4Packet myIp dstIp hwAddr data length protocol)).frame[payloadAt + j]?
        = some ((ipv4Packet myIp dstIp hwAddr data length protocol).data j) := fun j hj =>
    frame_getElem? (by rwa [hlen]) (by rwa [hlen])
  obtain ⟨hhi, hlo⟩ := ipv4Header_totalLen myIp dstIp length protocol
  refine ⟨⟨_, _, hbyte 2 (by omega), hbyte 3 (by omega), ?_⟩, fun j hj => ?_⟩
  · show 2 ^ 8 * ((ipv4Header myIp dstIp length protocol).bytes.getD 2 0).toNat
      + ((ipv4Header myIp dstIp length protocol).bytes.getD 3 0).toNat = length.toNat + ipv4HeadLen
    rw [hhi, hlo, ← ipLength_toNat (show length.toNat + 20 < 2 ^ 16 by omega),
      BitVec.toNat_setWidth, BitVec.toNat_setWidth, BitVec.toNat_ushiftRight,
      Nat.shiftRight_eq_div_pow]
    have := (ipLength length).isLt
    omega
  · have hdata := hbyte (20 + j) (by omega)
    rw [Nat.add_assoc]
    refine hdata.trans (congrArg some ?_)
    show (if 20 + j < 20 then _ else data (20 + j - 20)) = data j
    rw [if_neg (by omega), Nat.add_sub_cancel_left]

/-! ## The call -/

theorem sendPacket_long {p : Packet} (h : maxEthLength < p.length.toNat) :
    sendPacket d p status = .ok (-1, none, d) := by
  rw [sendPacket, fillBlock, if_pos h]
  rfl

theorem sendPacket_block {p : Packet} (h : p.length.toNat ≤ maxEthLength) {cb : Word}
    {freed : List Word} {nic : Nic} (hget : getNextCb d.nic = .ok (some cb, freed, nic)) :
    ∃ started d', sendPacket d p status = .ok (0, started, d')
      ∧ (∀ b, started = some b → b = cb) ∧ d'.tcbs cb = (d.tcbs cb).fill p := by
  rw [sendPacket, fillBlock, if_neg (Nat.not_lt.mpr h), hget]
  refine ⟨_, _, rfl, fun b hb => ?_, update_self ..⟩
  split at hb
  · exact (Option.some.inj hb).symm
  · cases hb

theorem LengthHandled.length_le {cb : Word} (hfound : findHwAddr cache dstIp = some hwAddr)
    (h : LengthHandled d cb data length
      (sendIpv4Call wait cache d myIp dstIp data length protocol status)) :
    length.toNat ≤ ipDataLen := by
  rw [sendIpv4Call, sendIpv4_found hfound] at h
  by_contra hlong
  exact absurd (h.inside ipDataLen (List.mem_range.mpr (not_le.mp hlong))) (lt_irrefl _)

/-- With the address in the cache and a command block to be had, a length is
handled as it should be exactly if the payload fits into the packet. -/
theorem send_ipv4_length {cb : Word} {freed : List Word} {nic : Nic}
    (hfound : findHwAddr cache dstIp = some hwAddr)
    (hget : getNextCb d.nic = .ok (some cb, freed, nic)) :
    LengthHandled d cb data length
        (sendIpv4Call wait cache d myIp dstIp data length protocol status)
      ↔ length.toNat ≤ ipDataLen := by
  refine ⟨LengthHandled.length_le hfound, ?_⟩
  rw [sendIpv4Call, sendIpv4_found hfound]
  intro hfits
  have hfits' : length.toNat ≤ 2595 := hfits
  refine ⟨fun i hi => (List.mem_range.mp hi).trans_le hfits, ?_⟩
  -- no length that fits has lost a bit in the 16 of the packet
  have hlen : (ipv4Packet myIp dstIp hwAddr data length protocol).length.toNat
      = length.toNat + 20 := ipLength_toNat (show length.toNat + 20 < 2 ^ 16 by omega)
  by_cases hshort : length.toNat + ipv4HeadLen ≤ maxEthLength
  · obtain ⟨started, d', hsend, hcb, hfill⟩ := sendPacket_block (hlen.trans_le hshort) hget
    refine ⟨_, _, _, hsend, .inr ⟨rfl, hcb, ?_⟩⟩
    rw [hfill]
    exact carries_fill _ hshort
  · exact ⟨_, _, _, sendPacket_long ((not_le.mp hshort).trans_eq hlen.symm),
      .inl ⟨rfl, rfl, rfl⟩⟩

end Length

/-- The cache with the host that the test program sends to. -/
def testCache : ArpCache := (saveHwAddr zeroedCache 0xA9FEA9B8 0xA).2

theorem findHwAddr_testCache : findHwAddr testCache 0xA9FEA9B8 = some 0xA := by
  rw [testCache, findHwAddr_save placed_empty, if_pos (by decide +kernel)]

/-- The message of the test program. -/
theorem send_ipv4_length_test : ∃ nic cb,
    LengthHandled ⟨nic, fun _ => tcbWith 0 0⟩ cb (fun _ => 0) 31
      (sendIpv4Call (fun _ cache => cache) testCache ⟨nic, fun _ => tcbWith 0 0⟩ 0xA9FE0101
        0xA9FEA9B8 (fun _ => 0) 31 0x11 0) := by
  obtain ⟨nic, -, cb, -, hget⟩ := getNextCb_first
  exact ⟨nic, cb, (send_ipv4_length findHwAddr_testCache hget).mpr (by decide)⟩

/-- 2596 bytes are one too many for `ip_data`. -/
theorem send_ipv4_overrun : ∃ nic cb freed nic', getNextCb nic = .ok (some cb, freed, nic')
    ∧ ¬LengthHandled ⟨nic, fun _ => tcbWith 0 0⟩ cb (fun _ => 0) 2596
      (sendIpv4Call (fun _ cache => cache) testCache ⟨nic, fun _ => tcbWith 0 0⟩ 0xA9FE0101
        0xA9FEA9B8 (fun _ => 0) 2596 0x11 0) := by
  obtain ⟨nic, -, cb, -, hget⟩ := getNextCb_first
  refine ⟨nic, cb, _, _, hget, fun h => ?_⟩
  exact absurd (h.length_le findHwAddr_testCache) (by decide)

end SpKernel
