import SpKernel.IpChecksum

/-!
# Answering an ARP request (`nic_rx_daemon`, `send_arp`)

The receive daemon looks at each frame that has come in. To an ARP
request it sends a reply, and it saves the sender of a request or a reply
in the cache.

The fields of `arp_t` are in network order. `send_arp` swaps both
protocol addresses it is given, and `send_arp_reply` is given the one
address as `_nic.my_ip`, in host order, and the other as it stands in the
request: that one goes out backwards. The target of the request is never
looked at, so that every request is answered (`rxFrame_request`).

What a request and a reply are is said of their bytes, in network order
(`IsArpRequest`, `IsArpReply`, `RepliesTo`), without the structures of
the driver, and `Answered` is what should become of a request: a reply to
it if it asks for this host, and nothing if it does not.
`arp_answered_iff` says when this is so: the request has to ask for this
host, and the protocol address of the requester has to be the same
backwards.
-/

namespace SpKernel

open Lib

/-! ## The source -/

abbrev ethertypeArp : Half := 0x0608#16
abbrev arpRequest : Half := 0x0100#16
abbrev arpReply : Half := 0x0200#16

/-- The offset of `payload` in `eth_packet_rx_t`, after `dst_mac`, `src_mac`
and `ethertype`. -/
abbrev rxPayloadAt : Nat := 14

/-- `arp_t`; the six bytes of a hardware address are one value. -/
structure Arp where
  hwType : Half
  protocolType : Half
  hwAddrLen : Byte
  protocolAddrLen : Byte
  opcode : Half
  senderHwAddr : BitVec 48
  senderProtocolAddr : Word
  targetHwAddr : BitVec 48
  targetProtocolAddr : Word

/-- The double word at `i`, as the processor reads it. -/
def loadWord (bytes : Nat → Byte) (i : Nat) : Word :=
  loadHalf (bytes (i + 2)) (bytes (i + 3)) ++ loadHalf (bytes i) (bytes (i + 1))

/-- The hardware address at `i`. -/
def loadHwAddr (bytes : Nat → Byte) (i : Nat) : BitVec 48 :=
  loadHalf (bytes (i + 4)) (bytes (i + 5)) ++ loadWord bytes i

/-- Byte `j` of a hardware address. -/
def hwAddrByte (hwAddr : BitVec 48) (j : Nat) : Byte := (hwAddr >>> (8 * j)).setWidth 8

/-- A hardware address in memory. -/
def storeHwAddr (hwAddr : BitVec 48) : List Byte := (List.range 6).map (hwAddrByte hwAddr)

/-- The struct in memory. -/
def Arp.bytes (arp : Arp) : List Byte :=
  storeHalf arp.hwType ++ storeHalf arp.protocolType ++ [arp.hwAddrLen, arp.protocolAddrLen]
    ++ storeHalf arp.opcode ++ storeHwAddr arp.senderHwAddr ++ storeWord arp.senderProtocolAddr
    ++ storeHwAddr arp.targetHwAddr ++ storeWord arp.targetProtocolAddr

/-- The struct that is in memory. -/
def Arp.load (bytes : Nat → Byte) : Arp where
  hwType := loadHalf (bytes 0) (bytes 1)
  protocolType := loadHalf (bytes 2) (bytes 3)
  hwAddrLen := bytes 4
  protocolAddrLen := bytes 5
  opcode := loadHalf (bytes 6) (bytes 7)
  senderHwAddr := loadHwAddr bytes 8
  senderProtocolAddr := loadWord bytes 14
  targetHwAddr := loadHwAddr bytes 18
  targetProtocolAddr := loadWord bytes 24

/-- `send_arp`: the packet that is given to `send_packet`. `mac` is
`_nic.mac`. -/
def sendArp (mac : BitVec 48) (senderIpAddr targetIpAddr : Word) (targetHwAddr : BitVec 48)
    (opcode : Half) : Packet :=
  let arp : Arp :=
    { hwType := 0x0100
      protocolType := 0x0008
      hwAddrLen := 0x06
      protocolAddrLen := 0x04
      opcode
      senderHwAddr := mac
      senderProtocolAddr := bswap32 senderIpAddr
      targetProtocolAddr := bswap32 targetIpAddr
      targetHwAddr }
  { dstHwAddr := hwAddrByte targetHwAddr
    data := fun j => arp.bytes.getD j 0
    length := 28
    ethertype := ethertypeArp }

def sendArpReply (mac : BitVec 48) (myIp targetIpAddr : Word) (targetHwAddr : BitVec 48) : Packet :=
  sendArp mac myIp targetIpAddr targetHwAddr arpReply

/-- `nic_rx_daemon`, with a frame: the packets given to `send_packet`, and the
cache. -/
def rxFrame (mac : BitVec 48) (myIp : Word) (cache : ArpCache) (data : Nat → Byte) :
    List Packet × ArpCache :=
  if loadHalf (data 12) (data 13) = ethertypeArp then
    let arp := Arp.load fun j => data (rxPayloadAt + j)
    if arp.opcode = arpRequest then
      ([sendArpReply mac myIp arp.senderProtocolAddr arp.senderHwAddr],
        (saveHwAddr cache (bswap32 arp.senderProtocolAddr) arp.senderHwAddr).2)
    else if arp.opcode = arpReply then
      ([], (saveHwAddr cache (bswap32 arp.senderProtocolAddr) arp.senderHwAddr).2)
    else ([], cache)
  else ([], cache)

/-! ## Requests and replies, by their bytes -/

/-- A protocol address, in network order. -/
def netAddr (bytes : Nat → Byte) (i : Nat) : Word :=
  loadWord (fun j => bytes (i + 3 - j)) 0

/-- A frame with an ARP request. -/
structure IsArpRequest (data : Nat → Byte) : Prop where
  ethertype : data 12 = 0x08 ∧ data 13 = 0x06
  opcode : data 20 = 0 ∧ data 21 = 1

/-- A packet with an ARP reply. -/
structure IsArpReply (p : Packet) : Prop where
  ethertype : p.ethertype = ethertypeArp
  opcode : p.data 6 = 0 ∧ p.data 7 = 2

/-- The fields of a reply to the request in `data`. -/
structure RepliesTo (mac : BitVec 48) (myIp : Word) (data : Nat → Byte) (p : Packet) : Prop where
  senderHwAddr : ∀ j < 6, p.data (8 + j) = hwAddrByte mac j
  senderProtocolAddr : netAddr p.data 14 = myIp
  targetHwAddr : ∀ j < 6, p.data (18 + j) = data (rxPayloadAt + (8 + j))
  targetProtocolAddr : ∀ j < 4, p.data (24 + j) = data (rxPayloadAt + (14 + j))

/-- There is a reply exactly to a request for `myIp`, and it is right. -/
def Answered (mac : BitVec 48) (myIp : Word) (cache : ArpCache) (data : Nat → Byte) : Prop :=
  ((∃ p ∈ (rxFrame mac myIp cache data).1, IsArpReply p)
    ↔ netAddr data (rxPayloadAt + 24) = myIp)
  ∧ ∀ p ∈ (rxFrame mac myIp cache data).1, IsArpReply p → RepliesTo mac myIp data p

theorem loadWord_toNat (bytes : Nat → Byte) (i : Nat) :
    (loadWord bytes i).toNat = 2 ^ 24 * (bytes (i + 3)).toNat + 2 ^ 16 * (bytes (i + 2)).toNat
      + 2 ^ 8 * (bytes (i + 1)).toNat + (bytes i).toNat := by
  rw [loadWord, BitVec.toNat_append, ← Nat.shiftLeft_add_eq_or_of_lt (BitVec.isLt _),
    Nat.shiftLeft_eq, loadHalf_toNat, loadHalf_toNat]
  omega

theorem loadHwAddr_toNat (bytes : Nat → Byte) (i : Nat) :
    (loadHwAddr bytes i).toNat = 2 ^ 40 * (bytes (i + 5)).toNat + 2 ^ 32 * (bytes (i + 4)).toNat
      + (loadWord bytes i).toNat := by
  rw [loadHwAddr, BitVec.toNat_append, ← Nat.shiftLeft_add_eq_or_of_lt (BitVec.isLt _),
    Nat.shiftLeft_eq, loadHalf_toNat]
  omega

theorem hwAddrByte_load (bytes : Nat → Byte) (i : Nat) {j : Nat} (hj : j < 6) :
    hwAddrByte (loadHwAddr bytes i) j = bytes (i + j) := by
  refine BitVec.eq_of_toNat_eq ?_
  rw [hwAddrByte, BitVec.toNat_setWidth, BitVec.toNat_ushiftRight, Nat.shiftRight_eq_div_pow,
    loadHwAddr_toNat, loadWord_toNat]
  have h0 := (bytes i).isLt
  have h1 := (bytes (i + 1)).isLt
  have h2 := (bytes (i + 2)).isLt
  have h3 := (bytes (i + 3)).isLt
  have h4 := (bytes (i + 4)).isLt
  have h5 := (bytes (i + 5)).isLt
  interval_cases j <;> simp only [Nat.reduceMul, Nat.reducePow, Nat.add_zero] <;> omega

theorem storeWord_bswap32 (w : Word) : storeWord (bswap32 w)
    = [(w >>> 24).setWidth 8, (w >>> 16).setWidth 8, (w >>> 8).setWidth 8, w.setWidth 8] := by
  simp only [storeWord, storeHalf, List.cons_append, List.nil_append, List.cons.injEq, and_true]
  refine ⟨?_, ?_, ?_, ?_⟩ <;> refine BitVec.eq_of_getElem_eq fun i hi => ?_ <;>
    interval_cases i <;> simp [bswap32]

/-! ## The reply -/

section Reply

variable {mac : BitVec 48} {myIp : Word} {cache : ArpCache} {data : Nat → Byte}

theorem sendArp_data (mac : BitVec 48) (senderIpAddr targetIpAddr : Word) (targetHwAddr : BitVec 48)
    (opcode : Half) {j : Nat} :
    (j < 6 → (sendArp mac senderIpAddr targetIpAddr targetHwAddr opcode).data (8 + j)
        = hwAddrByte mac j)
    ∧ (j < 4 → (sendArp mac senderIpAddr targetIpAddr targetHwAddr opcode).data (14 + j)
        = (senderIpAddr >>> (8 * (3 - j))).setWidth 8)
    ∧ (j < 6 → (sendArp mac senderIpAddr targetIpAddr targetHwAddr opcode).data (18 + j)
        = hwAddrByte targetHwAddr j)
    ∧ (j < 4 → (sendArp mac senderIpAddr targetIpAddr targetHwAddr opcode).data (24 + j)
        = (targetIpAddr >>> (8 * (3 - j))).setWidth 8) := by
  simp only [sendArp, Arp.bytes, storeWord_bswap32]
  refine ⟨?_, ?_, ?_, ?_⟩ <;> intro hj <;> interval_cases j <;> rfl

/-- A word in network order, as the bytes of its address are read. -/
theorem netAddr_eq {bytes : Nat → Byte} {i : Nat} {w : Word}
    (h : ∀ j < 4, bytes (i + j) = (w >>> (8 * (3 - j))).setWidth 8) : netAddr bytes i = w := by
  refine BitVec.eq_of_toNat_eq ?_
  have hw := w.isLt
  rw [netAddr, loadWord_toNat]
  simp only [Nat.zero_add, Nat.add_sub_cancel, Nat.sub_zero]
  rw [show i + 3 - 1 = i + 2 from rfl, show i + 3 - 2 = i + 1 from rfl, h 3 (by omega),
    h 2 (by omega), h 1 (by omega), show i = i + 0 from rfl, h 0 (by omega)]
  simp only [BitVec.toNat_setWidth, BitVec.toNat_ushiftRight, Nat.shiftRight_eq_div_pow]
  omega

/-- A byte of what the processor reads, by its place in the word. -/
theorem loadWord_byte (bytes : Nat → Byte) (i : Nat) {j : Nat} (hj : j < 4) :
    (loadWord bytes i >>> (8 * (3 - j))).setWidth 8 = bytes (i + (3 - j)) := by
  refine BitVec.eq_of_toNat_eq ?_
  rw [BitVec.toNat_setWidth, BitVec.toNat_ushiftRight, Nat.shiftRight_eq_div_pow, loadWord_toNat]
  have h0 := (bytes i).isLt
  have h1 := (bytes (i + 1)).isLt
  have h2 := (bytes (i + 2)).isLt
  have h3 := (bytes (i + 3)).isLt
  interval_cases j <;>
    simp only [Nat.reduceMul, Nat.reduceSub, Nat.reducePow, Nat.add_zero] <;> omega

/-- A request is answered, whatever its target; and it is saved. -/
theorem rxFrame_request (h : IsArpRequest data) : rxFrame mac myIp cache data
    = ([sendArpReply mac myIp (loadWord data 28) (loadHwAddr data 22)],
      (saveHwAddr cache (bswap32 (loadWord data 28)) (loadHwAddr data 22)).2) := by
  obtain ⟨⟨h12, h13⟩, h20, h21⟩ := h
  have htype : loadHalf (data 12) (data 13) = ethertypeArp := by
    rw [h12, h13]
    rfl
  have hop : (Arp.load fun j => data (rxPayloadAt + j)).opcode = arpRequest := by
    show loadHalf (data 20) (data 21) = arpRequest
    rw [h20, h21]
    rfl
  rw [rxFrame, if_pos htype]
  exact if_pos hop

theorem isArpReply_sendArpReply (mac : BitVec 48) (myIp targetIpAddr : Word)
    (targetHwAddr : BitVec 48) : IsArpReply (sendArpReply mac myIp targetIpAddr targetHwAddr) where
  ethertype := rfl
  opcode := show arpReply.setWidth 8 = (0 : Byte) ∧ (arpReply >>> 8).setWidth 8 = (2 : Byte) by
    decide

/-- All fields are right but for the protocol address of the target, which is
backwards. -/
theorem repliesTo_iff : RepliesTo mac myIp data
      (sendArpReply mac myIp (loadWord data 28) (loadHwAddr data 22))
    ↔ data 28 = data 31 ∧ data 29 = data 30 := by
  have htarget : ∀ j < 4, (sendArpReply mac myIp (loadWord data 28) (loadHwAddr data 22)).data
      (24 + j) = data (28 + (3 - j)) := by
    intro j hj
    rw [sendArpReply, (sendArp_data _ _ _ _ _).2.2.2 hj, loadWord_byte data 28 hj]
  constructor
  · intro h
    have h0 := h.targetProtocolAddr 0 (by omega)
    have h1 := h.targetProtocolAddr 1 (by omega)
    rw [htarget 0 (by omega)] at h0
    rw [htarget 1 (by omega)] at h1
    exact ⟨h0.symm, h1.symm⟩
  · rintro ⟨h0, h1⟩
    refine ⟨fun j hj => (sendArp_data _ _ _ _ _).1 hj,
      netAddr_eq fun j hj => (sendArp_data _ _ _ _ _).2.1 hj, fun j hj => ?_, fun j hj => ?_⟩
    · rw [sendArpReply, (sendArp_data _ _ _ _ _).2.2.1 hj, hwAddrByte_load data 22 hj]
      exact congrArg data (show 22 + j = 14 + (8 + j) by omega)
    · rw [htarget j hj]
      interval_cases j
      · exact h0.symm
      · exact h1.symm
      · exact h1
      · exact h0

/-- An ARP request is rightly answered exactly if its target is `myIp` and the
protocol address of its sender is the same backwards. -/
theorem arp_answered_iff (h : IsArpRequest data) : Answered mac myIp cache data
    ↔ netAddr data (rxPayloadAt + 24) = myIp ∧ data 28 = data 31 ∧ data 29 = data 30 := by
  have hreply := isArpReply_sendArpReply mac myIp (loadWord data 28) (loadHwAddr data 22)
  rw [Answered, rxFrame_request h]
  simp only [List.mem_singleton, exists_eq_left, forall_eq]
  rw [iff_true_left hreply, forall_prop_of_true hreply, repliesTo_iff]

end Reply

/-- The request of a host with the address `ip` for the address `target`. -/
def requestFrom (ip target : Word) : Nat → Byte := fun j =>
  if j < rxPayloadAt then ([0x08, 0x06] : List Byte).getD (j - 12) 0
  else (sendArp 0xA ip target 0 arpRequest).data (j - rxPayloadAt)

theorem isArpRequest_requestFrom (ip target : Word) : IsArpRequest (requestFrom ip target) where
  ethertype := ⟨rfl, rfl⟩
  opcode := show arpRequest.setWidth 8 = (0 : Byte) ∧ (arpRequest >>> 8).setWidth 8 = (1 : Byte) by
    decide

/-- 10.1.1.10 asks 10.0.0.1 for its own address. -/
theorem arp_answered_iff_test :
    Answered 0xB 0x0A000001 zeroedCache (requestFrom 0x0A01010A 0x0A000001) :=
  (arp_answered_iff (isArpRequest_requestFrom 0x0A01010A 0x0A000001)).mpr
    ⟨by decide, by decide, by decide⟩

/-- The same host asks for another address, and 10.0.0.2 for this one. -/
theorem arp_wrongly_answered :
    ¬Answered 0xB 0x0A000001 zeroedCache (requestFrom 0x0A01010A 0x0A000003)
    ∧ ¬Answered 0xB 0x0A000001 zeroedCache (requestFrom 0x0A000002 0x0A000001) := by
  have hreply := isArpReply_sendArpReply
  constructor
  · rintro ⟨hiff, -⟩
    rw [rxFrame_request (isArpRequest_requestFrom _ _)] at hiff
    exact absurd (hiff.mp ⟨_, List.mem_singleton_self _, hreply _ _ _ _⟩) (by decide)
  · rintro ⟨-, hall⟩
    rw [rxFrame_request (isArpRequest_requestFrom _ _)] at hall
    have hto := hall _ (List.mem_singleton_self _) (hreply _ _ _ _)
    exact absurd (repliesTo_iff.mp hto).1 (by decide)

end SpKernel
