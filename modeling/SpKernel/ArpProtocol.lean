import SpKernel.ArpReply

/-!
# The ARP protocol

Hosts with this driver on one network, each with its own hardware address
and IP address. They ask for addresses, announce their own, and answer, and
send packets of other kinds. The cards are promiscuous: a frame can come in at
any host, any number of times or never, and after any other. It carries, behind
what was sent, whatever the command block held before. A host that has no
command block left sends nothing: `send_packet` fails then, and nobody looks at
what it returns. Whether there is a block is left open in every event, so that
what is proved holds whatever becomes of the ring.

Every request is answered by every host that hears it, if it has a block, but
with the address of the host itself. So nothing wrong gets into a cache
(`Sound.step`: caches hold addresses of hosts, and ARP packets are about their
senders). The IP addresses are different, and no more than a cache has room
for: a save then neither fails nor takes another's place (`Sound.known_save`),
and a host that has been heard stays known (`Sound.known_run`). `arp_protocol`
puts these together for a request, its answer, and all that comes between.
-/

namespace SpKernel

open Function (update update_self update_of_ne)
open Lib

/-! ## The source -/

def sendGratArp (mac : BitVec 48) (senderIpAddr : Word) : Packet :=
  sendArp mac senderIpAddr senderIpAddr 0xFFFFFFFFFFFF#48 arpRequest

def sendArpRequest (mac : BitVec 48) (myIp targetIpAddr : Word) : Packet :=
  sendArp mac myIp targetIpAddr 0 arpRequest

/-- The frame that is received when the card sends a packet from a block:
the card puts its own address behind the destination. -/
def onWire (mac : BitVec 48) (tcb : Tcb) (p : Packet) : Nat → Byte := fun j =>
  if j < 6 then (tcb.fill p).ethPacket j
  else if j < 12 then hwAddrByte mac (j - 6)
  else (tcb.fill p).ethPacket (j - 6)

/-! ## The network -/

section Network

variable {ι : Type*} [DecidableEq ι] (mac : ι → BitVec 48) (ip : ι → Word)

/-- The caches, and the packets that have been handed to the cards. -/
structure Lan (ι : Type*) where
  cache : ι → ArpCache
  sent : List (ι × Packet)

/-- What a host does. With `cb`, `get_next_cb` has a block for what it sends. -/
inductive LanEvent (ι : Type*)
  /-- `get_hw_addr` of a host asks for the target -/
  | ask (host : ι) (target : Word) (cb : Bool)
  | announce (host : ι) (cb : Bool)
  /-- a packet of another kind -/
  | other (host : ι) (p : Packet) (cb : Bool)
  /-- packet `n` comes in, sent from a block with this old content -/
  | receive (host : ι) (n : Nat) (tcb : Tcb) (cb : Bool)

/-- The calls of `send_packet` that a host makes. -/
def Lan.sendPackets (s : Lan ι) (host : ι) (cb : Bool) (ps : List Packet) : Lan ι :=
  if cb then { s with sent := s.sent ++ ps.map fun p => (host, p) } else s

def lanStep (s : Lan ι) : LanEvent ι → Except Unit (Lan ι)
  | .ask i target cb => .ok (s.sendPackets i cb [sendArpRequest (mac i) (ip i) target])
  | .announce i cb => .ok (s.sendPackets i cb [sendGratArp (mac i) (ip i)])
  | .other i p cb =>
      if p.ethertype = ethertypeArp then .error () else .ok (s.sendPackets i cb [p])
  | .receive j n tcb cb =>
      match s.sent[n]? with
      | none => .error ()
      | some (i, p) =>
          let (replies, cache) := rxFrame (mac j) (ip j) (s.cache j) (onWire (mac i) tcb p)
          .ok ({ s with cache := update s.cache j cache }.sendPackets j cb replies)

/-- All caches have been cleared, and nothing has been sent. -/
def Lan.start : Lan ι := ⟨fun _ => zeroedCache, []⟩

end Network

/-! ## Frames -/

theorem bswap32_bswap32 (w : Word) : bswap32 (bswap32 w) = w := by
  refine BitVec.eq_of_getElem_eq fun i hi => ?_
  interval_cases i <;> simp [bswap32]

theorem loadWord_split {bytes : Nat → Byte} {i : Nat} (w : Word)
    (h : ∀ j < 4, bytes (i + j) = (w >>> (8 * j)).setWidth 8) : loadWord bytes i = w := by
  refine BitVec.eq_of_toNat_eq ?_
  have hlt := w.isLt
  rw [loadWord_toNat, h 3 (by omega), h 2 (by omega), h 1 (by omega), ← Nat.add_zero i,
    h 0 (by omega)]
  simp only [BitVec.toNat_setWidth, BitVec.toNat_ushiftRight, Nat.shiftRight_eq_div_pow]
  omega

theorem loadHwAddr_split {bytes : Nat → Byte} {i : Nat} (hwAddr : BitVec 48)
    (h : ∀ j < 6, bytes (i + j) = hwAddrByte hwAddr j) : loadHwAddr bytes i = hwAddr := by
  refine BitVec.eq_of_toNat_eq ?_
  have hlt := hwAddr.isLt
  rw [loadHwAddr_toNat, loadWord_toNat, h 5 (by omega), h 4 (by omega), h 3 (by omega),
    h 2 (by omega), h 1 (by omega), ← Nat.add_zero i, h 0 (by omega)]
  simp only [hwAddrByte, BitVec.toNat_setWidth, BitVec.toNat_ushiftRight,
    Nat.shiftRight_eq_div_pow]
  omega

theorem storeWord_getD (w : Word) {j : Nat} (hj : j < 4) :
    (storeWord w).getD j 0 = (w >>> (8 * j)).setWidth 8 := by
  refine BitVec.eq_of_toNat_eq ?_
  have hlt := w.isLt
  interval_cases j <;>
    simp [storeWord, storeHalf, BitVec.toNat_setWidth, BitVec.toNat_ushiftRight,
      Nat.shiftRight_eq_div_pow] <;> omega

theorem Arp.load_bytes (arp : Arp) : Arp.load (fun j => arp.bytes.getD j 0) = arp := by
  have hsender : loadHwAddr (fun j => arp.bytes.getD j 0) 8 = arp.senderHwAddr :=
    loadHwAddr_split _ fun j hj => by interval_cases j <;> rfl
  have htarget : loadHwAddr (fun j => arp.bytes.getD j 0) 18 = arp.targetHwAddr :=
    loadHwAddr_split _ fun j hj => by interval_cases j <;> rfl
  have hsenderAddr : loadWord (fun j => arp.bytes.getD j 0) 14 = arp.senderProtocolAddr := by
    refine loadWord_split _ fun j hj => Eq.trans ?_ (storeWord_getD arp.senderProtocolAddr hj)
    interval_cases j <;> rfl
  have htargetAddr : loadWord (fun j => arp.bytes.getD j 0) 24 = arp.targetProtocolAddr := by
    refine loadWord_split _ fun j hj => Eq.trans ?_ (storeWord_getD arp.targetProtocolAddr hj)
    interval_cases j <;> rfl
  have hhw : loadHalf (arp.bytes.getD 0 0) (arp.bytes.getD 1 0) = arp.hwType :=
    loadHalf_store arp.hwType
  have hprotocol : loadHalf (arp.bytes.getD 2 0) (arp.bytes.getD 3 0) = arp.protocolType :=
    loadHalf_store arp.protocolType
  have hopcode : loadHalf (arp.bytes.getD 6 0) (arp.bytes.getD 7 0) = arp.opcode :=
    loadHalf_store arp.opcode
  rw [Arp.load, hsender, htarget, hsenderAddr, htargetAddr, hhw, hprotocol, hopcode]
  rfl

theorem Arp.load_congr {f g : Nat → Byte} (h : ∀ j < 28, f j = g j) : Arp.load f = Arp.load g := by
  have hword : ∀ i, i + 3 < 28 → loadWord f i = loadWord g i := by
    intro i hi
    rw [loadWord, loadWord, h i (by omega), h (i + 1) (by omega), h (i + 2) (by omega),
      h (i + 3) hi]
  have haddr : ∀ i, i + 5 < 28 → loadHwAddr f i = loadHwAddr g i := by
    intro i hi
    rw [loadHwAddr, loadHwAddr, h (i + 4) (by omega), h (i + 5) hi, hword i (by omega)]
  rw [Arp.load, Arp.load, h 0 (by omega), h 1 (by omega), h 2 (by omega), h 3 (by omega),
    h 4 (by omega), h 5 (by omega), h 6 (by omega), h 7 (by omega), haddr 8 (by omega),
    haddr 18 (by omega), hword 14 (by omega), hword 24 (by omega)]

section Frames

variable {m : BitVec 48} {tcb : Tcb} {p : Packet}

theorem onWire_ethertype (m : BitVec 48) (tcb : Tcb) (p : Packet) :
    loadHalf (onWire m tcb p 12) (onWire m tcb p 13) = p.ethertype := by
  have h6 : (tcb.fill p).ethPacket 6 = p.ethertype.setWidth 8 := by
    rw [fill_apply, if_neg (by omega), if_neg (by omega), if_pos rfl]
  have h7 : (tcb.fill p).ethPacket 7 = (p.ethertype >>> 8).setWidth 8 := by
    rw [fill_apply, if_neg (by omega), if_pos rfl]
  rw [onWire, onWire, if_neg (by omega), if_neg (by omega), if_neg (by omega), if_neg (by omega),
    h6, h7, loadHalf_store]

theorem onWire_data (m : BitVec 48) (tcb : Tcb) (p : Packet) {j : Nat} (hj : j < p.length.toNat) :
    onWire m tcb p (rxPayloadAt + j) = p.data j := by
  have h14 : rxPayloadAt = 14 := rfl
  rw [h14, onWire, if_neg (by omega), if_neg (by omega), fill_apply, if_pos (by omega)]
  exact congrArg p.data (by omega)

/-- The ARP packet that is received is the one that was sent. -/
theorem onWire_sendArp (m : BitVec 48) (tcb : Tcb) (sender target : Word) (hw : BitVec 48)
    (op : Half) :
    (Arp.load fun j => onWire m tcb (sendArp m sender target hw op) (rxPayloadAt + j))
      = ⟨0x0100, 0x0008, 0x06, 0x04, op, m, bswap32 sender, hw, bswap32 target⟩ :=
  (Arp.load_congr fun _ hj => onWire_data m tcb _ hj).trans (Arp.load_bytes _)

end Frames

/-! ## What a host learns -/

section Host

variable {m : BitVec 48} {myIp : Word} {cache : ArpCache} {tcb : Tcb}

theorem rxFrame_other {p : Packet} (sender : BitVec 48) (h : p.ethertype ≠ ethertypeArp) :
    rxFrame m myIp cache (onWire sender tcb p) = ([], cache) := by
  rw [rxFrame, onWire_ethertype]
  exact if_neg h

/-- The sender of a request or a reply is saved, and a request is answered. -/
theorem rxFrame_arp (sender : BitVec 48) (ip target : Word) (hw : BitVec 48) {op : Half}
    (h : op = arpRequest ∨ op = arpReply) :
    rxFrame m myIp cache (onWire sender tcb (sendArp sender ip target hw op))
      = (if op = arpRequest then [sendArpReply m myIp (bswap32 ip) sender] else [],
        (saveHwAddr cache ip sender).2) := by
  have htype : (sendArp sender ip target hw op).ethertype = ethertypeArp := rfl
  rw [rxFrame, onWire_ethertype, if_pos htype, onWire_sendArp]
  dsimp only
  rw [bswap32_bswap32]
  rcases h with rfl | rfl
  · rw [if_pos rfl, if_pos rfl]
  · rw [if_neg (by decide), if_pos rfl, if_neg (by decide)]

end Host

theorem latest_mem {ip : Word} {m : BitVec 48} : ∀ {tr : List (ArpCache × Save)},
    latest ip tr = some m → ∃ x ∈ tr, x.2 = (ip, m)
  | [], h => by cases h
  | (cache, call) :: tr, h => by
      rw [latest, Option.or_eq_some_iff] at h
      rcases h with h | ⟨-, h⟩
      · obtain ⟨x, hx, he⟩ := latest_mem h
        exact ⟨x, List.mem_cons_of_mem _ hx, he⟩
      · split at h
        · rename_i hc
          exact ⟨_, List.mem_cons_self .., Prod.ext hc.1 (Option.some.inj h)⟩
        · cases h

/-! ## What holds in every run -/

namespace Lan

variable {ι : Type*} {mac : ι → BitVec 48} {ip : ι → Word} {s s' : Lan ι} {cb : Bool}

@[simp] theorem sendPackets_cache (s : Lan ι) (i : ι) (cb : Bool) (ps : List Packet) :
    (s.sendPackets i cb ps).cache = s.cache := by
  cases cb <;> rfl

@[simp] theorem sendPackets_nil (s : Lan ι) (i : ι) (cb : Bool) : s.sendPackets i cb [] = s := by
  cases cb
  · rfl
  · exact congrArg (Lan.mk s.cache) (List.append_nil _)

theorem mem_sendPackets {i : ι} {ps : List Packet} {x : ι × Packet}
    (hx : x ∈ (s.sendPackets i cb ps).sent) : x ∈ s.sent ∨ x.1 = i ∧ x.2 ∈ ps := by
  cases cb with
  | false => exact .inl hx
  | true =>
      rcases List.mem_append.mp hx with hx | hx
      · exact .inl hx
      · obtain ⟨p, hp, rfl⟩ := List.mem_map.mp hx
        exact .inr ⟨rfl, hp⟩

theorem sendPackets_kept {i : ι} {ps : List Packet} {n : Nat} {x : ι × Packet}
    (hn : s.sent[n]? = some x) : (s.sendPackets i cb ps).sent[n]? = some x := by
  have hlt : n < s.sent.length := (List.getElem?_eq_some_iff.mp hn).1
  cases cb with
  | false => exact hn
  | true => exact (List.getElem?_append_left hlt).trans hn

/-- Caches hold addresses of hosts, and the ARP packets are about those who
sent them. -/
structure Sound (mac : ι → BitVec 48) (ip : ι → Word) (s : Lan ι) : Prop where
  cache : ∀ j, ∃ tr, Mirrors tr (s.cache j) ∧ ∀ x ∈ tr, ∃ i, x.2 = (ip i, mac i)
  sent : ∀ x ∈ s.sent, x.2.ethertype = ethertypeArp → ∃ target hw op,
    (op = arpRequest ∨ op = arpReply) ∧ x.2 = sendArp (mac x.1) (ip x.1) target hw op

theorem Sound.sendPackets (h : Sound mac ip s) {i : ι} {ps : List Packet}
    (hps : ∀ p ∈ ps, p.ethertype = ethertypeArp → ∃ target hw op,
      (op = arpRequest ∨ op = arpReply) ∧ p = sendArp (mac i) (ip i) target hw op) :
    Sound mac ip (s.sendPackets i cb ps) := by
  refine ⟨fun j => ?_, fun x hx => ?_⟩
  · rw [sendPackets_cache]
    exact h.cache j
  · rcases mem_sendPackets hx with hx | ⟨rfl, hp⟩
    · exact h.sent x hx
    · exact hps x.2 hp

/-- A request or a reply, or nothing, is about the host that sends it. -/
theorem Sound.sendsArp (h : Sound mac ip s) {i : ι} {target : Word} {hw : BitVec 48} {op : Half}
    (hop : op = arpRequest ∨ op = arpReply) :
    Sound mac ip (s.sendPackets i cb [sendArp (mac i) (ip i) target hw op]) := by
  refine h.sendPackets fun p hp _ => ?_
  rw [List.mem_singleton.mp hp]
  exact ⟨target, hw, op, hop, rfl⟩

theorem Sound.save (h : Sound mac ip s) (j i : ι) : ∃ tr,
    Mirrors tr (saveHwAddr (s.cache j) (ip i) (mac i)).2 ∧ ∀ x ∈ tr, ∃ i, x.2 = (ip i, mac i) := by
  obtain ⟨tr, hm, hall⟩ := h.cache j
  refine ⟨_, hm.save (ip i, mac i), fun x hx => ?_⟩
  rcases List.mem_append.mp hx with hx | hx
  · exact hall x hx
  · exact ⟨i, by rw [List.mem_singleton.mp hx]⟩

theorem Sound.lookup (h : Sound mac ip s) {j : ι} {a : Word} {m : BitVec 48}
    (hl : findHwAddr (s.cache j) a = some m) : ∃ i, ip i = a ∧ mac i = m := by
  obtain ⟨tr, hm, hall⟩ := h.cache j
  rw [hm.find] at hl
  obtain ⟨x, hx, he⟩ := latest_mem hl
  obtain ⟨i, hi⟩ := hall x hx
  obtain ⟨ha, hb⟩ := Prod.mk.inj (hi.symm.trans he)
  exact ⟨i, ha, hb⟩

/-- Only addresses of hosts are saved, so one more has room. -/
theorem Sound.room [Fintype ι] (h : Sound mac ip s) (hroom : Fintype.card ι ≤ arpCacheSize)
    (j i : ι) : (saveHwAddr (s.cache j) (ip i) (mac i)).1 = 0 := by
  obtain ⟨tr, hm, hall⟩ := h.cache j
  by_contra hfail
  have hcard := (hm.fails_iff (ip i) (mac i)).mp hfail
  have hsub : savedIps tr ⊆ Finset.univ.image ip := by
    intro a ha
    rw [mem_savedIps] at ha
    obtain ⟨m, hl⟩ := ha
    obtain ⟨x, hx, he⟩ := latest_mem hl
    obtain ⟨i', hi'⟩ := hall x hx
    exact Finset.mem_image.mpr ⟨i', Finset.mem_univ i', (Prod.mk.inj (hi'.symm.trans he)).1⟩
  have hlt : ((savedIps tr).erase (ip i)).card < (Finset.univ.image ip).card := by
    refine Finset.card_lt_card (Finset.ssubset_of_subset_of_ssubset
      (Finset.erase_subset_erase (ip i) hsub) (Finset.erase_ssubset ?_))
    exact Finset.mem_image_of_mem ip (Finset.mem_univ i)
  have hle : (Finset.univ.image ip).card ≤ Fintype.card ι := Finset.card_image_le
  omega

/-- `j` knows the address of `i`. -/
def Knows (mac : ι → BitVec 48) (ip : ι → Word) (s : Lan ι) (j i : ι) : Prop :=
  findHwAddr (s.cache j) (ip i) = some (mac i)

/-- A save does not change what is known, and adds the address saved. -/
theorem Sound.known_save [Fintype ι] (h : Sound mac ip s) (hip : ip.Injective)
    (hroom : Fintype.card ι ≤ arpCacheSize) (j i i' : ι) (hk : i' = i ∨ Knows mac ip s j i) :
    findHwAddr (saveHwAddr (s.cache j) (ip i') (mac i')).2 (ip i) = some (mac i) := by
  obtain ⟨tr, hm, -⟩ := h.cache j
  rw [findHwAddr_save hm.placed]
  split
  · rename_i hc
    rw [hip hc.1]
  · rename_i hc
    rcases hk with rfl | hk
    · exact absurd ⟨rfl, h.room hroom j i'⟩ hc
    · exact hk

variable [DecidableEq ι]

/-- What a host does with a frame: with a packet of another kind nothing, and
with an ARP packet of `i` it saves the address of `i`, and may answer. -/
theorem Sound.receive (h : Sound mac ip s) {j i : ι} {n : Nat} {tcb : Tcb} {p : Packet}
    (hn : s.sent[n]? = some (i, p))
    (hst : lanStep mac ip s (.receive j n tcb cb) = .ok s') :
    (p.ethertype ≠ ethertypeArp ∧ s' = s)
    ∨ ∃ target hw op, (op = arpRequest ∨ op = arpReply)
      ∧ p = sendArp (mac i) (ip i) target hw op
      ∧ s' = Lan.sendPackets
        ⟨update s.cache j (saveHwAddr (s.cache j) (ip i) (mac i)).2, s.sent⟩ j cb
        (if op = arpRequest then [sendArpReply (mac j) (ip j) (bswap32 (ip i)) (mac i)]
          else []) := by
  simp only [lanStep, hn] at hst
  have hs' := Except.ok.inj hst
  by_cases htype : p.ethertype = ethertypeArp
  · obtain ⟨target, hw, op, hop, hp⟩ := h.sent (i, p) (List.mem_of_getElem? hn) htype
    obtain rfl : p = sendArp (mac i) (ip i) target hw op := hp
    refine .inr ⟨target, hw, op, hop, rfl, ?_⟩
    rw [← hs', rxFrame_arp _ _ _ _ hop]
  · refine .inl ⟨htype, ?_⟩
    rw [← hs', rxFrame_other _ htype, sendPackets_nil]
    exact congrArg (Lan.mk · s.sent) (Function.update_eq_self j s.cache)

theorem Sound.step (h : Sound mac ip s) {e : LanEvent ι} (hst : lanStep mac ip s e = .ok s') :
    Sound mac ip s' := by
  cases e with
  | ask i target cb => exact Except.ok.inj hst ▸ h.sendsArp (.inl rfl)
  | announce i cb => exact Except.ok.inj hst ▸ h.sendsArp (.inl rfl)
  | other i p cb =>
      rw [lanStep] at hst
      split at hst
      · cases hst
      · rename_i hp
        refine Except.ok.inj hst ▸ h.sendPackets fun q hq hc => ?_
        rw [List.mem_singleton.mp hq] at hc
        exact absurd hc hp
  | receive j n tcb cb =>
      cases hn : s.sent[n]? with
      | none =>
          simp only [lanStep, hn] at hst
          cases hst
      | some x =>
          rcases h.receive hn hst with ⟨-, rfl⟩ | ⟨target, hw, op, -, -, rfl⟩
          · exact h
          · -- the sender is saved, and then the reply is sent
            have hsaved : Sound mac ip
                ⟨update s.cache j (saveHwAddr (s.cache j) (ip x.1) (mac x.1)).2, s.sent⟩ := by
              refine ⟨fun j' => ?_, h.sent⟩
              dsimp only
              by_cases hj : j' = j
              · rw [hj, update_self]
                exact h.save j x.1
              · rw [update_of_ne hj]
                exact h.cache j'
            split
            · exact hsaved.sendsArp (.inr rfl)
            · rw [sendPackets_nil]
              exact hsaved

theorem sound_run {tr : List (Lan ι × LanEvent ι)} (h : Steps (lanStep mac ip) start tr s) :
    Sound mac ip s := by
  refine h.inv (fun _ _ _ hs hst => hs.step hst) ⟨fun _ => ⟨[], mirrors_run .refl, nofun⟩, nofun⟩

/-! ## What a host has heard -/

theorem Sound.known_step [Fintype ι] (h : Sound mac ip s) (hip : ip.Injective)
    (hroom : Fintype.card ι ≤ arpCacheSize) {e : LanEvent ι}
    (hst : lanStep mac ip s e = .ok s') {j i : ι} (hk : Knows mac ip s j i) :
    Knows mac ip s' j i := by
  have hsent : ∀ i' cb ps, Knows mac ip (s.sendPackets i' cb ps) j i := fun i' cb ps => by
    rw [Knows, sendPackets_cache]
    exact hk
  cases e with
  | ask i' target cb => exact Except.ok.inj hst ▸ hsent i' cb _
  | announce i' cb => exact Except.ok.inj hst ▸ hsent i' cb _
  | other i' p cb =>
      rw [lanStep] at hst
      split at hst
      · cases hst
      · exact Except.ok.inj hst ▸ hsent i' cb _
  | receive j' n tcb cb =>
      cases hn : s.sent[n]? with
      | none =>
          simp only [lanStep, hn] at hst
          cases hst
      | some x =>
          rcases h.receive hn hst with ⟨-, rfl⟩ | ⟨target, hw, op, -, -, rfl⟩
          · exact hk
          · rw [Knows, sendPackets_cache]
            dsimp only
            by_cases hj : j = j'
            · rw [← hj, update_self]
              exact h.known_save hip hroom j i x.1 (.inr hk)
            · rw [update_of_ne hj]
              exact hk

theorem Sound.known_run [Fintype ι] (h : Sound mac ip s) (hip : ip.Injective)
    (hroom : Fintype.card ι ≤ arpCacheSize) {tr : List (Lan ι × LanEvent ι)}
    (hrun : Steps (lanStep mac ip) s tr s') {j i : ι} (hk : Knows mac ip s j i) :
    Knows mac ip s' j i := by
  have hboth : Sound mac ip s' ∧ Knows mac ip s' j i :=
    hrun.inv (P := fun t => Sound mac ip t ∧ Knows mac ip t j i)
      (fun _ _ _ ht hst => ⟨ht.1.step hst, ht.1.known_step hip hroom hst ht.2⟩) ⟨h, hk⟩
  exact hboth.2

/-- A host that hears an ARP packet of `i` knows `i`. -/
theorem Sound.heard [Fintype ι] (h : Sound mac ip s) (hip : ip.Injective)
    (hroom : Fintype.card ι ≤ arpCacheSize) {i j : ι} {n : Nat} {tcb : Tcb} {p : Packet}
    (hn : s.sent[n]? = some (i, p)) (htype : p.ethertype = ethertypeArp)
    (hst : lanStep mac ip s (.receive j n tcb cb) = .ok s') : Knows mac ip s' j i := by
  rcases h.receive hn hst with ⟨hne, -⟩ | ⟨target, hw, op, -, -, rfl⟩
  · exact absurd htype hne
  · rw [Knows, sendPackets_cache]
    dsimp only
    rw [update_self]
    exact h.known_save hip hroom j i i (.inl rfl)

theorem sent_kept {e : LanEvent ι} (hst : lanStep mac ip s e = .ok s') {n : Nat} {x : ι × Packet}
    (hn : s.sent[n]? = some x) : s'.sent[n]? = some x := by
  cases e with
  | ask i target cb => exact Except.ok.inj hst ▸ sendPackets_kept hn
  | announce i cb => exact Except.ok.inj hst ▸ sendPackets_kept hn
  | other i p cb =>
      rw [lanStep] at hst
      split at hst
      · cases hst
      · exact Except.ok.inj hst ▸ sendPackets_kept hn
  | receive j m tcb cb =>
      rw [lanStep] at hst
      split at hst
      · cases hst
      · exact Except.ok.inj hst ▸ sendPackets_kept hn

theorem sendArp_opcode (m : BitVec 48) (a target : Word) (hw : BitVec 48) (op : Half) :
    (Arp.load (sendArp m a target hw op).data).opcode = op :=
  congrArg Arp.opcode (Arp.load_bytes _)

/-- A request is answered as far as there is a command block. -/
theorem Sound.answers (h : Sound mac ip s) {i j : ι} {n : Nat} {tcb : Tcb} {a target : Word}
    {m hw : BitVec 48}
    (hn : s.sent[n]? = some (i, sendArp m a target hw arpRequest))
    (hst : lanStep mac ip s (.receive j n tcb cb) = .ok s') :
    s'.sent = s.sent ++ if cb then
      [(j, sendArpReply (mac j) (ip j) (bswap32 (ip i)) (mac i))] else [] := by
  rcases h.receive hn hst with ⟨hne, -⟩ | ⟨target', hw', op, -, hp, rfl⟩
  · exact absurd rfl hne
  · have hop : op = arpRequest := by
      have hload := congrArg (fun p : Packet => (Arp.load p.data).opcode) hp
      rwa [sendArp_opcode, sendArp_opcode, eq_comm] at hload
    rw [if_pos hop]
    cases cb
    · exact (List.append_nil _).symm
    · rfl

/-- In every run of the hosts, whatever comes in where and how often, and
whenever there is no command block: a cache holds addresses of hosts only, each
with its own hardware address. A host that hears an ARP packet of another knows
its address from then on, whether or not it can answer. A request is answered
with one reply to the host that has asked, if there is a block, and by nothing
otherwise; and from when a reply has come in there, that host knows the one that
has answered. -/
theorem arp_protocol [Fintype ι] (hip : ip.Injective) (hroom : Fintype.card ι ≤ arpCacheSize)
    {tr : List (Lan ι × LanEvent ι)} (hrun : Steps (lanStep mac ip) start tr s) :
    (∀ j a m, findHwAddr (s.cache j) a = some m → ∃ i, ip i = a ∧ mac i = m)
    ∧ ∀ i j n tcb cb p s₁, s.sent[n]? = some (i, p) → p.ethertype = ethertypeArp →
      lanStep mac ip s (.receive j n tcb cb) = .ok s₁ →
      (∀ tr₁ s₂, Steps (lanStep mac ip) s₁ tr₁ s₂ → Knows mac ip s₂ j i)
      ∧ ∀ target, p = sendArpRequest (mac i) (ip i) target ∨ p = sendGratArp (mac i) (ip i) →
        ∃ reply, s₁.sent = s.sent ++ (if cb then [(j, reply)] else []) ∧ IsArpReply reply
          ∧ reply.dstHwAddr = hwAddrByte (mac i)
          ∧ ∀ n₁, s₁.sent[n₁]? = some (j, reply) → ∀ tr₁ s₂, Steps (lanStep mac ip) s₁ tr₁ s₂ →
            ∀ tcb₁ cb₁ s₃, lanStep mac ip s₂ (.receive i n₁ tcb₁ cb₁) = .ok s₃ →
            ∀ tr₃ s₄, Steps (lanStep mac ip) s₃ tr₃ s₄ → Knows mac ip s₄ i j := by
  have h := sound_run hrun
  refine ⟨fun j a m => h.lookup, fun i j n tcb cb p s₁ hn htype hst => ⟨?_, ?_⟩⟩
  · exact fun tr₁ s₂ h₁ => (h.step hst).known_run hip hroom h₁ (h.heard hip hroom hn htype hst)
  · intro target hp
    have hsent : s₁.sent = s.sent ++ if cb then
        [(j, sendArpReply (mac j) (ip j) (bswap32 (ip i)) (mac i))] else [] := by
      rcases hp with rfl | rfl
      · exact h.answers hn hst
      · exact h.answers hn hst
    have his := isArpReply_sendArpReply (mac j) (ip j) (bswap32 (ip i)) (mac i)
    refine ⟨_, hsent, his, rfl, fun n₁ hreply tr₁ s₂ h₁ tcb₁ cb₁ s₃ hst₁ tr₃ s₄ h₃ => ?_⟩
    obtain ⟨hs₂, hreply₂⟩ : Sound mac ip s₂ ∧ s₂.sent[n₁]?
        = some (j, sendArpReply (mac j) (ip j) (bswap32 (ip i)) (mac i)) :=
      h₁.inv (P := fun t => Sound mac ip t ∧ t.sent[n₁]? = some (j, _))
        (fun _ _ _ ht hst' => ⟨ht.1.step hst', sent_kept hst' ht.2⟩) ⟨h.step hst, hreply⟩
    exact (hs₂.step hst₁).known_run hip hroom h₃ (hs₂.heard hip hroom hreply₂ his.ethertype hst₁)

/-- 10.0.0.1 and 10.0.0.2. -/
def twoIps : Fin 2 → Word := fun i => if i = 0 then 0x0A000001#32 else 0x0A000002#32

/-- Their hardware addresses. -/
def twoMacs : Fin 2 → BitVec 48 := fun i => if i = 0 then 0xA#48 else 0xB#48

/-- The first asks for the second, which hears it and has a block for the
answer; the answer comes in. -/
theorem arp_protocol_two : ∃ s s₁ s₂,
    lanStep twoMacs twoIps start (.ask 0 0x0A000002#32 true) = .ok s
    ∧ lanStep twoMacs twoIps s (.receive 1 0 ⟨0, 0, 0, 0, fun _ => 0⟩ true) = .ok s₁
    ∧ lanStep twoMacs twoIps s₁ (.receive 0 1 ⟨0, 0, 0, 0, fun _ => 0⟩ false) = .ok s₂
    ∧ Knows twoMacs twoIps s₁ 1 0 ∧ Knows twoMacs twoIps s₂ 0 1 := by
  obtain ⟨s, hs⟩ : ∃ s, lanStep twoMacs twoIps start (.ask 0 0x0A000002#32 true) = .ok s :=
    ⟨_, rfl⟩
  have hn : s.sent[0]? = some (0, sendArpRequest (twoMacs 0) (twoIps 0) 0x0A000002#32) := by
    rw [← Except.ok.inj hs]
    rfl
  obtain ⟨s₁, hst⟩ : ∃ s₁,
      lanStep twoMacs twoIps s (.receive 1 0 ⟨0, 0, 0, 0, fun _ => 0⟩ true) = .ok s₁ := by
    simp only [lanStep, hn]
    exact ⟨_, rfl⟩
  have hip : twoIps.Injective := by
    intro i j hij
    fin_cases i <;> fin_cases j <;> first | rfl | exact absurd hij (by decide)
  obtain ⟨hheard, hanswer⟩ := (arp_protocol hip (by decide)
    (Steps.refl.tail hs)).2 0 1 0 _ true _ s₁ hn rfl hst
  obtain ⟨reply, hsent, -, -, hknows⟩ := hanswer 0x0A000002#32 (.inl rfl)
  have hlen : s.sent.length = 1 := by
    rw [← Except.ok.inj hs]
    rfl
  have hreply : s₁.sent[1]? = some (1, reply) := by
    have hlast : (s.sent ++ [(1, reply)])[s.sent.length]? = some (1, reply) :=
      List.getElem?_concat_length
    rw [hlen] at hlast
    rw [hsent]
    exact hlast
  obtain ⟨s₂, hst₂⟩ : ∃ s₂,
      lanStep twoMacs twoIps s₁ (.receive 0 1 ⟨0, 0, 0, 0, fun _ => 0⟩ false) = .ok s₂ := by
    simp only [lanStep, hreply]
    exact ⟨_, rfl⟩
  exact ⟨s, s₁, s₂, hs, hst, hst₂, hheard [] s₁ .refl,
    hknows 1 hreply [] s₁ .refl _ false s₂ hst₂ [] s₂ .refl⟩

end Lan

end SpKernel
