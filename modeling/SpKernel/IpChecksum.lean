import SpKernel.ArpCache
import SpKernel.Lib.OnesComplement
import SpKernel.Transmit

/-!
# The checksum of an IP header (`ip_chksm`, `send_ipv4`)

`ip_chksm` adds the 16-bit words of a buffer in 32 bits. It takes the
carries in at the bottom when the top bit is set, so that the sum of the
next round is below `2 ^ 31` and a word more cannot overflow
(`accumulate_spec`), and again at the end until none are left
(`foldAll_spec`). What comes out is the complement of the
one's-complement sum (`ipChksm_eq`), in whatever way the carries came in.

The receiver adds the words in network order, the driver in its own. By
the library the two sums are the same up to an exchange of bytes
(`total_exchange`), so a header is good to the receiver exactly if
`ip_chksm` is 0 on it (`verifies_iff`), and with the checksum in the
place of a zero word it is (`ipChksm_replaced`). `ip_checksum_verifies`
says so of every packet that `send_ipv4` builds.

For an odd length the loop leaves a byte, and the byte that is added is
the first one of the buffer, not that one (`total_summed_odd`).
`ipChksm_odd` says that it makes no difference exactly if the two are the
same, and that only of a single byte the checksum covers every byte.
-/

namespace SpKernel

open Lib

/-! ## `ip_chksm` -/

/-- The word at `lo`, as the processor reads it. -/
def loadHalf (lo hi : Byte) : Half := hi ++ lo

/-- `(sum & 0xFFFF) + (sum >> 16)` -/
def foldSum (sum : Word) : Word := (sum &&& 0xFFFF#32) + (sum >>> 16)

/-- One round: `sum += *ip1++`, and the carries if the top bit is set. -/
def accumulate (sum : Word) (word : Half) : Word :=
  let sum := sum + word.setWidth 32
  if sum &&& 0x80000000#32 ≠ 0 then foldSum sum else sum

/-- `while(len > 1)`: the sum, and what is left of the buffer. -/
def chksmLoop (sum : Word) : List Byte → Word × List Byte
  | lo :: hi :: rest => chksmLoop (accumulate sum (loadHalf lo hi)) rest
  | rest => (sum, rest)

theorem foldSum_toNat (sum : Word) : (foldSum sum).toNat = foldCarry 16 sum.toNat := by
  have hlt := sum.isLt
  have hmask : (sum &&& 0xFFFF#32).toNat = sum.toNat % 2 ^ 16 := by
    rw [BitVec.toNat_and, show (0xFFFF#32 : Word).toNat = 2 ^ 16 - 1 from rfl,
      Nat.and_two_pow_sub_one_eq_mod]
  rw [foldSum, BitVec.toNat_add, hmask, BitVec.toNat_ushiftRight, Nat.shiftRight_eq_div_pow,
    foldCarry]
  refine Nat.mod_eq_of_lt ?_
  omega

theorem shiftRight_ne_zero (sum : Word) : sum >>> 16 ≠ 0 ↔ 2 ^ 16 ≤ sum.toNat := by
  rw [ne_eq, ← BitVec.toNat_inj, BitVec.toNat_ushiftRight, Nat.shiftRight_eq_div_pow]
  show ¬sum.toNat / 2 ^ 16 = 0 ↔ _
  omega

/-- `while(sum >> 16)` -/
def foldAll (sum : Word) : Word :=
  if sum >>> 16 ≠ 0 then foldAll (foldSum sum) else sum
termination_by sum.toNat
decreasing_by
  rw [foldSum_toNat]
  exact foldCarry_lt (by decide) ((shiftRight_ne_zero sum).mp ‹_›)

/-- `if(len)`: a byte is left, and the first one is added. -/
def addByte (ipHead rest : List Byte) (sum : Word) : Word :=
  if rest ≠ [] then sum + (ipHead.headD 0).setWidth 32 else sum

def ipChksm (ipHead : List Byte) : Half :=
  let (sum, rest) := chksmLoop 0 ipHead
  (~~~foldAll (addByte ipHead rest sum)).setWidth 16

/-! ## The header that `send_ipv4` builds -/

abbrev ipv4HeadLen : Nat := 20

/-- `ipv4_t`, up to the data. -/
structure Ipv4 where
  ihl : BitVec 4
  version : BitVec 4
  dscp : BitVec 6
  ecn : BitVec 2
  totalLen : Half
  id : Half
  flags : BitVec 3
  fragOffset : BitVec 13
  ttl : Byte
  protocol : Byte
  headerChecksum : Half
  srcIp : Word
  dstIp : Word

/-- A word in memory. -/
def storeHalf (h : Half) : List Byte := [h.setWidth 8, (h >>> 8).setWidth 8]

/-- A double word in memory. -/
def storeWord (w : Word) : List Byte :=
  storeHalf (w.setWidth 16) ++ storeHalf ((w >>> 16).setWidth 16)

/-- The struct in memory; the first of two bit-fields is the lower one. -/
def Ipv4.bytes (ip : Ipv4) : List Byte :=
  [ip.version ++ ip.ihl, ip.ecn ++ ip.dscp] ++ storeHalf ip.totalLen ++ storeHalf ip.id
    ++ storeHalf (ip.fragOffset ++ ip.flags) ++ [ip.ttl, ip.protocol]
    ++ storeHalf ip.headerChecksum ++ storeWord ip.srcIp ++ storeWord ip.dstIp

/-- `__builtin_bswap16` -/
def bswap16 (h : Half) : Half := (h <<< 8) ||| (h >>> 8)

/-- `__builtin_bswap32` -/
def bswap32 (w : Word) : Word :=
  (w <<< 24) ||| ((w &&& 0xFF00#32) <<< 8) ||| ((w >>> 8) &&& 0xFF00#32) ||| (w >>> 24)

def ipLength (length : Word) : Half := (length + BitVec.ofNat 32 ipv4HeadLen).setWidth 16

/-- The header, with its checksum. -/
def ipv4Header (myIp dstIp length protocol : Word) : Ipv4 :=
  let ipv4 : Ipv4 :=
    { version := 4
      ihl := 5
      dscp := 0
      ecn := 0
      totalLen := bswap16 (ipLength length)
      id := 0
      flags := 0
      fragOffset := 0
      ttl := 64
      protocol := protocol.setWidth 8
      headerChecksum := 0
      srcIp := bswap32 myIp
      dstIp := bswap32 dstIp }
  { ipv4 with headerChecksum := ipChksm ipv4.bytes }

/-- The packet that is given to `send_packet`. -/
def ipv4Packet (myIp dstIp : Word) (hwAddr : BitVec 48) (data : Nat → Byte)
    (length protocol : Word) : Packet :=
  { dstHwAddr := fun j => (hwAddr >>> (8 * j)).setWidth 8
    data := fun j =>
      if j < ipv4HeadLen then (ipv4Header myIp dstIp length protocol).bytes.getD j 0
      else data (j - ipv4HeadLen)
    length := ipLength length
    ethertype := 0x0008#16 }

/-- `send_ipv4`, up to the call of `send_packet`: `none` if there is no
hardware address and it returns -1. -/
def sendIpv4 (wait : Nat → ArpCache → ArpCache) (cache : ArpCache) (myIp dstIp : Word)
    (data : Nat → Byte) (length protocol : Word) : Option Packet :=
  (getHwAddr wait dstIp 5 cache).1.map fun hwAddr =>
    ipv4Packet myIp dstIp hwAddr data length protocol

/-! ## Words of a buffer -/

/-- The words of a buffer; the odd byte at the end is left out. -/
def wordsBy (word : Byte → Byte → Half) : List Byte → List Half
  | a :: b :: rest => word a b :: wordsBy word rest
  | _ => []

/-- The words, as the processor reads them. -/
def hostWords : List Byte → List Half := wordsBy loadHalf

/-- The words in network order. -/
def netWords : List Byte → List Half := wordsBy fun hi lo => loadHalf lo hi

/-- What `ip_chksm` adds up. -/
def summed (ipHead : List Byte) : List Half :=
  hostWords ipHead
    ++ if ipHead.length % 2 = 1 then [(ipHead.headD 0).setWidth 16] else []

/-- The check at the other end: the one's-complement sum of the words is all
ones. -/
def Verifies (header : List Byte) : Prop := onesSum (netWords header) = BitVec.allOnes 16

/-- No round overflows: the sum so far and the next word are less than
`2 ^ 32`. -/
def NoOverflow (ipHead : List Byte) : Prop :=
  ∀ front lo hi rest, ipHead = front ++ lo :: hi :: rest → Even front.length →
    (chksmLoop 0 front).1.toNat + (loadHalf lo hi).toNat < 2 ^ 32

/-! ## The sum -/

theorem loadHalf_toNat (lo hi : Byte) : (loadHalf lo hi).toNat = 2 ^ 8 * hi.toNat + lo.toNat := by
  rw [loadHalf, BitVec.toNat_append, ← Nat.shiftLeft_add_eq_or_of_lt lo.isLt,
    Nat.shiftLeft_eq, Nat.mul_comm]

theorem topBit (sum : Word) : sum &&& 0x80000000#32 ≠ 0 ↔ 2 ^ 31 ≤ sum.toNat := by
  have hbit : sum.getLsbD 31 = decide (2 ^ 31 ≤ sum.toNat) := by
    rw [show 31 = 32 - 1 from rfl, ← BitVec.msb_eq_getLsbD_last, BitVec.msb_eq_decide]
  rw [show (0x80000000#32 : Word) = BitVec.twoPow 32 31 from rfl, BitVec.and_twoPow, hbit]
  simp

/-- One round: no overflow, no change of what the total amounts to, and the
next round has room again. -/
theorem accumulate_spec {sum : Word} (h : sum.toNat < 2 ^ 31) (word : Half) :
    sum.toNat + word.toNat < 2 ^ 32
    ∧ (accumulate sum word).toNat < 2 ^ 31
    ∧ SameSum 16 (accumulate sum word).toNat (sum.toNat + word.toNat) := by
  have hword := word.isLt
  have hadd : (sum + word.setWidth 32).toNat = sum.toNat + word.toNat := by
    rw [BitVec.toNat_add, BitVec.toNat_setWidth, Nat.mod_eq_of_lt (by omega),
      Nat.mod_eq_of_lt (by omega)]
  refine ⟨by omega, ?_⟩
  rw [accumulate]
  split
  · rw [foldSum_toNat, hadd]
    refine ⟨?_, sameSum_foldCarry 16 _⟩
    rw [foldCarry]
    omega
  · next htop =>
      rw [topBit, hadd, not_le] at htop
      rw [hadd]
      exact ⟨htop, .refl 16 _⟩

theorem chksmLoop_spec : ∀ (ipHead : List Byte) {sum : Word}, sum.toNat < 2 ^ 31 →
    (chksmLoop sum ipHead).1.toNat < 2 ^ 31
    ∧ SameSum 16 (chksmLoop sum ipHead).1.toNat (sum.toNat + total (hostWords ipHead))
  | [], sum, h => ⟨h, .refl 16 _⟩
  | [_], sum, h => ⟨h, .refl 16 _⟩
  | lo :: hi :: rest, sum, h => by
      obtain ⟨-, hlt, hsame⟩ := accumulate_spec h (loadHalf lo hi)
      obtain ⟨hlt', hsame'⟩ := chksmLoop_spec rest hlt
      rw [chksmLoop, hostWords, wordsBy, total_cons, ← Nat.add_assoc]
      exact ⟨hlt', hsame'.trans (hsame.add (.refl 16 _))⟩

theorem chksmLoop_rest : ∀ (ipHead : List Byte) (sum : Word),
    (chksmLoop sum ipHead).2 ≠ [] ↔ ipHead.length % 2 = 1
  | [], _ => by simp [chksmLoop]
  | [_], _ => by simp [chksmLoop]
  | lo :: hi :: rest, sum => by
      rw [chksmLoop, chksmLoop_rest rest, List.length_cons, List.length_cons]
      omega

/-- In the end there are no carries, and the sum amounts to the same. -/
theorem foldAll_spec (sum : Word) :
    (foldAll sum).toNat < 2 ^ 16 ∧ SameSum 16 (foldAll sum).toNat sum.toNat := by
  fun_induction foldAll sum with
  | case1 sum h ih =>
      rw [foldSum_toNat] at ih
      exact ⟨ih.1, ih.2.trans (sameSum_foldCarry 16 _)⟩
  | case2 sum h =>
      rw [shiftRight_ne_zero, not_le] at h
      exact ⟨h, .refl 16 _⟩

/-- What goes into the final folding amounts to the total. -/
theorem addByte_spec (ipHead : List Byte) :
    SameSum 16 (addByte ipHead (chksmLoop 0 ipHead).2 (chksmLoop 0 ipHead).1).toNat
      (total (summed ipHead)) := by
  obtain ⟨hlt, hsame⟩ := chksmLoop_spec ipHead (show (0 : Word).toNat < 2 ^ 31 by decide)
  have hodd := chksmLoop_rest ipHead 0
  rw [BitVec.ofNat_eq_ofNat, BitVec.toNat_zero, Nat.zero_add] at hsame
  rw [addByte, summed, total_append]
  by_cases h : ipHead.length % 2 = 1
  · have hbyte := (ipHead.headD 0).isLt
    rw [if_pos (hodd.mpr h), if_pos h, total_cons, total_nil, BitVec.toNat_add,
      BitVec.toNat_setWidth, BitVec.toNat_setWidth, Nat.mod_eq_of_lt (by omega),
      Nat.mod_eq_of_lt (by omega), Nat.mod_eq_of_lt (by omega)]
    exact hsame.add (.refl 16 _)
  · rw [if_neg fun hne => h (hodd.mp hne), if_neg h]
    exact hsame

/-- The checksum is the complement of the one's-complement sum. -/
theorem ipChksm_eq (ipHead : List Byte) : ipChksm ipHead = ~~~onesSum (summed ipHead) := by
  obtain ⟨hlt, hsame⟩ := foldAll_spec
    (addByte ipHead (chksmLoop 0 ipHead).2 (chksmLoop 0 ipHead).1)
  show (~~~foldAll _).setWidth 16 = _
  rw [BitVec.setWidth_not (by decide)]
  refine congrArg (~~~·) (eq_onesSum ?_)
  rw [BitVec.toNat_setWidth, Nat.mod_eq_of_lt hlt]
  exact hsame.trans (addByte_spec ipHead)

/-! ## The check -/

theorem even_length_pair {a b : Byte} {l : List Byte} :
    Even (a :: b :: l).length ↔ Even l.length := by
  rw [List.length_cons, List.length_cons, Nat.even_add_one, Nat.even_add_one, not_not]

theorem wordsBy_append (word : Byte → Byte → Half) (rest : List Byte) : ∀ {front : List Byte},
    Even front.length → wordsBy word (front ++ rest) = wordsBy word front ++ wordsBy word rest
  | [], _ => rfl
  | [_], h => absurd h (by simp)
  | a :: b :: front, h => by
      rw [List.cons_append, List.cons_append, wordsBy, wordsBy,
        wordsBy_append word rest (even_length_pair.mp h), List.cons_append]

theorem summed_even {ipHead : List Byte} (h : Even ipHead.length) :
    summed ipHead = hostWords ipHead := by
  rw [summed, if_neg (by rw [Nat.even_iff.mp h]; decide), List.append_nil]

theorem loadHalf_store (h : Half) : loadHalf (h.setWidth 8) ((h >>> 8).setWidth 8) = h := by
  refine BitVec.eq_of_toNat_eq ?_
  have hlt := h.isLt
  rw [loadHalf_toNat, BitVec.toNat_setWidth, BitVec.toNat_setWidth, BitVec.toNat_ushiftRight,
    Nat.shiftRight_eq_div_pow]
  omega

/-- In network order the words have their bytes exchanged. -/
theorem total_exchange : ∀ ipHead : List Byte,
    SameSum 16 (2 ^ 8 * total (hostWords ipHead)) (total (netWords ipHead))
    ∧ SameSum 16 (2 ^ 8 * total (netWords ipHead)) (total (hostWords ipHead))
  | [] => ⟨.refl 16 _, .refl 16 _⟩
  | [_] => ⟨.refl 16 _, .refl 16 _⟩
  | a :: b :: rest => by
      obtain ⟨hhost, hnet⟩ := total_exchange rest
      simp only [hostWords, netWords] at hhost hnet
      rw [hostWords, netWords, wordsBy, wordsBy, total_cons, total_cons, Nat.mul_add, Nat.mul_add,
        loadHalf_toNat, loadHalf_toNat]
      exact ⟨(SameSum.exchange 8 _ _).add hhost, (SameSum.exchange 8 _ _).add hnet⟩

theorem ipChksm_eq_zero {ipHead : List Byte} (h : Even ipHead.length) :
    ipChksm ipHead = 0 ↔ onesSum (hostWords ipHead) = BitVec.allOnes 16 := by
  rw [ipChksm_eq, summed_even h, show (0 : Half) = ~~~BitVec.allOnes 16 by decide, BitVec.not_inj]

/-- The receiver finds a header good exactly if `ip_chksm` is 0 on it. -/
theorem verifies_iff {header : List Byte} (h : Even header.length) :
    Verifies header ↔ ipChksm header = 0 := by
  obtain ⟨hhost, hnet⟩ := total_exchange header
  rw [ipChksm_eq_zero h, Verifies, onesSum_eq_allOnes, onesSum_eq_allOnes]
  exact ⟨hnet.allOnes (by decide) (by decide), hhost.allOnes (by decide) (by decide)⟩

/-- With the checksum in the place of a zero word, the checksum is 0. -/
theorem ipChksm_replaced {front rest : List Byte} (hf : Even front.length)
    (hr : Even rest.length) :
    ipChksm (front ++ storeHalf (ipChksm (front ++ 0 :: 0 :: rest)) ++ rest) = 0 := by
  have heven : ∀ a b : Byte, Even (front ++ a :: b :: rest).length := by
    intro a b
    rw [List.length_append]
    exact hf.add (even_length_pair.mpr hr)
  have hwords : ∀ a b : Byte, hostWords (front ++ a :: b :: rest)
      = hostWords front ++ loadHalf a b :: hostWords rest := fun a b => wordsBy_append _ _ hf
  rw [List.append_assoc]
  show ipChksm (front ++ _ :: _ :: rest) = 0
  rw [ipChksm_eq_zero (heven _ _), hwords, loadHalf_store, ipChksm_eq, summed_even (heven _ _),
    hwords]
  exact onesSum_complement (hostWords front) (hostWords rest)

/-- The checksum has a word of its own in the header. -/
theorem bytes_checksum (ip : Ipv4) : ∃ front rest, Even front.length ∧ Even rest.length
    ∧ ∀ c, { ip with headerChecksum := c }.bytes = front ++ storeHalf c ++ rest := by
  refine ⟨[ip.version ++ ip.ihl, ip.ecn ++ ip.dscp] ++ storeHalf ip.totalLen ++ storeHalf ip.id
    ++ storeHalf (ip.fragOffset ++ ip.flags) ++ [ip.ttl, ip.protocol],
    storeWord ip.srcIp ++ storeWord ip.dstIp, ⟨5, rfl⟩, ⟨4, rfl⟩, fun c => ?_⟩
  exact List.append_assoc _ _ _

theorem ipChksm_header (ip : Ipv4) :
    ipChksm { ip with headerChecksum := ipChksm { ip with headerChecksum := 0 }.bytes }.bytes
      = 0 := by
  obtain ⟨front, rest, hf, hr, hbytes⟩ := bytes_checksum ip
  have hzero : { ip with headerChecksum := 0 }.bytes = front ++ 0 :: 0 :: rest := by
    rw [hbytes, List.append_assoc]
    rfl
  rw [hbytes, hzero]
  exact ipChksm_replaced hf hr

theorem ipv4Packet_header (myIp dstIp : Word) (hwAddr : BitVec 48) (data : Nat → Byte)
    (length protocol : Word) :
    (List.range ipv4HeadLen).map (ipv4Packet myIp dstIp hwAddr data length protocol).data
      = (ipv4Header myIp dstIp length protocol).bytes := by
  refine List.ext_getElem (by rw [List.length_map, List.length_range]; rfl) fun i hi hi' => ?_
  rw [List.getElem_map, List.getElem_range]
  have hlt : i < ipv4HeadLen := hi'
  show (if i < ipv4HeadLen then _ else _) = _
  rw [if_pos hlt, List.getD_eq_getElem _ _ hi']

/-- The sums of `ip_chksm` never overflow, and it computes the complement of
the one's-complement sum; stored in the place of a zero word, that makes the
checksum 0. So it is in the header of every packet from `send_ipv4`, and the
receiver finds the header good. -/
theorem ip_checksum_verifies {ipHead : List Byte} (h : Even ipHead.length) :
    NoOverflow ipHead
    ∧ ipChksm ipHead = ~~~onesSum (hostWords ipHead)
    ∧ (∀ front rest, ipHead = front ++ 0 :: 0 :: rest → Even front.length →
      ipChksm (front ++ storeHalf (ipChksm ipHead) ++ rest) = 0)
    ∧ ∀ wait cache myIp dstIp data length protocol p,
      sendIpv4 wait cache myIp dstIp data length protocol = some p →
      ipChksm ((List.range ipv4HeadLen).map p.data) = 0
        ∧ Verifies ((List.range ipv4HeadLen).map p.data) := by
  refine ⟨fun front lo hi rest _ _ => ?_, ?_, ?_, ?_⟩
  · have hsum := (chksmLoop_spec front (show (0 : Word).toNat < 2 ^ 31 by decide)).1
    exact (accumulate_spec hsum (loadHalf lo hi)).1
  · rw [ipChksm_eq, summed_even h]
  · rintro front rest rfl hf
    rw [List.length_append, Nat.even_add] at h
    exact ipChksm_replaced hf (even_length_pair.mp (h.mp hf))
  · intro wait cache myIp dstIp data length protocol p hp
    obtain ⟨hwAddr, -, rfl⟩ := Option.map_eq_some_iff.mp hp
    rw [ipv4Packet_header]
    have hzero : ipChksm (ipv4Header myIp dstIp length protocol).bytes = 0 :=
      ipChksm_header (ipv4Header myIp dstIp length protocol)
    exact ⟨hzero, (verifies_iff ⟨10, rfl⟩).mpr hzero⟩

/-- `sendIpv4` of the test program, when the address is in the cache. -/
def testPacket : Option Packet :=
  sendIpv4 (fun _ cache => cache) (saveHwAddr zeroedCache 0xA9FEA9B8 0xA).2 0xA9FE0101 0xA9FEA9B8
    (fun _ => 0) 31 0x11

/-- A buffer whose sum is all ones, and the header of a packet. -/
theorem ip_checksum_verifies_test :
    ipChksm ([0xFF, 0xFF] ++ storeHalf (ipChksm [0xFF, 0xFF, 0, 0]) ++ []) = 0
    ∧ ∃ p, testPacket = some p ∧ Verifies ((List.range ipv4HeadLen).map p.data) := by
  have h := ip_checksum_verifies (show Even [(0xFF : Byte), 0xFF, 0, 0].length from ⟨2, rfl⟩)
  have hfound : (getHwAddr (fun _ cache => cache) 0xA9FEA9B8 5
      (saveHwAddr zeroedCache 0xA9FEA9B8 0xA).2).1 = some 0xA := by decide +kernel
  obtain ⟨p, hp⟩ : ∃ p, testPacket = some p := by
    rw [testPacket, sendIpv4, hfound]
    exact ⟨_, rfl⟩
  exact ⟨h.2.2.1 [0xFF, 0xFF] [] rfl ⟨1, rfl⟩, p, hp, (h.2.2.2 _ _ _ _ _ _ _ p hp).2⟩

/-! ## Odd lengths -/

/-- Every byte counts: no byte can be changed alone without a change of the
checksum. -/
def EachByteCounts (ipHead : List Byte) : Prop :=
  ∀ i < ipHead.length, ∀ b, ipHead[i]? ≠ some b → ipChksm (ipHead.set i b) ≠ ipChksm ipHead

theorem ipChksm_eq_ipChksm {ipHead ipHead' : List Byte} :
    ipChksm ipHead = ipChksm ipHead'
      ↔ SameSum 16 (total (summed ipHead)) (total (summed ipHead')) := by
  rw [ipChksm_eq, ipChksm_eq, BitVec.not_inj, onesSum_eq_onesSum]

/-- The byte that is left is not read: the first one is added in its place. -/
theorem total_summed_odd {front : List Byte} (h : Even front.length) (last : Byte) :
    total (summed (front ++ [last]))
      = total (hostWords front) + ((front ++ [last]).headD 0).toNat := by
  have hodd : (front ++ [last]).length % 2 = 1 := by
    rw [List.length_append, List.length_singleton]
    have := Nat.even_iff.mp h
    omega
  have hbyte := ((front ++ [last]).headD 0).isLt
  have hwords : hostWords (front ++ [last]) = hostWords front := by
    show wordsBy loadHalf (front ++ [last]) = wordsBy loadHalf front
    rw [wordsBy_append _ _ h]
    exact List.append_nil _
  rw [summed, if_pos hodd, hwords, total_append, total_cons, total_nil, BitVec.toNat_setWidth,
    Nat.mod_eq_of_lt (by omega), Nat.add_zero]

theorem total_summed_padded {front : List Byte} (h : Even front.length) (last : Byte) :
    total (summed (front ++ [last, 0])) = total (hostWords front) + last.toNat := by
  have heven : Even (front ++ [last, 0]).length := by
    rw [List.length_append]
    exact h.add ⟨1, rfl⟩
  have hwords : hostWords (front ++ [last, 0]) = hostWords front ++ [loadHalf last 0] :=
    wordsBy_append _ _ h
  rw [summed_even heven, hwords, total_append, total_cons, total_nil, loadHalf_toNat,
    BitVec.ofNat_eq_ofNat, BitVec.toNat_zero, Nat.mul_zero, Nat.zero_add, Nat.add_zero]

theorem odd_length_split {ipHead : List Byte} (h : Odd ipHead.length) :
    ∃ front last, ipHead = front ++ [last] ∧ Even front.length := by
  rcases List.eq_nil_or_concat ipHead with rfl | ⟨front, last, rfl⟩
  · exact absurd h (by simp)
  · refine ⟨front, last, List.concat_eq_append, ?_⟩
    rwa [List.length_concat, Nat.odd_add_one, Nat.not_odd_iff_even] at h

theorem headD_eq_iff {ipHead : List Byte} {last : Byte} (h : ipHead ≠ []) :
    (ipHead.headD 0).toNat = last.toNat ↔ ipHead.head? = some last := by
  cases ipHead with
  | nil => exact absurd rfl h
  | cons first rest => rw [List.headD_cons, List.head?_cons, Option.some_inj, BitVec.toNat_inj]

/-- Only the first byte shows at the place of the last. -/
theorem ipChksm_padded_iff {front : List Byte} (h : Even front.length) (last : Byte) :
    ipChksm (front ++ [last]) = ipChksm (front ++ [last] ++ [0])
      ↔ (front ++ [last]).head? = some last := by
  have hfirst := ((front ++ [last]).headD 0).isLt
  have hlast := last.isLt
  rw [← headD_eq_iff (by simp), ipChksm_eq_ipChksm, List.append_assoc, List.singleton_append,
    total_summed_odd h, total_summed_padded h]
  constructor
  · exact fun hsame => hsame.add_left_cancel (by omega) (by omega)
  · intro heq
    rw [heq]
    exact .refl 16 _

/-- Behind another byte the last one can be anything. -/
theorem ipChksm_last {front : List Byte} (h : Even front.length) (hne : front ≠ [])
    (last last' : Byte) : ipChksm (front ++ [last]) = ipChksm (front ++ [last']) := by
  obtain ⟨first, rest, rfl⟩ := List.exists_cons_of_ne_nil hne
  rw [ipChksm_eq_ipChksm, total_summed_odd h, total_summed_odd h]
  exact .refl 16 _

theorem eachByteCounts_iff {ipHead : List Byte} (h : Odd ipHead.length) :
    EachByteCounts ipHead ↔ ipHead.length = 1 := by
  obtain ⟨front, last, rfl, hfront⟩ := odd_length_split h
  constructor
  · intro hcov
    by_contra hlen
    have hne : front ≠ [] := by
      rintro rfl
      exact hlen rfl
    refine hcov front.length (by simp) (last + 1) ?_ ?_
    · rw [List.getElem?_concat_length]
      simp
    · rw [List.set_append_right _ _ le_rfl, Nat.sub_self]
      exact ipChksm_last hfront hne _ _
  · intro hlen i hi b hb heq
    obtain rfl : front = [] := by
      rw [List.length_append, List.length_singleton] at hlen
      exact List.eq_nil_of_length_eq_zero (by omega)
    obtain rfl : i = 0 := by
      rw [hlen] at hi
      omega
    have hlast := last.isLt
    have hbyte := b.isLt
    rw [ipChksm_eq_ipChksm] at heq
    have hset : ([] ++ [last]).set 0 b = [] ++ [b] := rfl
    rw [hset, total_summed_odd hfront, total_summed_odd hfront] at heq
    have := heq.add_left_cancel (show b.toNat < _ by omega) (show last.toNat < _ by omega)
    exact hb (congrArg some (BitVec.eq_of_toNat_eq this.symm))

/-- The checksum of an odd length is the one of the buffer with a zero byte
behind it exactly if the first byte and the last are the same; and only of a
single byte it covers every byte. -/
theorem ipChksm_odd {ipHead : List Byte} (h : Odd ipHead.length) :
    (ipChksm ipHead = ipChksm (ipHead ++ [0]) ↔ ipHead.head? = ipHead.getLast?)
    ∧ (EachByteCounts ipHead ↔ ipHead.length = 1) := by
  refine ⟨?_, eachByteCounts_iff h⟩
  obtain ⟨front, last, rfl, hfront⟩ := odd_length_split h
  rw [ipChksm_padded_iff hfront, List.getLast?_concat]

/-- `1, 2, 1` for the one, and `1` for the other. -/
theorem ipChksm_odd_test :
    ipChksm [1, 2, 1] = ipChksm [1, 2, 1, 0] ∧ EachByteCounts [1] :=
  ⟨(ipChksm_odd (show Odd [(1 : Byte), 2, 1].length from ⟨1, rfl⟩)).1.mpr rfl,
    (ipChksm_odd (show Odd [(1 : Byte)].length from ⟨0, rfl⟩)).2.mpr rfl⟩

/-- Of `1, 2, 3` the 3 is not seen. -/
theorem ipChksm_odd_unpadded :
    ¬∀ ipHead : List Byte, Odd ipHead.length → ipChksm ipHead = ipChksm (ipHead ++ [0]) := by
  intro h
  have heq := h [1, 2, 3] ⟨1, rfl⟩
  rw [show [(1 : Byte), 2, 3] = [1, 2] ++ [3] from rfl, ipChksm_padded_iff ⟨1, rfl⟩] at heq
  exact absurd heq (by decide)

end SpKernel
