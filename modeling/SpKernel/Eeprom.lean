import SpKernel.Lib.SerialMemory
import SpKernel.Types
import Mathlib.Logic.Function.Basic

/-!
# Reading the EEPROM (`intel.c`)

The EEPROM of the card is a serial memory, and its wires are bits of the
register `eeprom_lo`. `eeprom_read` sends a command and an address and
reads a word, one bit at a time. It takes the number of bits of an
address from its caller, and corrects it when the zero in front of the
word comes too soon: `eeprom_load` starts with eight bits and a word it
does not use, and then knows how many words there are.

The port is the register together with the memory behind it, which takes
a bit at each rising edge of the clock (`EepromPort.write`). A round of
the loop is one bit (`bang_round`), and the frame that is sent is the one
that the memory expects (`sent_frame`).

A transfer is followed from its front. Until the command is complete the
output floats (`out_before`), then comes the zero, in the round in which
the last bit of the address is taken (`out_zero`), and then the word
(`out_word`). From the zero on the length of an address is right, also if
it was not before (`bang_addrLen`), and with the right length from the
beginning the last sixteen rounds are the word (`bang_word`).
`eepromRead_spec` has both, and `eeprom_copied` the loop over all words.
The port is deselected between two transfers (`eepromRead_deselected`),
and the first one starts with no command under way.
-/

namespace SpKernel

open Function (update update_self update_of_ne)
open Lib
open Lib.SerialMemory (shift readCommand bitsOf)

/-! ## The source -/

abbrev eesk : Byte := 0x01#8
abbrev eecs : Byte := 0x02#8
abbrev eedi : Byte := 0x04#8
abbrev eedo : Byte := 0x08#8

abbrev opRead : Word := 0x06#32

/-- `eeprom_lo` as it was written, and the bits that the memory has taken. -/
structure EepromPort where
  lo : Byte
  rx : List Bool

/-- `mem_write8` to `eeprom_lo`. -/
def EepromPort.write (port : EepromPort) (value : Byte) : EepromPort where
  lo := value
  rx :=
    if value &&& eecs = 0 then []
    else if port.lo &&& eesk = 0 ∧ value &&& eesk ≠ 0 then shift port.rx (value &&& eedi ≠ 0)
    else port.rx

/-- The memory is not selected, and waits for a start bit. -/
structure EepromPort.Deselected (port : EepromPort) : Prop where
  line : port.lo &&& eecs = 0
  rx : port.rx = []

variable {w : Nat}

/-- `mem_read8` of `eeprom_lo`. -/
def EepromPort.read (m : SerialMemory w) (port : EepromPort) : Byte :=
  if m.out port.rx then port.lo ||| eedo else port.lo &&& ~~~eedo

/-- The variables of the loop. -/
structure EepromTransfer where
  port : EepromPort
  addrLen : Half
  data : Half

/-- The loop of `eeprom_read`, for `i` from the number below the argument
down to 0. -/
def bang (m : SerialMemory w) (cmdAddrData : Word) : Nat → EepromTransfer → EepromTransfer
  | 0, t => t
  | i + 1, t =>
      let ctrl := if cmdAddrData.getLsbD i then eecs ||| eedi else eecs
      let port := (t.port.write ctrl).write (ctrl ||| eesk)
      let ctrl := port.read m
      let data := t.data <<< 1 ||| if ctrl &&& eedo ≠ 0 then 1 else 0
      if ctrl &&& eedo = 0 ∧ 16 < i then
        -- `i = 17`, and the loop counts on from 16
        bang m cmdAddrData 17 ⟨port, t.addrLen - BitVec.ofNat 16 (i - 16), data⟩
      else bang m cmdAddrData i ⟨port, t.addrLen, data⟩
termination_by i => i

def cmdAddrData (addrLen addr : Half) : Word :=
  (opRead <<< addrLen.toNat ||| addr.setWidth 32) <<< 16

def eepromRead (m : SerialMemory w) (port : EepromPort) (addrLen addr : Half) : EepromTransfer :=
  let t := bang m (cmdAddrData addrLen addr) 32 ⟨port.write (eecs ||| eesk), addrLen, 0⟩
  { t with port := t.port.write 0 }

/-- The fields of `nic_info` with the copy of the EEPROM. -/
structure EepromCopy where
  eepromCount : Half
  eeprom : Nat → Half

/-- A round of the loop of `eeprom_load`. -/
def loadWordAt (m : SerialMemory w) (s : EepromPort × Half × (Nat → Half)) (addr : Nat) :
    EepromPort × Half × (Nat → Half) :=
  let t := eepromRead m s.1 s.2.1 (BitVec.ofNat 16 addr)
  (t.port, t.addrLen, update s.2.2 addr t.data)

def eepromLoad (m : SerialMemory w) (port : EepromPort) (nic : EepromCopy) :
    EepromPort × EepromCopy :=
  let t := eepromRead m port 8#16 0#16
  let eepromCount := 1#16 <<< t.addrLen.toNat
  let s := (List.range eepromCount.toNat).foldl (loadWordAt m) (t.port, t.addrLen, nic.eeprom)
  (s.1, ⟨eepromCount, s.2.2⟩)

/-- The hardware address that `intel_nic_init` takes from the copy. -/
def EepromCopy.mac (nic : EepromCopy) : List Byte :=
  [0, 1, 2].flatMap fun i =>
    [(nic.eeprom i &&& 0x00FF).setWidth 8, (nic.eeprom i >>> 8).setWidth 8]

/-! ## A round of the loop -/

/-- What the memory has taken after `n` rounds. -/
def sent (cmd : Word) : Nat → List Bool
  | 0 => []
  | n + 1 => shift (sent cmd n) (cmd.getLsbD (31 - n))

/-- The wires, with a bit of the command on the data line. -/
abbrev ctrlOf (b : Bool) : Byte := if b then eecs ||| eedi else eecs

/-- The bit is on the line before the edge of the clock. -/
theorem write_write (port : EepromPort) (b : Bool) :
    ((port.write (ctrlOf b)).write (ctrlOf b ||| eesk)).rx = shift port.rx b := by
  have hlow : ∀ b, ctrlOf b &&& eecs ≠ 0 ∧ ctrlOf b &&& eesk = 0 := by decide
  have hhigh : ∀ b, (ctrlOf b ||| eesk) &&& eecs ≠ 0 ∧ (ctrlOf b ||| eesk) &&& eesk ≠ 0
      ∧ decide ((ctrlOf b ||| eesk) &&& eedi ≠ 0) = b := by decide
  obtain ⟨hcs, hsk⟩ := hlow b
  obtain ⟨hcs', hsk', hdi⟩ := hhigh b
  have hfirst : (port.write (ctrlOf b)).rx = port.rx := by
    rw [EepromPort.write, if_neg hcs, if_neg fun hc => hc.2 hsk]
  have hsecond : ((port.write (ctrlOf b)).write (ctrlOf b ||| eesk)).rx
      = shift (port.write (ctrlOf b)).rx (decide ((ctrlOf b ||| eesk) &&& eedi ≠ 0)) := by
    rw [EepromPort.write, if_neg hcs']
    exact if_pos ⟨hsk, hsk'⟩
  rw [hsecond, hdi, hfirst]

theorem read_eedo (m : SerialMemory w) (port : EepromPort) :
    port.read m &&& eedo = if m.out port.rx then eedo else 0 := by
  unfold EepromPort.read
  split
  · refine BitVec.eq_of_getLsbD_eq fun i hi => ?_
    simp only [BitVec.getLsbD_and, BitVec.getLsbD_or, Bool.and_eq_right_iff_imp]
    exact fun h => by rw [h, Bool.or_true]
  · rw [BitVec.and_assoc, BitVec.not_and_self]
    exact BitVec.and_zero

/-- The memory is selected; the zero on the data line is no start bit. -/
theorem select_rx {port : EepromPort} (h : port.rx = []) :
    (port.write (eecs ||| eesk)).rx = [] := by
  have hcs : (eecs ||| eesk) &&& eecs ≠ 0 := by decide
  rw [EepromPort.write, if_neg hcs, h]
  dsimp only
  split
  · rfl
  · rfl

/-- A round of the loop: what the memory takes, what it puts out, and whether
the length of the address is corrected. -/
theorem bang_round (m : SerialMemory w) (cmd : Word) (n : Nat) {t : EepromTransfer}
    (hn : n < 32) (hrx : t.port.rx = sent cmd n) : ∃ port, port.rx = sent cmd (n + 1)
      ∧ bang m cmd (32 - n) t
        = if m.out (sent cmd (n + 1)) = false ∧ n < 15 then
            bang m cmd 17 ⟨port, t.addrLen - BitVec.ofNat 16 (15 - n), t.data <<< 1⟩
          else
            bang m cmd (32 - (n + 1)) ⟨port, t.addrLen,
              t.data <<< 1 ||| if m.out (sent cmd (n + 1)) then 1 else 0⟩ := by
  have hport : ((t.port.write (ctrlOf (cmd.getLsbD (31 - n)))).write
      (ctrlOf (cmd.getLsbD (31 - n)) ||| eesk)).rx = sent cmd (n + 1) := by
    rw [write_write, hrx, sent]
  refine ⟨_, hport, ?_⟩
  obtain ⟨i, hi⟩ : ∃ i, 32 - n = i + 1 := ⟨31 - n, by omega⟩
  have hi' : 32 - (n + 1) = i := by omega
  have hn' : 31 - n = i := by omega
  rw [hn'] at hport ⊢
  rw [hi, hi', bang]
  simp only [read_eedo, hport]
  have hne : eedo ≠ 0#8 := by decide
  cases hout : m.out (sent cmd (n + 1)) with
  | true => simp [hne, ctrlOf]
  | false =>
      have hlt : 16 < i ↔ n < 15 := by omega
      have hsub : i - 16 = 15 - n := by omega
      simp [hlt, hsub, ctrlOf]

/-! ## What is sent -/

variable {L a : Nat}

/-- The bits behind the leading zeros. -/
def readFrame (L a : Nat) : List Bool := readCommand ++ bitsOf L a ++ List.replicate 16 false

theorem readFrame_length (L a : Nat) : (readFrame L a).length = L + 19 := by
  simp only [readFrame, List.length_append, SerialMemory.bitsOf_length, List.length_replicate]
  rw [readCommand, List.length_cons, List.length_cons, List.length_cons, List.length_nil]
  omega

theorem readFrame_getD (L a k : Nat) : (readFrame L a).getD k false
    = if k < 3 then readCommand.getD k false
      else if k < 3 + L then a.testBit (L + 2 - k) else false := by
  rw [readFrame, List.append_assoc, List.getD_eq_getElem?_getD]
  split
  · rename_i hk
    rw [List.getElem?_append_left (by exact hk), List.getD_eq_getElem?_getD]
  · rename_i hk
    rw [List.getElem?_append_right (by exact Nat.le_of_not_lt hk)]
    have h3 : readCommand.length = 3 := rfl
    rw [h3]
    split
    · rename_i hlt
      rw [List.getElem?_append_left (by rw [SerialMemory.bitsOf_length]; omega), bitsOf,
        List.getElem?_map, List.getElem?_range (by omega)]
      exact congrArg a.testBit (by omega)
    · rename_i hge
      rw [List.getElem?_append_right (by rw [SerialMemory.bitsOf_length]; omega),
        List.getElem?_replicate]
      split <;> rfl

theorem readFrame_take (L a : Nat) {k : Nat} (hk : k ≤ 16) : (readFrame L a).take (3 + L + k)
    = readCommand ++ bitsOf L a ++ List.replicate k false := by
  have hlen : (readCommand ++ bitsOf L a).length = 3 + L := by
    rw [List.length_append, SerialMemory.bitsOf_length]
    rfl
  rw [readFrame, ← hlen, List.take_length_add_append, List.take_replicate, Nat.min_eq_left hk]

theorem cmdAddrData_bit (hL : L ≤ 8) (ha : a < 2 ^ L) {n : Nat} (hn : n < 32) :
    (cmdAddrData (BitVec.ofNat 16 L) (BitVec.ofNat 16 a)).getLsbD (31 - n)
      = (decide (13 - L ≤ n) && (readFrame L a).getD (n - (13 - L)) false) := by
  have hlen : (BitVec.ofNat 16 L).toNat = L := by
    rw [BitVec.toNat_ofNat]
    exact Nat.mod_eq_of_lt (by omega)
  have hop : ∀ j, 3 ≤ j → opRead.getLsbD j = false := by
    intro j hj
    by_cases hlt : j < 32
    · have hall : ∀ j : Fin 32, 3 ≤ j.val → opRead.getLsbD j = false := by decide
      exact hall ⟨j, hlt⟩ hj
    · exact BitVec.getLsbD_of_ge _ _ (Nat.le_of_not_lt hlt)
  have haddr : ∀ j, L ≤ j → a.testBit j = false := fun j hj =>
    Nat.testBit_lt_two_pow (Nat.lt_of_lt_of_le ha (Nat.pow_le_pow_right (by decide) hj))
  rw [cmdAddrData, hlen, readFrame_getD]
  simp only [BitVec.getLsbD_shiftLeft, BitVec.getLsbD_or, BitVec.getLsbD_setWidth,
    BitVec.getLsbD_ofNat]
  by_cases h16 : 16 ≤ n
  · -- behind the address
    have hlow : 31 - n < 16 := by omega
    have hk3 : ¬n - (13 - L) < 3 := by omega
    have hkL : ¬n - (13 - L) < 3 + L := by omega
    simp [hlow, hk3, hkL]
  obtain ⟨j, hj⟩ : ∃ j, 31 - n - 16 = j := ⟨_, rfl⟩
  have hj32 : j < 32 := by omega
  have hj16 : j < 16 := by omega
  have hn16 : ¬31 - n < 16 := by omega
  have hn32 : 31 - n < 32 := by omega
  simp only [hj, hj32, hj16, hn16, hn32, decide_true, decide_false, Bool.not_false, Bool.true_and]
  by_cases hjL : j < L
  · -- in the address
    have hk3 : ¬n - (13 - L) < 3 := by omega
    have hkL : n - (13 - L) < 3 + L := by omega
    rw [if_neg hk3, if_pos hkL, decide_eq_true (by omega : 13 - L ≤ n)]
    simp only [hjL, decide_true, Bool.not_true, Bool.false_and, Bool.false_or, Bool.true_and]
    exact congrArg a.testBit (by omega)
  rw [haddr j (by omega), Bool.or_false]
  simp only [hjL, decide_false, Bool.not_false, Bool.true_and]
  by_cases hlead : 13 - L ≤ n
  · -- the start bit and the command
    obtain ⟨k, hk⟩ : ∃ k, n - (13 - L) = k := ⟨_, rfl⟩
    have hk3 : k < 3 := by omega
    have hjk : j - L = 2 - k := by omega
    rw [decide_eq_true hlead, Bool.true_and, hk, if_pos hk3, hjk]
    interval_cases k <;> rfl
  · rw [decide_eq_false hlead, Bool.false_and]
    exact (BitVec.getLsbD_ofNat 32 6 (j - L)).symm.trans (hop (j - L) (by omega))

theorem sent_zeros (hL : L ≤ 8) (ha : a < 2 ^ L) : ∀ {n : Nat}, n ≤ 13 - L →
    sent (cmdAddrData (BitVec.ofNat 16 L) (BitVec.ofNat 16 a)) n = []
  | 0, _ => rfl
  | n + 1, h => by
      rw [sent, sent_zeros hL ha (by omega), cmdAddrData_bit hL ha (by omega),
        decide_eq_false (by omega), Bool.false_and]
      rfl

theorem sent_frame (hL : L ≤ 8) (ha : a < 2 ^ L) : ∀ {k : Nat}, k ≤ L + 19 →
    sent (cmdAddrData (BitVec.ofNat 16 L) (BitVec.ofNat 16 a)) (13 - L + k)
      = (readFrame L a).take k
  | 0, _ => sent_zeros hL ha (le_refl _)
  | k + 1, h => by
      have hk : k < (readFrame L a).length := by rw [readFrame_length]; omega
      rw [← Nat.add_assoc, sent, sent_frame hL ha (by omega), cmdAddrData_bit hL ha (by omega),
        decide_eq_true (by omega), Bool.true_and, Nat.add_sub_cancel_left,
        List.getD_eq_getElem _ _ hk, List.take_succ_eq_append_getElem hk]
      refine if_neg fun hc => ?_
      cases k with
      | zero => exact Bool.noConfusion (hc.2 : true = false)
      | succ k =>
          have hlen := congrArg List.length hc.1
          rw [List.length_take, List.length_nil] at hlen
          omega

/-! ## A transfer -/

/-- The rounds before the zero, in which the output floats. -/
theorem out_before {m : SerialMemory w} (hw : w ≤ L) (hL : L ≤ 8) (ha : a < 2 ^ L) {n : Nat}
    (hn : n ≤ 15 + w - L) :
    m.out (sent (cmdAddrData (BitVec.ofNat 16 L) (BitVec.ofNat 16 a)) n) = true := by
  refine m.out_floats ?_
  by_cases hlead : n ≤ 13 - L
  · rw [sent_zeros hL ha hlead, List.length_nil]
    omega
  · obtain ⟨k, rfl⟩ : ∃ k, n = 13 - L + k := ⟨n - (13 - L), by omega⟩
    rw [sent_frame hL ha (by omega), List.length_take, readFrame_length]
    omega

/-- The zero that comes with the last bit of the address. -/
theorem out_zero {m : SerialMemory w} (hw : w ≤ L) (hL : L ≤ 8) (ha : a < 2 ^ w)
    (h0 : w < L → a = 0) :
    m.out (sent (cmdAddrData (BitVec.ofNat 16 L) (BitVec.ofNat 16 a)) (16 + w - L)) = false := by
  have haL : a < 2 ^ L := Nat.lt_of_lt_of_le ha (Nat.pow_le_pow_right (by decide) hw)
  have hn : 16 + w - L = 13 - L + (3 + w) := by omega
  have htake : (readFrame L a).take (3 + w) = readCommand ++ bitsOf w a ++ [] := by
    rcases Nat.eq_or_lt_of_le hw with rfl | hlt
    · exact readFrame_take w a (Nat.zero_le 16)
    · obtain rfl := h0 hlt
      have hpre : (bitsOf L 0 ++ List.replicate 16 false).take w = bitsOf w 0 := by
        rw [SerialMemory.bitsOf_zero, SerialMemory.bitsOf_zero, List.replicate_append_replicate,
          List.take_replicate, Nat.min_eq_left (by omega)]
      have happ : (readCommand ++ (bitsOf L 0 ++ List.replicate 16 false)).take
          (readCommand.length + w)
            = readCommand ++ (bitsOf L 0 ++ List.replicate 16 false).take w :=
        List.take_length_add_append w
      rw [hpre, ← List.append_assoc] at happ
      rw [List.append_nil]
      exact happ
  rw [hn, sent_frame hL haL (by omega), htake]
  exact (m.out_read ha []).1 rfl

/-- The bits of the word, when the address is as long as was expected. -/
theorem out_word {m : SerialMemory w} (hw : w ≤ 8) (ha : a < 2 ^ w) {k : Nat} (hk : k < 16) :
    m.out (sent (cmdAddrData (BitVec.ofNat 16 w) (BitVec.ofNat 16 a)) (16 + k + 1))
      = (m.words a).getLsbD (15 - k) := by
  have hn : 16 + k + 1 = 13 - w + (3 + w + (k + 1)) := by omega
  rw [hn, sent_frame hw ha (by omega), readFrame_take w a hk,
    (m.out_read ha _).2 (by simp) (by rw [List.length_replicate]; omega), List.length_replicate]
  congr 1
  omega

/-- From the 17th round from the end on the length stays. -/
theorem bang_addrLen (m : SerialMemory w) (cmd : Word) : ∀ {i : Nat}, i ≤ 17 → ∀ t : EepromTransfer,
    (bang m cmd i t).addrLen = t.addrLen
  | 0, _, t => by rw [bang]
  | i + 1, hi, t => by
      rw [bang, if_neg fun hc => absurd hc.2 (by omega)]
      exact bang_addrLen m cmd (by omega) _

/-- Up to the zero in front of the word nothing is corrected. -/
theorem bang_before {m : SerialMemory w} (hw : w ≤ L) (hL : L ≤ 8) (ha : a < 2 ^ L) :
    ∀ (d n : Nat) {t : EepromTransfer}, n + d = 15 + w - L →
      t.port.rx = sent (cmdAddrData (BitVec.ofNat 16 L) (BitVec.ofNat 16 a)) n →
      ∃ t', t'.port.rx = sent (cmdAddrData (BitVec.ofNat 16 L) (BitVec.ofNat 16 a)) (15 + w - L)
        ∧ t'.addrLen = t.addrLen
        ∧ bang m (cmdAddrData (BitVec.ofNat 16 L) (BitVec.ofNat 16 a)) (32 - n) t
          = bang m (cmdAddrData (BitVec.ofNat 16 L) (BitVec.ofNat 16 a)) (32 - (15 + w - L)) t'
  | 0, n, t, hd, hrx => ⟨t, by rw [hrx, ← hd]; rfl, rfl, by rw [← hd]; rfl⟩
  | d + 1, n, t, hd, hrx => by
      obtain ⟨port, hport, hbang⟩ := bang_round m _ n (by omega) hrx
      rw [out_before hw hL ha (by omega), if_neg (fun hc => Bool.noConfusion hc.1)] at hbang
      obtain ⟨t', hrx', hlen, h⟩ := bang_before hw hL ha d (n + 1) (t := ⟨port, t.addrLen, _⟩)
        (by omega) hport
      exact ⟨t', hrx', hlen, hbang.trans h⟩

theorem bang_word {m : SerialMemory w} (hw : w ≤ 8) (ha : a < 2 ^ w) :
    ∀ (d k : Nat) {t : EepromTransfer}, k + d = 16 →
      t.port.rx = sent (cmdAddrData (BitVec.ofNat 16 w) (BitVec.ofNat 16 a)) (16 + k) →
      (∀ j < k, t.data.getLsbD j = (m.words a).getLsbD (16 - k + j)) →
      (bang m (cmdAddrData (BitVec.ofNat 16 w) (BitVec.ofNat 16 a)) (32 - (16 + k)) t).data
        = m.words a
  | 0, k, t, hd, hrx, hdata => by
      obtain rfl : k = 16 := hd
      rw [bang]
      refine BitVec.eq_of_getLsbD_eq fun j hj => ?_
      rw [hdata j hj]
      exact congrArg _ (by omega)
  | d + 1, k, t, hd, hrx, hdata => by
      obtain ⟨port, hport, hbang⟩ := bang_round m _ (16 + k) (by omega) hrx
      rw [if_neg (fun hc => absurd hc.2 (by omega)), out_word hw ha (by omega)] at hbang
      rw [hbang]
      refine bang_word hw ha d (k + 1) (by omega) hport fun j hj => ?_
      have hone : ∀ b : Bool,
          (if b = true then (1 : Half) else 0).getLsbD j = (b && decide (j = 0)) := by
        intro b
        cases b <;> simp
      rw [BitVec.getLsbD_or, BitVec.getLsbD_shiftLeft, hone]
      cases j with
      | zero => simp
      | succ j =>
          have hj16 : j + 1 < 16 := by omega
          have hk : 16 - k + j = 16 - (k + 1) + (j + 1) := by omega
          simp [hj16, hdata j (by omega), hk]

theorem eepromRead_deselected (m : SerialMemory w) (port : EepromPort) (addrLen addr : Half) :
    (eepromRead m port addrLen addr).port.Deselected where
  line := BitVec.zero_and
  rx := rfl

/-- A transfer finds out how long an address is, and reads the word if that
was known. -/
theorem eepromRead_spec (m : SerialMemory w) {port : EepromPort} (hport : port.rx = [])
    (hw : w ≤ L) (hL : L ≤ 8) (ha : a < 2 ^ w) (h0 : w < L → a = 0) :
    (eepromRead m port (BitVec.ofNat 16 L) (BitVec.ofNat 16 a)).addrLen = BitVec.ofNat 16 w
    ∧ (w = L → (eepromRead m port (BitVec.ofNat 16 L) (BitVec.ofNat 16 a)).data = m.words a) := by
  have haL : a < 2 ^ L := Nat.lt_of_lt_of_le ha (Nat.pow_le_pow_right (by decide) hw)
  have hsel := select_rx hport
  obtain ⟨t, hrx, hlen, hbang⟩ := bang_before (m := m) hw hL haL (15 + w - L) 0
    (t := ⟨port.write (eecs ||| eesk), BitVec.ofNat 16 L, 0⟩) (by omega) hsel
  have hread : eepromRead m port (BitVec.ofNat 16 L) (BitVec.ofNat 16 a)
      = let t' := bang m (cmdAddrData (BitVec.ofNat 16 L) (BitVec.ofNat 16 a)) (32 - (15 + w - L)) t
        { t' with port := t'.port.write 0 } := by
    rw [eepromRead, ← hbang]
  obtain ⟨port', hport', hround⟩ := bang_round m _ (15 + w - L) (by omega) hrx
  have hsucc : 15 + w - L + 1 = 16 + w - L := by omega
  rw [hsucc, out_zero hw hL ha h0] at hround
  rw [hread]
  refine ⟨?_, fun heq => ?_⟩
  · dsimp only
    rw [hround]
    split
    · rename_i hc
      rw [bang_addrLen m _ (le_refl _), hlen]
      refine BitVec.eq_of_toNat_eq ?_
      rw [BitVec.toNat_sub, BitVec.toNat_ofNat, BitVec.toNat_ofNat, BitVec.toNat_ofNat]
      omega
    · rename_i hc
      have heq : w = L := by
        by_contra hne
        exact hc ⟨rfl, by omega⟩
      rw [bang_addrLen m _ (by omega), heq]
      exact hlen
  · subst heq
    dsimp only
    rw [hround, if_neg (fun hc => absurd hc.2 (by omega))]
    have h16 : 16 + w - w = 16 + 0 := by omega
    rw [h16]
    rw [hsucc, h16] at hport'
    exact bang_word hL ha 16 0 rfl hport' fun j hj => absurd hj (Nat.not_lt_zero j)

/-! ## The copy -/

/-- The loop of `eeprom_load`, once the length of an address is known. -/
theorem loadWordAt_range (m : SerialMemory w) (hw : w ≤ 8) {port : EepromPort}
    (hport : port.Deselected) (eeprom : Nat → Half) : ∀ {n : Nat}, n ≤ 2 ^ w →
    ∃ port', port'.Deselected
      ∧ (List.range n).foldl (loadWordAt m) (port, BitVec.ofNat 16 w, eeprom)
        = (port', BitVec.ofNat 16 w, fun i => if i < n then m.words i else eeprom i)
  | 0, _ => ⟨port, hport, rfl⟩
  | n + 1, hn => by
      obtain ⟨port', hport', hfold⟩ := loadWordAt_range m hw hport eeprom (n := n) (by omega)
      obtain ⟨hlen, hdata⟩ :=
        eepromRead_spec m hport'.rx (le_refl w) hw (a := n) (by omega) fun h => absurd h (by omega)
      refine ⟨_, eepromRead_deselected m port' (BitVec.ofNat 16 w) (BitVec.ofNat 16 n), ?_⟩
      rw [List.range_succ, List.foldl_append, hfold, List.foldl_cons, List.foldl_nil, loadWordAt]
      dsimp only
      rw [hlen, hdata rfl]
      refine congrArg (_, _, ·) (funext fun i => ?_)
      rcases Nat.lt_trichotomy i n with hi | rfl | hi
      · rw [update_of_ne (by omega), if_pos hi, if_pos (by omega)]
      · rw [update_self, if_pos (by omega)]
      · rw [update_of_ne (by omega), if_neg (by omega), if_neg (by omega)]

/-- Whatever an EEPROM with addresses of at most eight bits holds,
`eeprom_load`, begun with no command under way, finds out how many words it
has, and copies all of them, and the hardware address is in the first three,
the low byte of each first. The memory is left as it was, deselected. -/
theorem eeprom_copied (m : SerialMemory w) (hw : w ≤ 8) {port : EepromPort}
    (hport : port.rx = []) (nic : EepromCopy) :
    (eepromLoad m port nic).2.eepromCount.toNat = 2 ^ w
    ∧ (∀ i, (eepromLoad m port nic).2.eeprom i = if i < 2 ^ w then m.words i else nic.eeprom i)
    ∧ (eepromLoad m port nic).1.Deselected
    ∧ (2 ≤ w → (eepromLoad m port nic).2.mac = [0, 1, 2].flatMap fun i =>
        [(m.words i).setWidth 8, (m.words i >>> 8).setWidth 8]) := by
  obtain ⟨hlen, -⟩ := eepromRead_spec m hport hw (le_refl 8) (a := 0)
    (Nat.two_pow_pos w) fun _ => rfl
  have hcount : (1#16 <<< (eepromRead m port 8#16 0#16).addrLen.toNat).toNat = 2 ^ w := by
    have hlt : 2 ^ w < 2 ^ 16 := Nat.pow_lt_pow_right (by decide) (by omega)
    have hw16 : (BitVec.ofNat 16 w).toNat = w := by
      rw [BitVec.toNat_ofNat]
      exact Nat.mod_eq_of_lt (by omega)
    rw [hlen, hw16, BitVec.toNat_shiftLeft, Nat.shiftLeft_eq]
    exact (congrArg (· % 2 ^ 16) (Nat.one_mul _)).trans (Nat.mod_eq_of_lt hlt)
  obtain ⟨port', hport', hfold⟩ := loadWordAt_range m hw
    (eepromRead_deselected m port 8#16 0#16) nic.eeprom (le_refl (2 ^ w))
  have hload : eepromLoad m port nic
      = (port', ⟨1#16 <<< (eepromRead m port 8#16 0#16).addrLen.toNat,
        fun i => if i < 2 ^ w then m.words i else nic.eeprom i⟩) := by
    rw [eepromLoad, hcount, hlen, hfold]
  rw [hload]
  refine ⟨hcount, fun _ => rfl, hport', fun h2 => ?_⟩
  have h4 : 2 ^ 2 ≤ 2 ^ w := Nat.pow_le_pow_right (by decide) h2
  have hlow : ∀ x : Half, (x &&& 0x00FF).setWidth 8 = x.setWidth 8 := by
    intro x
    refine BitVec.eq_of_getLsbD_eq fun i hi => ?_
    have hmask : (0x00FF : Half).getLsbD i = true := by
      interval_cases i <;> rfl
    rw [BitVec.getLsbD_setWidth, BitVec.getLsbD_setWidth, BitVec.getLsbD_and, hmask, Bool.and_true]
  rw [EepromCopy.mac]
  refine List.flatMap_congr fun i hi => ?_
  have hi3 : i < 3 := by
    simp only [List.mem_cons, List.not_mem_nil, or_false] at hi
    omega
  have hi4 : i < 2 ^ w := by omega
  simp only [hlow, if_pos hi4]

/-- 64 words, each its own number. -/
def numberedWords : SerialMemory 6 := ⟨fun i => BitVec.ofNat 16 i, fun _ => true⟩

theorem eeprom_copied_numbered :
    (eepromLoad numberedWords ⟨0, []⟩ ⟨0, fun _ => 0⟩).2.eepromCount.toNat = 2 ^ 6
    ∧ (∀ i, (eepromLoad numberedWords ⟨0, []⟩ ⟨0, fun _ => 0⟩).2.eeprom i
        = if i < 2 ^ 6 then BitVec.ofNat 16 i else 0)
    ∧ (eepromLoad numberedWords ⟨0, []⟩ ⟨0, fun _ => 0⟩).1.Deselected
    ∧ (eepromLoad numberedWords ⟨0, []⟩ ⟨0, fun _ => 0⟩).2.mac = [0, 0, 1, 0, 2, 0] := by
  obtain ⟨hcount, hcopy, hrx, hmac⟩ :=
    eeprom_copied numberedWords (by decide) (rfl : (⟨0, []⟩ : EepromPort).rx = []) ⟨0, fun _ => 0⟩
  exact ⟨hcount, hcopy, hrx, hmac (by decide)⟩

end SpKernel
