import SpKernel.IoFile
import SpKernel.PathNodes

/-!
# The raw filesystem (`kern/drivers/rawfs/raw.c`)

A path `\root\<#block offset>` stands for a block of 4096 bytes.
`raw_execute` is to discard the mount and to read the number that is
left. But `io_path_disc_n_nodes` discards the last node and keeps the
mount, with its delimiter, which is no digit to `atoi`; and it ends the
path of the message there. So no message with such a path gets to the
device (`raw_never_addresses`).

The argument goes along the three functions on the path: it has two nodes
(`RawPath.count`), what is left of it is the mount with the delimiter in
front (`RawPath.disc`), and that is no number (`RawPath.atoi_none`). It
depends on nothing else in memory, so the result holds for every message
of this kind, and for any device.

The address of `newpath` is a parameter, since it is an array on the
stack; its size and what is written to the console are left out.
`DeviceExtern` says what the device does with a call, and the calls that
are made are returned beside the result.
-/

namespace SpKernel

open Lib

/-! ## `atoi` -/

/-- The cases of the `switch`. There is none for `'0'`. -/
def digitValue (c : Byte) : Option Word :=
  if 0x31 ≤ c ∧ c ≤ 0x39 then some (c.setWidth 32 - 0x30) else none

/-- The loop of `atoi`. The multiplier grows with every digit. -/
def atoiLoop (m : Mem) : Nat → Word → Word → Word → Except Fault (Option Word)
  | 0, _, _, _ => .error .diverge
  | fuel + 1, str, multiplier, accumulator =>
      if m str ≠ 0 then
        match digitValue (m str) with
        | none => .ok none
        | some toAdd =>
            atoiLoop m fuel (str + 1#32) (multiplier * 10) (accumulator * multiplier + toAdd)
      else .ok (some accumulator)

/-- `atoi`: the value, or none if the result is -1. -/
def atoi (m : Mem) (str : Word) : Except Fault (Option Word) := atoiLoop m (2 ^ 32) str 1 0

/-! ## The filesystem -/

/-- A call of a routine of a device; `length` is what the caller has stored
at the address it passes. -/
structure DeviceCall where
  routine : Word
  offset : Word
  length : Word
  buffer : Word
deriving DecidableEq

/-- What the routines of devices do: the status, and the length and the
memory after the call. -/
abbrev DeviceExtern := DeviceCall → MemMgr → Except IoFault (Status × Word × MemMgr)

def callDevice (dev : DeviceExtern) (c : DeviceCall) (mm : MemMgr) :
    Except IoFault (Status × Word × MemMgr) :=
  if c.routine = 0 then .error (.kernel .null) else dev c mm

/-- A `void *` that is followed as a device. -/
def asDevice : IoPtr → Except IoFault (Fin 5)
  | .object (.device i) => .ok i
  | .object _ => .error .wild
  | .addr a => if a = 0 then .error (.kernel .null) else .error .wild

/-- The loop over the children in `raw_process_query`, with the calls it
makes. -/
def countChildren (dev : DeviceExtern) (read : Word) :
    Nat → Word → Word → MemMgr → Except IoFault (List DeviceCall × MemMgr)
  | 0, _, _, _ => .error (.kernel .diverge)
  | fuel + 1, childcount, length, mm => do
      let c : DeviceCall := ⟨read, childcount, length, 0⟩
      let (readstatus, length, mm) ← callDevice dev c mm
      if readstatus = .success then do
        let (calls, mm) ← countChildren dev read fuel (childcount + 1) length mm
        .ok (c :: calls, mm)
      else .ok ([c], mm)

/-- `raw_process_query`. The number of children is not returned. -/
def rawProcessQuery (dev : DeviceExtern) (io : Io) (msg : Fin 50) :
    Except IoFault (Status × List DeviceCall × Io) :=
  let message := io.messages.slots msg
  if message.offsetProp = IoProp.isDir.code then
    if message.buffer = 0 then .error (.kernel .null)
    else .ok (.success, [], { io with
      mm := { io.mm with mem := store 1 io.mm.mem message.buffer (1 : Byte) }
      messages := io.messages.set msg { message with length := 4 } })
  else if message.offsetProp = IoProp.countChildren.code then do
    let device ← asDevice message.device
    let (calls, mm) ← countChildren dev (io.devices.slots device).read (2 ^ 31) 0 1 io.mm
    .ok (.success, calls, { io with mm := mm })
  else .ok (.badArg, [], io)

/-- One call of the device with a block count of 4096. -/
def rawTransfer (dev : DeviceExtern) (io : Io) (routine offset buffer : Word) :
    Except IoFault (Status × List DeviceCall × Io) := do
  let c : DeviceCall := ⟨routine, offset, 4096, buffer⟩
  let (st, _, mm) ← callDevice dev c io.mm
  .ok (st, [c], { io with mm := mm })

/-- `raw_execute`, with the calls of the device it has made. -/
def rawExecute (dev : DeviceExtern) (io : Io) (msg : Fin 50) (newpath : Word) :
    Except IoFault (Status × List DeviceCall × Io) := do
  let message := io.messages.slots msg
  let countNodes ← liftFault (ioPathCountNodes io.mm.mem message.path)
  if countNodes ≠ 2 ∧ countNodes ≠ 1 then .ok (.badArg, [], io)
  else do
    let m ← liftFault (ioPathDiscNNodes io.mm.mem message.path 1 newpath)
    let io := { io with mm := { io.mm with mem := m } }
    match ← liftFault (atoi m newpath) with
    | none => .ok (.failure, [], io)
    | some sectorId =>
        if message.ioctl = Ioctl.read.code then do
          let device ← asDevice message.device
          rawTransfer dev io (io.devices.slots device).read (sectorId * 4096) message.buffer
        else if message.ioctl = Ioctl.write.code then do
          let device ← asDevice message.device
          rawTransfer dev io (io.devices.slots device).write (sectorId * 4096) message.buffer
        else if message.ioctl = Ioctl.query.code then
          if countNodes ≠ 1 then .ok (.badArg, [], io) else rawProcessQuery dev io msg
        else if message.ioctl = Ioctl.delete.code ∨ message.ioctl = Ioctl.identify.code then
          .ok (.success, [], io)
        else .ok (.badArg, [], io)

/-! ## Addressing a block -/

/-- A character of a node. -/
def InNode (c : Byte) : Prop := c ≠ ioPathDelimiter ∧ c ≠ 0

/-- A path of a mount and a block number, `\root\<#block offset>`; the
first delimiter may be missing. -/
structure RawPath where
  slash : Bool
  mount : List Byte
  digits : List Byte
  mount_ne : mount ≠ []
  mount_inNode : ∀ c ∈ mount, InNode c
  digits_ne : digits ≠ []
  digits_digit : ∀ c ∈ digits, 0x30 ≤ c ∧ c ≤ 0x39

namespace RawPath

/-- The path up to the delimiter in front of the number. -/
def front (p : RawPath) : List Byte := (if p.slash then [ioPathDelimiter] else []) ++ p.mount

def bytes (p : RawPath) : List Byte := p.front ++ ioPathDelimiter :: p.digits

/-- The block number. -/
def block (p : RawPath) : Nat := p.digits.foldl (fun n c => 10 * n + (c.toNat - 0x30)) 0

end RawPath

/-- The message reads or writes its block, with the routine of its device:
there is one call, its status is returned, and the path is as before. -/
def RawAddressed (dev : DeviceExtern) (io : Io) (msg : Fin 50) (newpath routine : Word)
    (p : RawPath) : Prop :=
  let c : DeviceCall :=
    ⟨routine, BitVec.ofNat 32 (p.block * 4096), 4096, (io.messages.slots msg).buffer⟩
  ∃ st io' mm length, rawExecute dev io msg newpath = .ok (st, [c], io')
    ∧ dev c mm = .ok (st, length, io'.mm)
    ∧ IsString io'.mm.mem (io'.messages.slots msg).path p.bytes

/-! ## The functions on the path of a message -/

variable {m : Mem} {path out a : Word} {s pre rest bs : List Byte}

/-- The copy of one node stops at the delimiter behind it. -/
theorem cutFrom_first (rest : List Byte) : ∀ {pre : List Byte} {index : Nat} (last : Byte),
    (∀ c ∈ pre, InNode c) → pre ≠ [] ∨ InNode last → index + pre.length ≠ 0 →
    cutFrom 1 index 0 last (pre ++ ioPathDelimiter :: rest) = some pre.length
  | [], index, last, _, hl, hi => by
      have hends : endsNode index last ioPathDelimiter = true :=
        decide_eq_true ⟨rfl, hi, (hl.resolve_left fun hne => hne rfl).1.symm⟩
      rw [List.nil_append, cutFrom, hends]
      rfl
  | c :: pre, index, last, h, _, _ => by
      obtain ⟨hc, hpre⟩ := List.forall_mem_cons.mp h
      have hends : endsNode index last c = false := decide_eq_false fun hd => hc.1 hd.1
      rw [List.cons_append, cutFrom, hends]
      simp only [Bool.false_eq_true, ↓reduceIte, Nat.zero_ne_one]
      rw [cutFrom_first rest c hpre (.inr hc) (by omega : index + 1 + pre.length ≠ 0)]
      rfl

variable {p : RawPath}

theorem RawPath.digits_inNode (p : RawPath) : ∀ c ∈ p.digits, InNode c := by
  intro c hc
  obtain ⟨hlow, hhigh⟩ := p.digits_digit c hc
  constructor
  · rintro rfl
    exact absurd hhigh (by decide)
  · rintro rfl
    exact absurd hlow (by decide)

theorem RawPath.front_ne (p : RawPath) : ∀ c ∈ p.front ++ [ioPathDelimiter], c ≠ 0 := by
  intro c hc
  simp only [RawPath.front, List.append_assoc, List.mem_append, List.mem_singleton] at hc
  rcases hc with hc | hc | rfl
  · split at hc
    · rw [List.mem_singleton.mp hc]
      decide
    · cases hc
  · exact (p.mount_inNode c hc).2
  · decide

theorem RawPath.count (hs : IsString m path p.bytes) : ioPathCountNodes m path = .ok 2 := by
  have hrun : ∀ {w : List Byte}, w ≠ [] → (∀ c ∈ w, InNode c) → nodesOf w = [w] :=
    fun hne hw => components_run hne fun hd => (hw _ hd).1 rfl
  have hfront : nodesOf p.front = [p.mount] := by
    rw [RawPath.front]
    by_cases hslash : p.slash = true
    · rw [if_pos hslash, List.singleton_append, nodesOf, components_sep,
        ← hrun p.mount_ne p.mount_inNode]
    · rw [if_neg hslash, List.nil_append, hrun p.mount_ne p.mount_inNode]
  have hnodes : nodesOf p.bytes = [p.mount, p.digits] := by
    have hdigits := hrun p.digits_ne p.digits_inNode
    rw [nodesOf] at hfront hdigits
    rw [RawPath.bytes, nodesOf, components_append, hfront, hdigits]
    rfl
  rw [ioPathCountNodes_spec hs, nodesFrom_start hs.ne_zero, hnodes]
  rfl

/-- The memory after the last node has been discarded: the mount and its
delimiter are at `out`, and the path ends in front of the delimiter. -/
def RawPath.discarded (p : RawPath) (m : Mem) (path out : Word) : Mem :=
  store 1 (storeBytes m out (p.front ++ [ioPathDelimiter]))
    (path + BitVec.ofNat 32 p.front.length) (0 : Byte)

theorem RawPath.disc (hs : IsString m path p.bytes)
    (hap : Apart out p.bytes.length path (p.bytes.length + 1)) :
    ioPathDiscNNodes m path 1 out = .ok (p.discarded m path out) := by
  have hone : (BitVec.ofNat 32 2 - 1 : Word).toNat = 1 := rfl
  have hcut : cutFrom 1 0 0 0 p.bytes = some p.front.length := by
    have hpos := List.length_pos_of_ne_nil p.mount_ne
    rw [RawPath.bytes, RawPath.front]
    by_cases hslash : p.slash = true
    · have hends : endsNode 0 0 ioPathDelimiter = false := decide_eq_false fun hd => hd.2.1 rfl
      rw [if_pos hslash, List.append_assoc, List.singleton_append, cutFrom, hends]
      simp only [Bool.false_eq_true, ↓reduceIte, Nat.zero_ne_one]
      rw [cutFrom_first p.digits ioPathDelimiter p.mount_inNode (.inl p.mount_ne) (by omega)]
      rfl
    · rw [if_neg hslash, List.nil_append,
        cutFrom_first p.digits 0 p.mount_inNode (.inl p.mount_ne) (by omega)]
  have htake : p.bytes.take (p.front.length + 1) = p.front ++ [ioPathDelimiter] := by
    rw [RawPath.bytes, List.take_length_add_append]
    rfl
  rw [ioPathDiscNNodes, p.count hs, ok_bind, ioPathKeepNNodes_spec hs hap, hone, hcut]
  simp only [sliced, htake]
  rfl

/-- Characters of which one is no digit are no number. -/
theorem atoiLoop_none : ∀ (bs : List Byte) {a : Word} {fuel : Nat} {multiplier accumulator : Word},
    (∀ i (hi : i < bs.length), m (a + BitVec.ofNat 32 i) = bs[i]) → (∀ c ∈ bs, c ≠ 0) →
    (∃ c ∈ bs, digitValue c = none) → bs.length < fuel →
    atoiLoop m fuel a multiplier accumulator = .ok none
  | _, _, 0, _, _, _, _, _, hf => absurd hf (Nat.not_lt_zero _)
  | [], _, _ + 1, _, _, _, _, hd, _ => by
      obtain ⟨c, hc, -⟩ := hd
      cases hc
  | c :: bs, a, fuel + 1, multiplier, accumulator, hb, hne, hd, hf => by
      obtain ⟨hc, hbs⟩ := List.forall_mem_cons.mp hne
      have hfirst : m a = c := by
        have h0 := hb 0 (Nat.succ_pos _)
        rwa [BitVec.add_zero] at h0
      simp only [atoiLoop, hfirst, ne_eq, hc, not_false_eq_true, ↓reduceIte]
      cases hv : digitValue c with
      | none => rfl
      | some v =>
          refine atoiLoop_none bs (fun i hi => ?_) hbs ?_ (Nat.lt_of_succ_lt_succ hf)
          · rw [add_ofNat_succ]
            exact hb (i + 1) (Nat.succ_lt_succ hi)
          · obtain ⟨c', hc', hnone⟩ := hd
            rcases List.mem_cons.mp hc' with rfl | hmem
            · rw [hv] at hnone
              cases hnone
            · exact ⟨c', hmem, hnone⟩

/-- The path of the message ends in front of the number. -/
theorem RawPath.ended (hs : IsString m path p.bytes)
    (hap : Apart out p.bytes.length path (p.bytes.length + 1)) :
    IsString (p.discarded m path out) path p.front := by
  have hlt := hs.length_lt
  have hlen : p.bytes.length = p.front.length + (p.digits.length + 1) := by
    rw [RawPath.bytes, List.length_append, List.length_cons]
  have hcopy : (p.front ++ [ioPathDelimiter]).length = p.front.length + 1 := by
    rw [List.length_append, List.length_singleton]
  unfold RawPath.discarded
  refine IsString.of_bytes (fun i hi => ?_) ?_
  · have hne : path + BitVec.ofNat 32 i ≠ path + BitVec.ofNat 32 p.front.length := by
      intro he
      have := offset_inj (by omega) (by omega) he
      omega
    have hi' : i < p.bytes.length := by omega
    have hget : p.bytes[i] = p.front[i] := List.getElem_append_left hi
    rw [store_byte, if_neg hne, storeBytes_apart hap (by omega) (by omega) (by omega), ← hget]
    exact hs.get i hi'
  · rw [store_byte, if_pos rfl]

/-- The copy is no number, because of the delimiter behind the mount. -/
theorem RawPath.atoi_none (hlt : p.bytes.length < 2 ^ 32)
    (hap : Apart out p.bytes.length path (p.bytes.length + 1)) :
    atoi (p.discarded m path out) out = .ok none := by
  have hlen : p.bytes.length = p.front.length + (p.digits.length + 1) := by
    rw [RawPath.bytes, List.length_append, List.length_cons]
  have hcopy : (p.front ++ [ioPathDelimiter]).length = p.front.length + 1 := by
    rw [List.length_append, List.length_singleton]
  refine atoiLoop_none (p.front ++ [ioPathDelimiter]) (fun i hi => ?_) p.front_ne
    ⟨ioPathDelimiter, by simp, by decide⟩ (by omega)
  rw [RawPath.discarded, store_byte, if_neg (hap i (by omega) _ (by omega)),
    storeBytes_apply (by omega), toNat_offset out (by omega), List.getElem?_eq_getElem hi]
  rfl

/-! ## What the call does -/

variable {dev : DeviceExtern} {io : Io} {msg : Fin 50} {newpath : Word}

/-- The call fails before it gets to the device, and it has ended the path
of the message in front of the number. -/
theorem rawExecute_fails (dev : DeviceExtern)
    (hs : IsString io.mm.mem (io.messages.slots msg).path p.bytes)
    (hap : Apart newpath p.bytes.length (io.messages.slots msg).path (p.bytes.length + 1)) :
    ∃ io', rawExecute dev io msg newpath = .ok (.failure, [], io')
      ∧ IsString io'.mm.mem (io'.messages.slots msg).path p.front := by
  refine ⟨{ io with mm :=
    { io.mm with mem := p.discarded io.mm.mem (io.messages.slots msg).path newpath } }, ?_,
    RawPath.ended hs hap⟩
  simp only [rawExecute, RawPath.count hs, RawPath.disc hs hap,
    RawPath.atoi_none hs.length_lt hap, liftFault, Except.mapError, ok_bind, ne_eq,
    not_true_eq_false, false_and, ↓reduceIte]

/-- No message with the path of a block gets to the block: the call fails
without a call of the device, and the path has lost the number. -/
theorem raw_never_addresses (hs : IsString io.mm.mem (io.messages.slots msg).path p.bytes)
    (hap : Apart newpath p.bytes.length (io.messages.slots msg).path (p.bytes.length + 1)) :
    (∀ routine, ¬RawAddressed dev io msg newpath routine p)
    ∧ ∃ io', rawExecute dev io msg newpath = .ok (.failure, [], io')
      ∧ IsString io'.mm.mem (io'.messages.slots msg).path p.front := by
  obtain ⟨io', he, hpath⟩ := rawExecute_fails dev hs hap
  refine ⟨fun routine => ?_, io', he, hpath⟩
  rintro ⟨st, io₁, mm, length, hok, -, -⟩
  rw [he] at hok
  cases hok

/-- The path `\raw\1`. -/
def rawOne : RawPath where
  slash := true
  mount := [0x72, 0x61, 0x77]
  digits := [0x31]
  mount_ne := List.cons_ne_nil _ _
  mount_inNode := by
    unfold InNode
    decide
  digits_ne := List.cons_ne_nil _ _
  digits_digit := by decide

/-- A device that is always successful. -/
def readyDevice : DeviceExtern := fun c mm => .ok (.success, c.length, mm)

/-- A message to read block 1 of the device. -/
def readOne : Io :=
  let io := rawMount (rawPath ++ [0])
  let message := { io.messages.slots 0 with device := .object (.device 0), buffer := 0x202000 }
  { io with messages := io.messages.set 0 message }

theorem readOne_path : IsString readOne.mm.mem (readOne.messages.slots 0).path rawOne.bytes := by
  decide +kernel

theorem readOne_apart : Apart 0x203000 rawOne.bytes.length (readOne.messages.slots 0).path
    (rawOne.bytes.length + 1) := by
  unfold Apart
  decide +kernel

/-- Block 1 is not read. -/
theorem raw_never_addresses_one : ¬RawAddressed readyDevice readOne 0 0x203000 0x30000 rawOne :=
  (raw_never_addresses readOne_path readOne_apart).1 0x30000

/-- The message has the path of block 1 and asks for a read, and the device
is not called. -/
theorem raw_unread : IsString readOne.mm.mem (readOne.messages.slots 0).path rawOne.bytes
    ∧ (readOne.messages.slots 0).ioctl = Ioctl.read.code ∧ rawOne.block = 1
    ∧ (∃ io', rawExecute readyDevice readOne 0 0x203000 = .ok (.failure, [], io'))
    ∧ ¬RawAddressed readyDevice readOne 0 0x203000 (readOne.devices.slots 0).read rawOne := by
  obtain ⟨io', he, -⟩ := rawExecute_fails readyDevice readOne_path readOne_apart
  refine ⟨readOne_path, rfl, rfl, ⟨io', he⟩, ?_⟩
  rintro ⟨st, io₁, mm, length, hok, -, -⟩
  rw [he] at hok
  cases hok

end SpKernel
