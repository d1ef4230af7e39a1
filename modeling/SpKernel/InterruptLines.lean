import SpKernel.Lib.InterruptController
import SpKernel.Lib.Trace
import SpKernel.Types

/-!
# Interrupt lines (`support.c`)

`init_pic` sets up two interrupt controllers, and every handler has to
tell them when it is done: the slave too, if the interrupt came through
it. The devices go on raising lines while handlers run. `Tended` is what
holds all the time: whatever is in service, the writes that the handler
still makes will end. So nothing is in service when a process runs, and
every edge that a controller has not yet a request for is served once
(`lines_served`).

The controllers are those of the library, which the kernel programs
through their ports (`picOutb`). `initPic_eq` says what they are then,
from whatever state they were in. The handlers are the ones that
`init_idt` and the drivers install (`initHandlers_apply`), each with the
writes to the ports it makes and in their order (`Isr.outbs`).

A run has edges on the lines, interrupts that are accepted, writes of the
handler that runs, traps and panics. Requests are counted by a ledger: an
edge that makes one, a handler that serves one, and the difference is
what is still pending (`Tended.ledger`). What the counters can do in a
step is `interruptsStep_cases`, and the induction over runs `Tended.run`.

An interrupt for which there is no handler stops the kernel, and a
handler may stop in a panic (`halted_run` says that there is no other
way). Exceptions in the kernel itself are left out.
-/

namespace SpKernel

open Lib

/-! ## The controllers -/

abbrev picMasterCmdPort : Nat := 0x20

abbrev picMasterImrPort : Nat := 0x21

abbrev picSlaveCmdPort : Nat := 0xA0

abbrev picSlaveImrPort : Nat := 0xA1

abbrev picEoi : Byte := 0x20

/-- The line of the master that the slave has. -/
abbrev slaveLine : Fin 8 := 2

/-- `__outb`, as far as the controllers are concerned. -/
def picOutb (p : Pair) (out : Nat × Byte) : Pair :=
  if out.1 = picMasterCmdPort then { p with master := p.master.writeCommand out.2 }
  else if out.1 = picMasterImrPort then { p with master := p.master.writeData out.2 }
  else if out.1 = picSlaveCmdPort then
    p.relay slaveLine { p with slave := p.slave.writeCommand out.2 }
  else if out.1 = picSlaveImrPort then
    p.relay slaveLine { p with slave := p.slave.writeData out.2 }
  else p

/-- What `init_pic` writes. -/
def picInitWrites : List (Nat × Byte) :=
  -- ICW1: PIC_ICW1BASE | PIC_NEEDICW4
  [(picMasterCmdPort, 0x10 ||| 0x01), (picSlaveCmdPort, 0x10 ||| 0x01),
    -- ICW2
    (picMasterImrPort, 0x20), (picSlaveImrPort, 0x28),
    -- ICW3: PIC_MASTER_SLAVE_LINE, PIC_SLAVE_ID
    (picMasterImrPort, 0x04), (picSlaveImrPort, 0x02),
    -- ICW4: PIC_86MODE
    (picMasterImrPort, 0x01), (picSlaveImrPort, 0x01),
    -- OCW1
    (picMasterImrPort, 0x00), (picSlaveImrPort, 0x00)]

def initPic (p : Pair) : Pair := picInitWrites.foldl picOutb p

/-! ## The handlers -/

/-- The handlers of the kernel. -/
inductive Isr where
  | defaultUnexpected
  | defaultExpected
  | defaultMystery
  | cKeyboard
  | clk
  | sio
  | sys
  | intelNic
  | pageFault
  deriving DecidableEq

def installIsr (isrTable : Nat → Isr) (vector : Nat) (handler : Isr) : Nat → Isr :=
  Function.update isrTable vector handler

/-- `init_idt`, the table of handlers. -/
def initIdtHandlers (isrTable : Nat → Isr) : Nat → Isr :=
  let isrTable := (List.range 256).foldl (fun t i => installIsr t i .defaultUnexpected) isrTable
  let isrTable := installIsr isrTable 0x21 .defaultExpected
  let isrTable := installIsr isrTable 0x20 .defaultExpected
  installIsr isrTable 0x27 .defaultMystery

/-- The handlers that `_init` installs, one module after the other. -/
def initHandlers (networkEnabled : Bool) (isrTable : Nat → Isr) : Nat → Isr :=
  let isrTable := initIdtHandlers isrTable
  -- c_io_init_isr
  let isrTable := installIsr isrTable 0x21 .cKeyboard
  -- setup_initial_page_table
  let isrTable := installIsr isrTable 0x0E .pageFault
  -- _sio_init, _sys_init, _clk_init
  let isrTable := installIsr isrTable 0x24 .sio
  let isrTable := installIsr isrTable 0x80 .sys
  let isrTable := installIsr isrTable 0x20 .clk
  -- intel_nic_init
  if networkEnabled then installIsr isrTable 0x2B .intelNic else isrTable

/-- What a handler writes to the controllers, if it does not panic. -/
def Isr.outbs (isr : Isr) (vector : Nat) : Option (List (Nat × Byte)) :=
  match isr with
  | .defaultUnexpected => none
  | .defaultExpected =>
      if 0x20 ≤ vector ∧ vector < 0x30 then
        some ((picMasterCmdPort, picEoi) ::
          if 0x27 < vector then [(picSlaveCmdPort, picEoi)] else [])
      else none
  | .defaultMystery | .cKeyboard | .clk | .sio | .sys => some [(picMasterCmdPort, picEoi)]
  | .intelNic =>
      if 0x20 ≤ vector ∧ vector < 0x30 then
        some ((picMasterCmdPort, picEoi) ::
          if 0x27 < vector then [(picSlaveCmdPort, picEoi)] else [])
      else some []
  | .pageFault => some []

/-! ## Runs -/

/-- What the processor does: it is in `_init`, with interrupts off; in a
process; in a handler, with the writes that are left; or halted. -/
inductive Activity where
  | starting
  | process
  | handler (vector : Byte) (outbs : List (Nat × Byte))
  | halted

structure Interrupts where
  pics : Pair
  activity : Activity

/-- What can happen. `accept` is the processor asking the controllers for a
vector, `trap` an interrupt from the process itself. -/
inductive LineEvent where
  | raise (l : IrqLine)
  | dispatch
  | accept
  | trap (vector : Byte)
  | outb
  | iret
  | panic
  deriving DecidableEq

/-- The handler of a vector begins. -/
def enterHandler (isrTable : Nat → Isr) (pics : Pair) (vector : Byte) : Interrupts :=
  match (isrTable vector.toNat).outbs vector.toNat with
  | some outbs => ⟨pics, .handler vector outbs⟩
  | none => ⟨pics, .halted⟩

/-- An event, if it can happen. -/
def interruptsStep (isrTable : Nat → Isr) (s : Interrupts) (e : LineEvent) :
    Except Unit Interrupts :=
  match e, s.activity with
  | .raise l, _ =>
      -- no device is on the line of the slave
      if l = .master slaveLine then .error ()
      else .ok { s with pics := s.pics.raise slaveLine l }
  | .dispatch, .starting => .ok { s with activity := .process }
  | .accept, .process =>
      .ok (enterHandler isrTable s.pics.acknowledge.2 s.pics.acknowledge.1)
  | .trap vector, .process => .ok (enterHandler isrTable s.pics vector)
  | .outb, .handler vector (out :: outbs) => .ok ⟨picOutb s.pics out, .handler vector outbs⟩
  | .iret, .handler _ [] => .ok { s with activity := .process }
  | .panic, .handler _ _ => .ok { s with activity := .halted }
  | _, _ => .error ()

/-- The vector of a line. -/
abbrev lineVector (l : IrqLine) : Byte := l.vector 0x20 0x28

/-- An edge on the line, that makes a request. -/
def isEdge (l : IrqLine) (x : Interrupts × LineEvent) : Bool :=
  x.2 = .raise l && !x.1.pics.requested l

/-- The handler of the line is called for its request. -/
def isServed (l : IrqLine) (x : Interrupts × LineEvent) : Bool :=
  x.2 = .accept && x.1.pics.requested l && x.1.pics.acknowledge.1 = lineVector l

/-- The vectors with a handler that comes back. -/
def Handled (networkEnabled : Bool) (vector : Byte) : Prop :=
  vector.toNat ∈ [0x0E, 0x20, 0x21, 0x24, 0x27, 0x80] ∨ networkEnabled ∧ vector.toNat = 0x2B

/-- A step that the kernel does not come back from. -/
def Stops (networkEnabled : Bool) (x : Interrupts × LineEvent) : Prop :=
  match x.2 with
  | .accept => ¬Handled networkEnabled x.1.pics.acknowledge.1
  | .trap vector => ¬Handled networkEnabled vector
  | .panic => True
  | _ => False

/-! ## Set up -/

/-- `init_pic` sets both controllers up, from whatever they were. -/
theorem initPic_eq (p : Pair) : initPic p =
    ⟨⟨fun _ => false, p.master.isr, fun _ => false, 0x20, 0x04, 0x01, []⟩,
      ⟨fun _ => false, p.slave.isr, fun _ => false, 0x28, 0x02, 0x01, []⟩⟩ := by
  have hquiet : ∀ (isr imr : Fin 8 → Bool) (base cascade mode : Byte) (awaits : List InitWord),
      (⟨fun _ => false, isr, imr, base, cascade, mode, awaits⟩ : Controller).request = none :=
    fun _ _ _ _ _ _ => Controller.request_of_irr fun _ => rfl
  simp [initPic, picInitWrites, picOutb, Controller.writeCommand, Controller.restart,
    Controller.writeData, Pair.relay, hquiet]

theorem initPic_ready (p : Pair) : (initPic p).Ready slaveLine 0x20 0x28 := by
  have hcascade : ∀ n : Fin 8, (0x04 : Byte).getLsbD n = decide (n = slaveLine) := by decide
  rw [initPic_eq]
  refine ⟨rfl, rfl, hcascade, rfl, fun _ => rfl, fun _ => rfl, rfl, rfl, ?_⟩
  exact (congrArg Option.isSome (Controller.request_of_irr fun _ => rfl)).symm

theorem initPic_requested (p : Pair) (l : IrqLine) : (initPic p).requested l = false := by
  rw [initPic_eq]
  cases l <;> rfl

theorem initPic_idle {p : Pair} (h : p.Idle) : (initPic p).Idle := by
  rw [initPic_eq]
  exact h

theorem initIdtHandlers_loop (isrTable : Nat → Isr) (n v : Nat) :
    (List.range n).foldl (fun t i => installIsr t i .defaultUnexpected) isrTable v
      = if v < n then .defaultUnexpected else isrTable v := by
  induction n with
  | zero => rfl
  | succ n ih =>
      rw [List.range_succ, List.foldl_append, List.foldl_cons, List.foldl_nil, installIsr,
        Function.update_apply, ih]
      split
      · next hv => rw [if_pos (by omega)]
      · next hv =>
          split
          · rw [if_pos (by omega)]
          · rw [if_neg (by omega)]

theorem initHandlers_apply (networkEnabled : Bool) (isrTable : Nat → Isr) {v : Nat} (hv : v < 256) :
    initHandlers networkEnabled isrTable v = if networkEnabled ∧ v = 0x2B then .intelNic
      else if v = 0x20 then .clk else if v = 0x80 then .sys else if v = 0x24 then .sio
      else if v = 0x0E then .pageFault else if v = 0x21 then .cKeyboard
      else if v = 0x27 then .defaultMystery else .defaultUnexpected := by
  have hloop := initIdtHandlers_loop isrTable 256 v
  rw [if_pos hv] at hloop
  have hidt : initIdtHandlers isrTable v = if v = 0x27 then .defaultMystery
      else if v = 0x20 then .defaultExpected else if v = 0x21 then .defaultExpected
      else .defaultUnexpected := by
    rw [← hloop]
    simp only [initIdtHandlers, installIsr, Function.update_apply]
  cases networkEnabled with
  | false =>
      simp only [initHandlers, installIsr, Function.update_apply, hidt, Bool.false_eq_true,
        false_and, if_false]
      split_ifs <;> rfl
  | true =>
      simp only [initHandlers, installIsr, Function.update_apply, hidt, true_and, if_true]
      split_ifs <;> rfl

/-- The handler of the master's lines tells the master, that of the slave's
both, and no handler writes anything else. -/
theorem outbs_initHandlers {networkEnabled : Bool} {isrTable : Nat → Isr} {vector : Byte}
    {outbs : List (Nat × Byte)}
    (h : (initHandlers networkEnabled isrTable vector.toNat).outbs vector.toNat = some outbs) :
    outbs = [(picMasterCmdPort, picEoi)] ∧ ¬(0x28 ≤ vector.toNat ∧ vector.toNat < 0x30)
      ∨ outbs = [] ∧ vector.toNat < 0x20
      ∨ outbs = [(picMasterCmdPort, picEoi), (picSlaveCmdPort, picEoi)] := by
  rw [initHandlers_apply networkEnabled isrTable vector.isLt] at h
  split_ifs at h with hnic hclk hsys hsio hfault hkeyboard hmystery
  · rw [hnic.2] at h
    exact .inr (.inr (Option.some.inj h).symm)
  · exact .inl ⟨(Option.some.inj h).symm, by omega⟩
  · exact .inl ⟨(Option.some.inj h).symm, by omega⟩
  · exact .inl ⟨(Option.some.inj h).symm, by omega⟩
  · exact .inr (.inl ⟨(Option.some.inj h).symm, by omega⟩)
  · exact .inl ⟨(Option.some.inj h).symm, by omega⟩
  · exact .inl ⟨(Option.some.inj h).symm, by omega⟩
  · cases h

theorem outbs_eq_none {networkEnabled : Bool} {isrTable : Nat → Isr} {vector : Byte} :
    (initHandlers networkEnabled isrTable vector.toNat).outbs vector.toNat = none
      ↔ ¬Handled networkEnabled vector := by
  rw [initHandlers_apply networkEnabled isrTable vector.isLt, Handled]
  simp only [List.mem_cons, List.not_mem_nil, or_false]
  split_ifs with hnic hclk hsys hsio hfault hkeyboard hmystery
  · rw [hnic.2]
    exact iff_of_false nofun fun hc => hc (.inr ⟨hnic.1, rfl⟩)
  · exact iff_of_false nofun fun hc => hc (.inl (by omega))
  · exact iff_of_false nofun fun hc => hc (.inl (by omega))
  · exact iff_of_false nofun fun hc => hc (.inl (by omega))
  · exact iff_of_false nofun fun hc => hc (.inl (by omega))
  · exact iff_of_false nofun fun hc => hc (.inl (by omega))
  · exact iff_of_false nofun fun hc => hc (.inl (by omega))
  · refine iff_of_true rfl fun hc => ?_
    rcases hc with hc | hc
    · omega
    · exact hnic hc

/-! ## One step -/

theorem interruptsStep_cases {isrTable : Nat → Isr} {s s' : Interrupts} {e : LineEvent}
    (h : interruptsStep isrTable s e = .ok s') :
    (∃ l, e = .raise l ∧ l ≠ .master slaveLine ∧ s' = { s with pics := s.pics.raise slaveLine l })
    ∨ (e = .dispatch ∧ s.activity = .starting ∧ s' = { s with activity := .process })
    ∨ (e = .accept ∧ s.activity = .process
      ∧ s' = enterHandler isrTable s.pics.acknowledge.2 s.pics.acknowledge.1)
    ∨ (∃ vector, e = .trap vector ∧ s.activity = .process
      ∧ s' = enterHandler isrTable s.pics vector)
    ∨ (∃ vector out outbs, e = .outb ∧ s.activity = .handler vector (out :: outbs)
      ∧ s' = ⟨picOutb s.pics out, .handler vector outbs⟩)
    ∨ (∃ vector, e = .iret ∧ s.activity = .handler vector []
      ∧ s' = { s with activity := .process })
    ∨ (∃ vector outbs, e = .panic ∧ s.activity = .handler vector outbs
      ∧ s' = { s with activity := .halted }) := by
  obtain ⟨pics, activity⟩ := s
  cases e with
  | raise l =>
      change (if l = .master slaveLine then .error ()
        else .ok { pics := pics.raise slaveLine l, activity := activity }) = Except.ok s' at h
      by_cases hl : l = .master slaveLine
      · rw [if_pos hl] at h
        cases h
      · rw [if_neg hl] at h
        exact .inl ⟨l, rfl, hl, (Except.ok.inj h).symm⟩
  | dispatch =>
      cases activity with
      | starting => exact .inr (.inl ⟨rfl, rfl, (Except.ok.inj h).symm⟩)
      | _ => cases h
  | accept =>
      cases activity with
      | process => exact .inr (.inr (.inl ⟨rfl, rfl, (Except.ok.inj h).symm⟩))
      | _ => cases h
  | trap vector =>
      cases activity with
      | process => exact .inr (.inr (.inr (.inl ⟨vector, rfl, rfl, (Except.ok.inj h).symm⟩)))
      | _ => cases h
  | outb =>
      cases activity with
      | handler vector outbs =>
          cases outbs with
          | nil => cases h
          | cons out outbs =>
              exact .inr (.inr (.inr (.inr (.inl
                ⟨vector, out, outbs, rfl, rfl, (Except.ok.inj h).symm⟩))))
      | _ => cases h
  | iret =>
      cases activity with
      | handler vector outbs =>
          cases outbs with
          | nil =>
              exact .inr (.inr (.inr (.inr (.inr (.inl
                ⟨vector, rfl, rfl, (Except.ok.inj h).symm⟩)))))
          | cons _ _ => cases h
      | _ => cases h
  | panic =>
      cases activity with
      | handler vector outbs =>
          exact .inr (.inr (.inr (.inr (.inr (.inr
            ⟨vector, outbs, rfl, rfl, (Except.ok.inj h).symm⟩)))))
      | _ => cases h

theorem picOutb_master (p : Pair) :
    picOutb p (picMasterCmdPort, picEoi) = { p with master := p.master.endInterrupt } := rfl

theorem picOutb_slave (p : Pair) : picOutb p (picSlaveCmdPort, picEoi)
    = p.relay slaveLine { p with slave := p.slave.endInterrupt } := rfl

/-- Whatever is in service, the writes that are left will end. -/
structure Settling (p : Pair) (outbs : List (Nat × Byte)) : Prop where
  eois : ∀ out ∈ outbs, out = (picMasterCmdPort, picEoi) ∨ out = (picSlaveCmdPort, picEoi)
  master : p.master.AtMostOne
  slave : p.slave.AtMostOne
  masterEnds : (picMasterCmdPort, picEoi) ∈ outbs ∨ ∀ n, p.master.isr n = false
  slaveEnds : (picSlaveCmdPort, picEoi) ∈ outbs ∨ ∀ n, p.slave.isr n = false

theorem Settling.outb {p : Pair} {out : Nat × Byte} {outbs : List (Nat × Byte)}
    (h : Settling p (out :: outbs)) : Settling (picOutb p out) outbs := by
  have hrest : ∀ w ∈ outbs, w = (picMasterCmdPort, picEoi) ∨ w = (picSlaveCmdPort, picEoi) :=
    fun w hw => h.eois w (List.mem_cons_of_mem _ hw)
  rcases h.eois out List.mem_cons_self with rfl | rfl
  · rw [picOutb_master]
    have hnone := Controller.endInterrupt_atMostOne h.master
    refine ⟨hrest, .inl hnone, h.slave, .inr hnone, ?_⟩
    refine h.slaveEnds.imp_left fun hmem => ?_
    exact (List.mem_cons.mp hmem).resolve_left (by decide)
  · rw [picOutb_slave]
    have hnone := Controller.endInterrupt_atMostOne h.slave
    have hslave : (p.relay slaveLine { p with slave := p.slave.endInterrupt }).slave
        = p.slave.endInterrupt := (Pair.relay_master _ _).1
    have hmaster : (p.relay slaveLine { p with slave := p.slave.endInterrupt }).master.isr
        = p.master.isr := Pair.relay_isr _ _
    refine ⟨hrest, ?_, ?_, ?_, ?_⟩
    · rw [Controller.AtMostOne, hmaster]
      exact h.master
    · rw [hslave]
      exact .inl hnone
    · rw [hmaster]
      refine h.masterEnds.imp_left fun hmem => ?_
      exact (List.mem_cons.mp hmem).resolve_left (by decide)
    · rw [hslave]
      exact .inr hnone

theorem Settling.idle {p : Pair} (h : Settling p []) : p.Idle :=
  ⟨h.masterEnds.resolve_left List.not_mem_nil, h.slaveEnds.resolve_left List.not_mem_nil⟩

theorem Settling.raise {p : Pair} {outbs : List (Nat × Byte)} (h : Settling p outbs) (l : IrqLine) :
    Settling (p.raise slaveLine l) outbs := by
  obtain ⟨hmaster, hslave⟩ : (p.raise slaveLine l).master.isr = p.master.isr
      ∧ (p.raise slaveLine l).slave.isr = p.slave.isr := p.raise_isr l
  refine ⟨h.eois, ?_, ?_, ?_, ?_⟩
  · rw [Controller.AtMostOne, hmaster]
    exact h.master
  · rw [Controller.AtMostOne, hslave]
    exact h.slave
  · rw [hmaster]
    exact h.masterEnds
  · rw [hslave]
    exact h.slaveEnds

/-- The controllers are set up, and nothing is in service between handlers. -/
def Tended (s : Interrupts) : Prop :=
  s.pics.Ready slaveLine 0x20 0x28 ∧ match s.activity with
    | .starting => s.pics.Idle
    | .process => s.pics.Idle
    | .handler _ outbs => Settling s.pics outbs ∧ outbs.length ≤ 2
    | .halted => True

theorem lineVector_toNat (l : IrqLine) : (lineVector l).toNat = match l with
    | .master n => 0x20 + n
    | .slave n => 0x28 + n := by
  cases l with
  | master n =>
      change (0x20 + BitVec.ofNat 8 n : Byte).toNat = _
      rw [BitVec.toNat_add, BitVec.toNat_ofNat]
      simp
      omega
  | slave n =>
      change (0x28 + BitVec.ofNat 8 n : Byte).toNat = _
      rw [BitVec.toNat_add, BitVec.toNat_ofNat]
      simp
      omega

theorem lineVector_inj {l l' : IrqLine} (h : lineVector l = lineVector l') : l = l' := by
  have hnat := congrArg BitVec.toNat h
  rw [lineVector_toNat, lineVector_toNat] at hnat
  cases l <;> cases l' <;> simp only [IrqLine.master.injEq, IrqLine.slave.injEq, reduceCtorEq] <;>
    dsimp only at hnat <;> omega

@[simp] theorem enterHandler_pics (isrTable : Nat → Isr) (p : Pair) (vector : Byte) :
    (enterHandler isrTable p vector).pics = p := by
  rw [enterHandler]
  split <;> rfl

section Steps

variable {networkEnabled : Bool} {isrTable : Nat → Isr} {s s' : Interrupts} {e : LineEvent}

/-- A handler begins. It ends what is in service, if that is no more than
the line of its vector. -/
theorem enterHandler_tended {p : Pair} {vector : Byte} (hready : p.Ready slaveLine 0x20 0x28)
    (hmaster : p.master.AtMostOne) (hslave : p.slave.AtMostOne)
    (hlow : vector.toNat < 0x20 → p.Idle)
    (hslaveOnly : (∀ n, p.slave.isr n = false) ∨ 0x28 ≤ vector.toNat ∧ vector.toNat < 0x30) :
    Tended (enterHandler (initHandlers networkEnabled isrTable) p vector) := by
  refine ⟨by rw [enterHandler_pics]; exact hready, ?_⟩
  rw [enterHandler]
  cases houtbs : (initHandlers networkEnabled isrTable vector.toNat).outbs vector.toNat with
  | none => trivial
  | some outbs =>
      rcases outbs_initHandlers houtbs with ⟨rfl, hrange⟩ | ⟨rfl, hrange⟩ | rfl
      · refine ⟨⟨fun out hout => ?_, hmaster, hslave, .inl List.mem_cons_self,
          .inr (hslaveOnly.resolve_right hrange)⟩, by decide⟩
        exact .inl (List.mem_singleton.mp hout)
      · obtain ⟨hm, hs⟩ := hlow hrange
        exact ⟨⟨fun out hout => absurd hout List.not_mem_nil, hmaster, hslave, .inr hm, .inr hs⟩,
          by decide⟩
      · refine ⟨⟨fun out hout => ?_, hmaster, hslave, .inl List.mem_cons_self,
          .inl (List.mem_cons_of_mem _ List.mem_cons_self)⟩, by decide⟩
        exact (List.mem_cons.mp hout).imp_right List.mem_singleton.mp

theorem accept_tended {p : Pair} {l : IrqLine} (h : p.Taken slaveLine 0x20 0x28 l) :
    Tended (enterHandler (initHandlers networkEnabled isrTable) p.acknowledge.2
      p.acknowledge.1) := by
  have hvector : p.acknowledge.1.toNat = _ :=
    (congrArg BitVec.toNat h.vector).trans (lineVector_toNat l)
  cases l with
  | master n =>
      dsimp only at hvector
      exact enterHandler_tended h.ready h.master h.slave (fun hlow => by omega)
        (.inl (h.slaveOnly n rfl))
  | slave n =>
      dsimp only at hvector
      exact enterHandler_tended h.ready h.master h.slave (fun hlow => by omega)
        (.inr ⟨by omega, by omega⟩)

theorem Tended.step (h : Tended s)
    (hst : interruptsStep (initHandlers networkEnabled isrTable) s e = .ok s') : Tended s' := by
  obtain ⟨pics, activity⟩ := s
  obtain ⟨hready, hactivity⟩ := h
  rcases interruptsStep_cases hst with ⟨l, rfl, hl, rfl⟩ | ⟨rfl, rfl, rfl⟩ | ⟨rfl, rfl, rfl⟩
    | ⟨vector, rfl, rfl, rfl⟩ | ⟨vector, out, outbs, rfl, rfl, rfl⟩ | ⟨vector, rfl, rfl, rfl⟩
    | ⟨vector, outbs, rfl, rfl, rfl⟩
  · refine ⟨hready.raise hl, ?_⟩
    have hidle : pics.Idle → (pics.raise slaveLine l).Idle := by
      obtain ⟨hmaster, hslave⟩ : (pics.raise slaveLine l).master.isr = pics.master.isr
          ∧ (pics.raise slaveLine l).slave.isr = pics.slave.isr := pics.raise_isr l
      rw [Pair.Idle, Pair.Idle, hmaster, hslave]
      exact id
    cases activity with
    | starting => exact hidle hactivity
    | process => exact hidle hactivity
    | handler vector outbs => exact ⟨hactivity.1.raise l, hactivity.2⟩
    | halted => trivial
  · exact ⟨hready, hactivity⟩
  · rcases hready.acknowledge hactivity with ⟨l, hl⟩ | ⟨hack, -⟩
    · exact accept_tended hl
    · rw [hack]
      exact enterHandler_tended hready (.inl hactivity.1) (.inl hactivity.2)
        (fun _ => hactivity) (.inl hactivity.2)
  · exact enterHandler_tended hready (.inl hactivity.1) (.inl hactivity.2)
      (fun _ => hactivity) (.inl hactivity.2)
  · obtain ⟨hsettling, hlen⟩ := hactivity
    refine ⟨?_, hsettling.outb, Nat.le_of_succ_le hlen⟩
    rcases hsettling.eois out List.mem_cons_self with rfl | rfl
    · exact hready.endMaster
    · exact hready.endSlave
  · exact ⟨hready, hactivity.1.idle⟩
  · exact ⟨hready, trivial⟩

/-- A request comes by an edge and goes by being served. -/
theorem Tended.ledger (h : Tended s)
    (hst : interruptsStep (initHandlers networkEnabled isrTable) s e = .ok s') {l : IrqLine}
    (hl : l ≠ .master slaveLine) :
    (isEdge l (s, e)).toNat + (s.pics.requested l).toNat
      = (isServed l (s, e)).toNat + (s'.pics.requested l).toNat := by
  obtain ⟨pics, activity⟩ := s
  obtain ⟨hready, hactivity⟩ := h
  rcases interruptsStep_cases hst with ⟨l', rfl, hl', rfl⟩ | ⟨rfl, rfl, rfl⟩ | ⟨rfl, rfl, rfl⟩
    | ⟨vector, rfl, rfl, rfl⟩ | ⟨vector, out, outbs, rfl, rfl, rfl⟩ | ⟨vector, rfl, rfl, rfl⟩
    | ⟨vector, outbs, rfl, rfl, rfl⟩
  · change _ = _ + ((pics.raise slaveLine l').requested l).toNat
    rw [Pair.requested_raise hl]
    by_cases hsame : l = l'
    · subst hsame
      cases hreq : pics.requested l <;> simp [isEdge, isServed, hreq]
    · have hne : ¬l' = l := fun hc => hsame hc.symm
      simp [isEdge, isServed, hsame, hne]
  · rfl
  · rw [enterHandler_pics]
    rcases hready.acknowledge hactivity with ⟨l', htaken⟩ | ⟨hack, hnone⟩
    · have hiff : pics.acknowledge.1 = lineVector l ↔ l = l' :=
        ⟨fun heq => lineVector_inj (heq.symm.trans htaken.vector),
          fun heq => htaken.vector.trans (by rw [heq])⟩
      rw [htaken.requested l hl]
      by_cases hsame : l = l'
      · subst hsame
        simp [isEdge, isServed, hiff, htaken.was]
      · simp [isEdge, isServed, hiff, hsame]
    · rw [hack]
      simp [isEdge, isServed, hnone l]
  · rw [enterHandler_pics]
    rfl
  · have hsame : (picOutb pics out).requested l = pics.requested l := by
      rcases hactivity.1.eois out List.mem_cons_self with rfl | rfl
      · rw [picOutb_master]
        cases l with
        | master n => exact congrFun pics.master.endInterrupt_irr n
        | slave n => rfl
      · rw [picOutb_slave, Pair.requested_relay hl]
        cases l with
        | master n => rfl
        | slave n => exact congrFun pics.slave.endInterrupt_irr n
    rw [hsame]
    rfl
  · rfl
  · rfl

theorem enterHandler_activity {p : Pair} {vector : Byte} :
    (enterHandler (initHandlers networkEnabled isrTable) p vector).activity = .halted
      ↔ ¬Handled networkEnabled vector := by
  have hnone := @outbs_eq_none networkEnabled isrTable vector
  rw [← hnone, enterHandler]
  split
  · next outbs houtbs =>
      rw [houtbs]
      exact iff_of_false nofun nofun
  · next houtbs => exact iff_of_true rfl houtbs

/-- The kernel is halted by a step that it does not come back from. -/
theorem halted_step (hst : interruptsStep (initHandlers networkEnabled isrTable) s e = .ok s') :
    s'.activity = .halted ↔ s.activity = .halted ∨ Stops networkEnabled (s, e) := by
  obtain ⟨pics, activity⟩ := s
  rcases interruptsStep_cases hst with ⟨l, rfl, hl, rfl⟩ | ⟨rfl, rfl, rfl⟩ | ⟨rfl, rfl, rfl⟩
    | ⟨vector, rfl, rfl, rfl⟩ | ⟨vector, out, outbs, rfl, rfl, rfl⟩ | ⟨vector, rfl, rfl, rfl⟩
    | ⟨vector, outbs, rfl, rfl, rfl⟩
  · exact (or_iff_left nofun).symm
  · exact iff_of_false nofun (not_or_intro nofun nofun)
  · exact enterHandler_activity.trans (or_iff_right nofun).symm
  · exact enterHandler_activity.trans (or_iff_right nofun).symm
  · exact iff_of_false nofun (not_or_intro nofun nofun)
  · exact iff_of_false nofun (not_or_intro nofun nofun)
  · exact iff_of_true rfl (.inr trivial)

end Steps

/-! ## Whole runs -/

section Runs

variable {networkEnabled : Bool} {isrTable : Nat → Isr} {s s' : Interrupts}
  {tr : List (Interrupts × LineEvent)}

theorem Tended.run (h : Steps (interruptsStep (initHandlers networkEnabled isrTable)) s tr s')
    (hs : Tended s) : Tended s' :=
  h.inv (fun _ _ _ ht hst => ht.step hst) hs

theorem Tended.ledger_run
    (h : Steps (interruptsStep (initHandlers networkEnabled isrTable)) s tr s') (hs : Tended s)
    {l : IrqLine} (hl : l ≠ .master slaveLine) :
    tr.countP (isEdge l) + (s.pics.requested l).toNat
      = tr.countP (isServed l) + (s'.pics.requested l).toNat := by
  induction h with
  | refl => rfl
  | @tail tr t t' e hpre hst ih =>
      have hstep := (Tended.run hpre hs).ledger hst hl
      have hone : ∀ q : Interrupts × LineEvent → Bool,
          [(t, e)].countP q = (q (t, e)).toNat := fun q => by
        cases hq : q (t, e) <;> simp [hq]
      rw [List.countP_append, List.countP_append, hone, hone]
      omega

theorem halted_run (h : Steps (interruptsStep (initHandlers networkEnabled isrTable)) s tr s')
    (hs : s.activity ≠ .halted) :
    s'.activity = .halted ↔ ∃ x ∈ tr, Stops networkEnabled x := by
  induction h with
  | refl => exact iff_of_false hs fun ⟨x, hx, _⟩ => absurd hx List.not_mem_nil
  | @tail tr t t' e _ hst ih =>
      rw [halted_step hst, ih]
      simp only [List.mem_append, List.mem_singleton, or_and_right, exists_or, exists_eq_left]

end Runs

theorem Settling.foldl : ∀ {outbs : List (Nat × Byte)} {p : Pair}, Settling p outbs →
    (outbs.foldl picOutb p).Idle
  | [], _, h => h.idle
  | _ :: _, _, h => h.outb.foldl

/-- However the devices raise their lines, handlers run and processes trap:
the edges that make a request are as many as the calls of the handler of the
line for one, and one more while there is a request that is not served. While
a process runs nothing is in service, so the processor is asked to accept
whenever a line is requested, and it accepts the line that comes first, or is
given the vector of the mystery handler if there is none. What is left of a
handler ends the services. The kernel halts exactly by a panic, or by a
vector without a handler. -/
theorem lines_served (networkEnabled : Bool) (isrTable : Nat → Isr) {p : Pair} (hidle : p.Idle)
    {tr : List (Interrupts × LineEvent)} {s : Interrupts}
    (h : Steps (interruptsStep (initHandlers networkEnabled isrTable))
      ⟨initPic p, .starting⟩ tr s) :
    (∀ l, l ≠ .master slaveLine →
        tr.countP (isEdge l) = tr.countP (isServed l) + (s.pics.requested l).toNat)
      ∧ (s.activity = .process → s.pics.Idle
        ∧ ((∃ l, s.pics.requested l = true) → s.pics.master.request.isSome = true))
      ∧ (∀ x ∈ tr, x.2 = .accept →
        (∃ l, isServed l x = true ∧ ∀ l', l' ≠ .master slaveLine →
          x.1.pics.requested l' = true → l.rank slaveLine ≤ l'.rank slaveLine)
        ∨ x.1.pics.acknowledge = (0x27, x.1.pics) ∧ ∀ l, x.1.pics.requested l = false)
      ∧ (∀ vector outbs, s.activity = .handler vector outbs →
        outbs.length ≤ 2 ∧ (outbs.foldl picOutb s.pics).Idle)
      ∧ (s.activity = .halted ↔ ∃ x ∈ tr, Stops networkEnabled x) := by
  have hready₀ := initPic_ready p
  have hidle₀ := initPic_idle hidle
  have hnone := initPic_requested p
  generalize initPic p = q at h hready₀ hidle₀ hnone
  have hstart : Tended ⟨q, .starting⟩ := ⟨hready₀, hidle₀⟩
  obtain ⟨hready, hactivity⟩ := Tended.run h hstart
  refine ⟨fun l hl => ?_, fun hprocess => ?_, fun x hx haccept => ?_, fun vector outbs hh => ?_,
    halted_run h nofun⟩
  · have hledger := Tended.ledger_run h hstart hl
    rw [hnone l] at hledger
    exact hledger
  · rw [hprocess] at hactivity
    refine ⟨hactivity, fun ⟨l, hl⟩ => ?_⟩
    by_contra hquiet
    have hoff := hready.requested_of_none hactivity (Option.not_isSome_iff_eq_none.mp hquiet) l
    exact Bool.false_ne_true (hoff.symm.trans hl)
  · obtain ⟨tr₁, tr₂, rfl⟩ := List.append_of_mem hx
    obtain ⟨⟨pics, activity⟩, e⟩ := x
    obtain ⟨hbefore, t', hst, _⟩ := h.split
    obtain ⟨hready, hactivity⟩ := Tended.run hbefore hstart
    obtain rfl : e = .accept := haccept
    rcases interruptsStep_cases hst with ⟨_, he, _⟩ | ⟨he, _⟩ | ⟨_, rfl, _⟩ | ⟨_, he, _⟩
      | ⟨_, _, _, he, _⟩ | ⟨_, he, _⟩ | ⟨_, _, he, _⟩
    all_goals first | cases he | skip
    refine (hready.acknowledge hactivity).imp_left fun ⟨l, hl⟩ => ⟨l, ?_, hl.first⟩
    simp [isServed, hl.was, hl.vector, lineVector]
  · rw [hh] at hactivity
    exact ⟨hactivity.2, hactivity.1.foldl⟩

/-- Two controllers as the power left them. -/
def resetPics : Pair :=
  ⟨⟨fun _ => false, fun _ => false, fun _ => false, 0, 0, 0, []⟩,
    ⟨fun _ => false, fun _ => false, fun _ => false, 0, 0, 0, []⟩⟩

/-- The network card raises its line, and then the clock does. The clock is
served, and the card is still waiting. -/
theorem lines_served_clock : ∃ tr s,
    Steps (interruptsStep (initHandlers true fun _ => .defaultUnexpected))
        ⟨initPic resetPics, .starting⟩ tr s
      ∧ tr.map Prod.snd = [.raise (.slave 3), .raise (.master 0), .dispatch, .accept, .outb, .iret]
      ∧ tr.countP (isEdge (.slave 3))
        = tr.countP (isServed (.slave 3)) + (s.pics.requested (.slave 3)).toNat
      ∧ s.pics.requested (.slave 3) = true := by
  have hrun : okAnd (run (interruptsStep (initHandlers true fun _ => .defaultUnexpected))
      ⟨initPic resetPics, .starting⟩
      [.raise (.slave 3), .raise (.master 0), .dispatch, .accept, .outb, .iret])
      (fun s => s.pics.requested (.slave 3)) = true := by decide +kernel
  obtain ⟨tr, s, h, htr, htest⟩ := steps_of_test hrun
  exact ⟨tr, s, h, htr, (lines_served true _ ⟨fun _ => rfl, fun _ => rfl⟩ h).1 _ nofun, htest⟩

end SpKernel
