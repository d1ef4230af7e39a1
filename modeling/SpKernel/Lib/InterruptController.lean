import Mathlib

/-!
# Interrupt controllers

A controller with eight lines, line 0 first. It keeps a request for every
line that has seen an edge, and asks for the first of them that is not
masked to be served, unless a line at least as high is in service. A
second controller asks through one of the lines of the first: a rising
edge of its output is a request there.

Two things make the pair serve every request. A line that is asked for
stays asked for until it is taken (`Controller.request_raise`), and the
line between the two is requested exactly while the second asks
(`Pair.Linked`), which everything that happens to the pair keeps.

`Ready` is the invariant of a pair that is set up, and each of the things
that can happen has a lemma: an edge (`Pair.Ready.raise`), an end of
service at either controller (`Pair.Ready.endMaster`,
`Pair.Ready.endSlave`), and an interrupt that is taken
(`Pair.Ready.acknowledge`), which says which line was taken, that it is
the first in the order of the lines, and that exactly its request is
gone. With nothing in service the pair asks whenever a device does
(`Pair.Ready.requested_of_none`).

The controllers are programmed by command and data bytes (`writeCommand`,
`writeData`), of which the ones for the initialisation and for the end of
a service are modelled.
-/

namespace SpKernel.Lib

/-- The words of an initialisation after the first. -/
inductive InitWord where
  | base
  | cascade
  | mode
  deriving DecidableEq

/-- `mode` 1 is what the rest of this file is about: the fully nested mode,
in which a service ends by a command. -/
structure Controller where
  irr : Fin 8 → Bool
  isr : Fin 8 → Bool
  imr : Fin 8 → Bool
  base : BitVec 8
  cascade : BitVec 8
  mode : BitVec 8
  awaits : List InitWord

namespace Controller

/-- The line that the controller asks to have served. -/
def request (c : Controller) : Option (Fin 8) :=
  match Fin.find? fun n => c.irr n && !c.imr n with
  | none => none
  | some n => if ∃ m ≤ n, c.isr m = true then none else some n

/-- An edge on a line. -/
def raise (c : Controller) (n : Fin 8) : Controller :=
  { c with irr := Function.update c.irr n true }

/-- The line is taken into service. -/
def take (c : Controller) (n : Fin 8) : Controller :=
  { c with irr := Function.update c.irr n false, isr := Function.update c.isr n true }

/-- The command that ends the service of the first line in service. -/
def endInterrupt (c : Controller) : Controller :=
  match Fin.find? c.isr with
  | none => c
  | some n => { c with isr := Function.update c.isr n false }

/-- The first word of an initialisation: requests and masks are forgotten. -/
def restart (c : Controller) (value : BitVec 8) : Controller :=
  { c with
    irr := fun _ => false
    imr := fun _ => false
    mode := if value.getLsbD 0 then c.mode else 0
    awaits := .base :: ((if value.getLsbD 1 then [] else [.cascade])
      ++ if value.getLsbD 0 then [.mode] else []) }

/-- A write to the command port. Of the commands there is the end of an
interrupt without a line. -/
def writeCommand (c : Controller) (value : BitVec 8) : Controller :=
  if value.getLsbD 4 then c.restart value
  else if value &&& 0xF8 = 0x20 then c.endInterrupt
  else c

/-- A write to the data port: the next word of an initialisation, or masks. -/
def writeData (c : Controller) (value : BitVec 8) : Controller :=
  match c.awaits with
  | [] => { c with imr := fun n => value.getLsbD n }
  | .base :: rest => { c with base := value &&& 0xF8, awaits := rest }
  | .cascade :: rest => { c with cascade := value, awaits := rest }
  | .mode :: rest => { c with mode := value, awaits := rest }

/-! ## What is asked for -/

theorem request_eq_some {c : Controller} {n : Fin 8} :
    c.request = some n ↔ c.irr n = true ∧ c.imr n = false
      ∧ (∀ m < n, c.irr m = true → c.imr m = true) ∧ ∀ m ≤ n, c.isr m = false := by
  have hfind : ∀ n, (Fin.find? fun n => c.irr n && !c.imr n) = some n
      ↔ c.irr n = true ∧ c.imr n = false ∧ ∀ m < n, c.irr m = true → c.imr m = true := by
    intro n
    rw [Fin.find?_eq_some_iff]
    simp [and_assoc]
  rw [request]
  cases hf : Fin.find? fun n => c.irr n && !c.imr n with
  | none =>
      refine ⟨nofun, fun ⟨hirr, himr, hfirst, _⟩ => ?_⟩
      rw [(hfind n).mpr ⟨hirr, himr, hfirst⟩] at hf
      cases hf
  | some m =>
      have hm := (hfind m).mp hf
      dsimp only
      constructor
      · intro h
        by_cases hserved : ∃ k ≤ m, c.isr k = true
        · rw [if_pos hserved] at h
          cases h
        · rw [if_neg hserved] at h
          cases h
          exact ⟨hm.1, hm.2.1, hm.2.2, fun k hk => Bool.eq_false_of_not_eq_true
            fun hon => hserved ⟨k, hk, hon⟩⟩
      · rintro ⟨hirr, himr, hfirst, hisr⟩
        have hsame := (hfind n).mpr ⟨hirr, himr, hfirst⟩
        obtain rfl := Option.some.inj (hf.symm.trans hsame)
        refine if_neg fun ⟨k, hk, hon⟩ => ?_
        rw [hisr k hk] at hon
        cases hon

/-- A controller asks for something exactly if a line that is not masked has
a request and nothing at least as high is in service. -/
theorem request_isSome {c : Controller} :
    c.request.isSome = true ↔ ∃ n, c.irr n = true ∧ c.imr n = false ∧ ∀ m ≤ n, c.isr m = false := by
  constructor
  · intro h
    obtain ⟨n, hn⟩ := Option.isSome_iff_exists.mp h
    obtain ⟨hirr, himr, _, hisr⟩ := request_eq_some.mp hn
    exact ⟨n, hirr, himr, hisr⟩
  · rintro ⟨n, hirr, himr, hisr⟩
    have hsome : (Fin.find? fun n => c.irr n && !c.imr n).isSome = true :=
      Fin.isSome_find?_iff.mpr ⟨n, by rw [hirr, himr]; rfl⟩
    obtain ⟨m, hm⟩ := Option.isSome_iff_exists.mp hsome
    have hfirst := Fin.find?_eq_some_iff.mp hm
    have hle : m ≤ n := by
      by_contra hlt
      have hoff := hfirst.2 n (not_le.mp hlt)
      rw [hirr, himr] at hoff
      cases hoff
    rw [request, hm]
    have hfree : ¬∃ k ≤ m, c.isr k = true := fun ⟨k, hk, hon⟩ => by
      rw [hisr k (hk.trans hle)] at hon
      cases hon
    exact congrArg Option.isSome (if_neg hfree)

/-- A request does not make the controller stop asking. -/
theorem request_raise {c : Controller} (n : Fin 8) (h : c.request.isSome = true) :
    (c.raise n).request.isSome = true := by
  obtain ⟨m, hirr, himr, hisr⟩ := request_isSome.mp h
  refine request_isSome.mpr ⟨m, ?_, himr, hisr⟩
  change Function.update c.irr n true m = true
  rw [Function.update_apply]
  split
  · rfl
  · exact hirr

theorem request_endInterrupt {c : Controller} (h : c.request.isSome = true) :
    c.endInterrupt.request.isSome = true := by
  obtain ⟨m, hirr, himr, hisr⟩ := request_isSome.mp h
  rw [endInterrupt]
  cases Fin.find? c.isr with
  | none => exact h
  | some k =>
      refine request_isSome.mpr ⟨m, hirr, himr, fun j hj => ?_⟩
      change Function.update c.isr k false j = false
      rw [Function.update_apply, hisr j hj, ite_self]

/-- What is taken is the first: nothing behind it is asked for until its
service ends. -/
theorem request_take {c : Controller} {n : Fin 8} (h : c.request = some n) :
    (c.take n).request = none := by
  obtain ⟨_, _, hfirst, _⟩ := request_eq_some.mp h
  refine Option.not_isSome_iff_eq_none.mp fun hsome => ?_
  obtain ⟨m, hirr, himr, hisr⟩ := request_isSome.mp hsome
  change Function.update c.irr n false m = true at hirr
  change c.imr m = false at himr
  have hne : m ≠ n := fun hm => by
    rw [hm, Function.update_self] at hirr
    cases hirr
  rw [Function.update_of_ne hne] at hirr
  have hbehind : n ≤ m := by
    by_contra hlt
    rw [hfirst m (not_le.mp hlt) hirr] at himr
    cases himr
  have hserved := hisr n hbehind
  change Function.update c.isr n true n = false at hserved
  rw [Function.update_self] at hserved
  cases hserved

theorem request_of_irr {c : Controller} (h : ∀ n, c.irr n = false) : c.request = none := by
  refine Option.not_isSome_iff_eq_none.mp fun hsome => ?_
  obtain ⟨n, hirr, _⟩ := request_isSome.mp hsome
  rw [h n] at hirr
  cases hirr

/-- With nothing masked and nothing in service it is the first request. -/
theorem request_idle {c : Controller} (hmask : ∀ n, c.imr n = false)
    (hidle : ∀ n, c.isr n = false) {n : Fin 8} :
    c.request = some n ↔ c.irr n = true ∧ ∀ m < n, c.irr m = false := by
  rw [request_eq_some]
  constructor
  · rintro ⟨hirr, _, hfirst, _⟩
    refine ⟨hirr, fun m hm => Bool.eq_false_of_not_eq_true fun hon => ?_⟩
    have hmasked := hfirst m hm hon
    rw [hmask m] at hmasked
    cases hmasked
  · rintro ⟨hirr, hfirst⟩
    refine ⟨hirr, hmask n, fun m hm hon => ?_, fun m _ => hidle m⟩
    rw [hfirst m hm] at hon
    cases hon

/-! ## What is in service -/

/-- Nothing is in service, or one line is. -/
def AtMostOne (c : Controller) : Prop :=
  (∀ n, c.isr n = false) ∨ ∃ n, c.isr = Function.update (fun _ => false) n true

theorem endInterrupt_atMostOne {c : Controller} (h : c.AtMostOne) (n : Fin 8) :
    c.endInterrupt.isr n = false := by
  rw [endInterrupt]
  rcases h with hnone | ⟨k, hk⟩
  · rw [Fin.find?_eq_none_iff.mpr hnone]
    exact hnone n
  · have hfind : Fin.find? c.isr = some k := by
      rw [Fin.find?_eq_some_iff, hk]
      exact ⟨Function.update_self .., fun j hj => Function.update_of_ne (ne_of_lt hj) ..⟩
    rw [hfind]
    change Function.update c.isr k false n = false
    rw [Function.update_apply]
    split
    · rfl
    · next hne => rw [hk, Function.update_of_ne hne]

theorem take_atMostOne {c : Controller} (h : ∀ n, c.isr n = false) (n : Fin 8) :
    (c.take n).AtMostOne := by
  refine .inr ⟨n, ?_⟩
  change Function.update c.isr n true = _
  rw [show c.isr = fun _ => false from funext h]

@[simp] theorem endInterrupt_irr (c : Controller) : c.endInterrupt.irr = c.irr := by
  rw [endInterrupt]
  split <;> rfl

end Controller

/-! ## Two controllers -/

/-- A line of one of two controllers. -/
inductive IrqLine where
  | master (n : Fin 8)
  | slave (n : Fin 8)
  deriving DecidableEq

namespace IrqLine

/-- The vector of a line, from the bases of the controllers. -/
def vector (b₁ b₂ : BitVec 8) : IrqLine → BitVec 8
  | .master n => b₁ + BitVec.ofNat 8 n
  | .slave n => b₂ + BitVec.ofNat 8 n

/-- The place of a line in the order of service, when the slave has one of
the lines of the master. -/
def rank (link : Fin 8) : IrqLine → Nat
  | .master n => if n ≤ link then n else n + 7
  | .slave n => link + n

/-- A change at one line of a controller, by the lines of the pair. -/
theorem update_place {place : Fin 8 → IrqLine} (hplace : Function.Injective place)
    (f : Fin 8 → Bool) (n m : Fin 8) (v : Bool) :
    Function.update f n v m = if place m = place n then v else f m := by
  rw [Function.update_apply]
  exact if_congr hplace.eq_iff.symm rfl rfl

end IrqLine

/-- Two controllers, of which the slave asks through a line of the master. -/
structure Pair where
  master : Controller
  slave : Controller

namespace Pair

/-- A change, after which the output of the slave may have risen. -/
def relay (link : Fin 8) (before after : Pair) : Pair :=
  if before.slave.request.isSome = false ∧ after.slave.request.isSome = true then
    { after with master := after.master.raise link }
  else after

/-- An edge on a line. -/
def raise (link : Fin 8) (p : Pair) : IrqLine → Pair
  | .master n => { p with master := p.master.raise n }
  | .slave n => p.relay link { p with slave := p.slave.raise n }

def requested (p : Pair) : IrqLine → Bool
  | .master n => p.master.irr n
  | .slave n => p.slave.irr n

/-- The cycle in which the processor is given a vector. A controller that is
made to answer but asks for nothing gives the vector of its last line. -/
def acknowledge (p : Pair) : BitVec 8 × Pair :=
  match p.master.request with
  | none => (p.master.base + 7, p)
  | some n =>
      let taken := { p with master := p.master.take n }
      if p.master.cascade.getLsbD n = false then (p.master.base + BitVec.ofNat 8 n, taken)
      else if p.slave.cascade ≠ BitVec.ofNat 8 n then
        -- no one answers
        (0xFF, taken)
      else
        match p.slave.request with
        | none => (p.slave.base + 7, taken)
        | some m => (p.slave.base + BitVec.ofNat 8 m, { taken with slave := p.slave.take m })

variable {link : Fin 8} {b₁ b₂ : BitVec 8} {p : Pair}

/-- The line between the two is requested exactly while the slave asks. -/
def Linked (link : Fin 8) (p : Pair) : Prop :=
  p.master.irr link = p.slave.request.isSome

/-- Both are set up, with nothing masked. -/
structure Ready (link : Fin 8) (b₁ b₂ : BitVec 8) (p : Pair) : Prop where
  masterBase : p.master.base = b₁
  slaveBase : p.slave.base = b₂
  cascade : ∀ n : Fin 8, p.master.cascade.getLsbD n = decide (n = link)
  slaveCascade : p.slave.cascade = BitVec.ofNat 8 link
  masterMask : ∀ n, p.master.imr n = false
  slaveMask : ∀ n, p.slave.imr n = false
  masterAwaits : p.master.awaits = []
  slaveAwaits : p.slave.awaits = []
  linked : p.Linked link

/-- Nothing is in service. -/
def Idle (p : Pair) : Prop :=
  (∀ n, p.master.isr n = false) ∧ ∀ n, p.slave.isr n = false

/-- A change of the slave that keeps it asking if it was. -/
theorem linked_relay {s : Controller} (h : p.Linked link)
    (hkeep : p.slave.request.isSome = true → s.request.isSome = true) :
    (p.relay link { p with slave := s }).Linked link := by
  unfold Linked relay
  cases hbefore : p.slave.request.isSome with
  | true =>
      rw [if_neg (fun hc => by cases hc.1)]
      rw [Linked, hbefore] at h
      exact h.trans (hkeep hbefore).symm
  | false =>
      rw [Linked, hbefore] at h
      cases hafter : s.request.isSome with
      | true =>
          rw [if_pos ⟨rfl, rfl⟩]
          exact (Function.update_self link true p.master.irr).trans hafter.symm
      | false =>
          rw [if_neg (fun hc => by cases hc.2)]
          exact h.trans hafter.symm

/-- `relay` changes no more than the request on the line between the two. -/
theorem relay_master (before after : Pair) : (before.relay link after).slave = after.slave
    ∧ ((before.relay link after).master = after.master
      ∨ (before.relay link after).master = after.master.raise link) := by
  unfold relay
  split
  · exact ⟨rfl, .inr rfl⟩
  · exact ⟨rfl, .inl rfl⟩

theorem relay_isr (before after : Pair) :
    (before.relay link after).master.isr = after.master.isr := by
  obtain ⟨_, h | h⟩ := relay_master before after
  all_goals
    rw [h]
  rfl

theorem requested_relay {before after : Pair} {l : IrqLine} (hl : l ≠ .master link) :
    (before.relay link after).requested l = after.requested l := by
  obtain ⟨hslave, hmaster⟩ := relay_master before after
  cases l with
  | slave n => exact congrArg (fun c : Controller => c.irr n) hslave
  | master n =>
      have hne : n ≠ link := fun hc => hl (by rw [hc])
      rcases hmaster with h | h
      · exact congrArg (fun c : Controller => c.irr n) h
      · exact (congrArg (fun c : Controller => c.irr n) h).trans (Function.update_of_ne hne ..)

/-- A change of the slave in its requests and its services alone. -/
theorem Ready.relay {s : Controller} (h : p.Ready link b₁ b₂)
    (hkeep : p.slave.request.isSome = true → s.request.isSome = true)
    (hbase : s.base = p.slave.base) (hcascade : s.cascade = p.slave.cascade)
    (himr : s.imr = p.slave.imr) (hawaits : s.awaits = p.slave.awaits) :
    (p.relay link { p with slave := s }).Ready link b₁ b₂ := by
  have hlinked := linked_relay h.linked hkeep
  obtain ⟨hslave, hmaster | hmaster⟩ := relay_master p { p with slave := s }
  all_goals
    refine ⟨?_, ?_, ?_, ?_, ?_, ?_, ?_, ?_, hlinked⟩
    · rw [hmaster]
      exact h.masterBase
    · rw [hslave]
      exact hbase.trans h.slaveBase
    · rw [hmaster]
      exact h.cascade
    · rw [hslave]
      exact hcascade.trans h.slaveCascade
    · rw [hmaster]
      exact h.masterMask
    · rw [hslave]
      exact fun n => (congrFun himr n).trans (h.slaveMask n)
    · rw [hmaster]
      exact h.masterAwaits
    · rw [hslave]
      exact hawaits.trans h.slaveAwaits

/-- A change of the master in its services, and in its requests but for the
line between the two. -/
theorem Ready.onMaster {c : Controller} (h : p.Ready link b₁ b₂)
    (hirr : c.irr link = p.master.irr link)
    (hbase : c.base = p.master.base) (hcascade : c.cascade = p.master.cascade)
    (himr : c.imr = p.master.imr) (hawaits : c.awaits = p.master.awaits) :
    ({ p with master := c } : Pair).Ready link b₁ b₂ where
  masterBase := hbase.trans h.masterBase
  slaveBase := h.slaveBase
  cascade n := by rw [hcascade]; exact h.cascade n
  slaveCascade := h.slaveCascade
  masterMask n := (congrFun himr n).trans (h.masterMask n)
  slaveMask := h.slaveMask
  masterAwaits := hawaits.trans h.masterAwaits
  slaveAwaits := h.slaveAwaits
  linked := hirr.trans h.linked

theorem Ready.raise (h : p.Ready link b₁ b₂) {l : IrqLine} (hl : l ≠ .master link) :
    (p.raise link l).Ready link b₁ b₂ := by
  cases l with
  | master n =>
      have hne : link ≠ n := fun hn => hl (by rw [hn])
      exact h.onMaster (Function.update_of_ne hne ..) rfl rfl rfl rfl
  | slave n => exact h.relay (Controller.request_raise n) rfl rfl rfl rfl

theorem requested_raise {l l' : IrqLine} (hl' : l' ≠ .master link) :
    (p.raise link l).requested l' = if l' = l then true else p.requested l' := by
  cases l with
  | master n =>
      cases l' with
      | slave m => exact (if_neg nofun).symm
      | master m =>
          exact IrqLine.update_place (fun _ _ => IrqLine.master.inj) p.master.irr n m true
  | slave n =>
      rw [raise, requested_relay hl']
      cases l' with
      | master m => exact (if_neg nofun).symm
      | slave m =>
          exact IrqLine.update_place (fun _ _ => IrqLine.slave.inj) p.slave.irr n m true

theorem raise_isr (p : Pair) (l : IrqLine) : (p.raise link l).master.isr = p.master.isr
    ∧ (p.raise link l).slave.isr = p.slave.isr := by
  cases l with
  | master n => exact ⟨rfl, rfl⟩
  | slave n =>
      refine ⟨relay_isr .., ?_⟩
      rw [raise, (relay_master _ _).1]
      rfl

theorem Ready.endMaster (h : p.Ready link b₁ b₂) :
    ({ p with master := p.master.endInterrupt } : Pair).Ready link b₁ b₂ := by
  refine h.onMaster (congrFun p.master.endInterrupt_irr link) ?_ ?_ ?_ ?_
  all_goals
    rw [Controller.endInterrupt]
    split <;> rfl

theorem Ready.endSlave (h : p.Ready link b₁ b₂) :
    (p.relay link { p with slave := p.slave.endInterrupt }).Ready link b₁ b₂ := by
  refine h.relay Controller.request_endInterrupt ?_ ?_ ?_ ?_
  all_goals
    rw [Controller.endInterrupt]
    split <;> rfl

/-! ### The cycle in which a vector is given -/

/-- The processor is given the vector of the first of the lines that are
requested, and it is these services that begin. -/
structure Taken (link : Fin 8) (b₁ b₂ : BitVec 8) (p : Pair) (l : IrqLine) : Prop where
  device : l ≠ .master link
  was : p.requested l = true
  vector : p.acknowledge.1 = l.vector b₁ b₂
  first : ∀ l', l' ≠ .master link → p.requested l' = true → l.rank link ≤ l'.rank link
  ready : p.acknowledge.2.Ready link b₁ b₂
  requested : ∀ l', l' ≠ .master link →
    p.acknowledge.2.requested l' = if l' = l then false else p.requested l'
  master : p.acknowledge.2.master.AtMostOne
  slave : p.acknowledge.2.slave.AtMostOne
  slaveOnly : ∀ n, l = .master n → ∀ m, p.acknowledge.2.slave.isr m = false

theorem Ready.taken_master (h : p.Ready link b₁ b₂) (hidle : p.Idle) {n : Fin 8} (hn : n ≠ link)
    (hreq : p.master.request = some n) : p.Taken link b₁ b₂ (.master n) := by
  obtain ⟨hirr, hfirst⟩ := (Controller.request_idle h.masterMask hidle.1).mp hreq
  have hcascade : p.master.cascade.getLsbD n = false := by
    rw [h.cascade]
    exact decide_eq_false hn
  have hack : p.acknowledge
      = (p.master.base + BitVec.ofNat 8 n, { p with master := p.master.take n }) := by
    rw [acknowledge, hreq]
    exact if_pos hcascade
  refine ⟨fun hc => hn (IrqLine.master.inj hc), hirr, ?_, ?_, ?_, ?_, ?_, ?_, ?_⟩
  · rw [hack, h.masterBase]
    rfl
  · rintro (m | m) hdevice hm
    · have hle : n ≤ m := by
        by_contra hlt
        exact Bool.false_ne_true ((hfirst m (not_le.mp hlt)).symm.trans hm)
      have hne : m ≠ link := fun hc => hdevice (by rw [hc])
      simp only [IrqLine.rank]
      split <;> split <;> omega
    · -- the slave asks through its line, which comes behind
      have hasks : p.slave.request.isSome = true :=
        Controller.request_isSome.mpr ⟨m, hm, h.slaveMask m, fun k _ => hidle.2 k⟩
      have hlink : p.master.irr link = true := h.linked.trans hasks
      have hlt : n < link := by
        by_contra hge
        have hlt : link < n := lt_of_le_of_ne (not_lt.mp hge) (Ne.symm hn)
        exact Bool.false_ne_true ((hfirst link hlt).symm.trans hlink)
      simp only [IrqLine.rank]
      split <;> omega
  · rw [hack]
    exact h.onMaster (Function.update_of_ne (Ne.symm hn) ..) rfl rfl rfl rfl
  · rintro (m | m) _
    · rw [hack]
      exact IrqLine.update_place (fun _ _ => IrqLine.master.inj) p.master.irr n m false
    · rw [hack, if_neg nofun]
      rfl
  · rw [hack]
    exact Controller.take_atMostOne hidle.1 n
  · rw [hack]
    exact .inl hidle.2
  · intro _ _ m
    rw [hack]
    exact hidle.2 m

theorem Ready.taken_slave (h : p.Ready link b₁ b₂) (hidle : p.Idle)
    (hreq : p.master.request = some link) :
    ∃ m, p.slave.request = some m ∧ p.Taken link b₁ b₂ (.slave m) := by
  obtain ⟨hirr, hfirst⟩ := (Controller.request_idle h.masterMask hidle.1).mp hreq
  obtain ⟨m, hm⟩ := Option.isSome_iff_exists.mp (h.linked.symm.trans hirr)
  refine ⟨m, hm, ?_⟩
  obtain ⟨hirr', hfirst'⟩ := (Controller.request_idle h.slaveMask hidle.2).mp hm
  have hcascade : p.master.cascade.getLsbD link = true := by
    rw [h.cascade]
    exact decide_eq_true rfl
  have hack : p.acknowledge = (p.slave.base + BitVec.ofNat 8 m,
      ⟨p.master.take link, p.slave.take m⟩) := by
    rw [acknowledge, hreq]
    dsimp only
    rw [if_neg (by rw [hcascade]; nofun), if_neg (fun hc => hc h.slaveCascade), hm]
  refine ⟨nofun, hirr', ?_, ?_, ?_, ?_, ?_, ?_, ?_⟩
  · rw [hack, h.slaveBase]
    rfl
  · rintro (k | k) hdevice hk
    · have hle : link ≤ k := by
        by_contra hlt
        exact Bool.false_ne_true ((hfirst k (not_le.mp hlt)).symm.trans hk)
      have hne : k ≠ link := fun hc => hdevice (by rw [hc])
      simp only [IrqLine.rank]
      split <;> omega
    · have hle : m ≤ k := by
        by_contra hlt
        exact Bool.false_ne_true ((hfirst' k (not_le.mp hlt)).symm.trans hk)
      simp only [IrqLine.rank]
      omega
  · rw [hack]
    refine ⟨h.masterBase, h.slaveBase, h.cascade, h.slaveCascade, h.masterMask, h.slaveMask,
      h.masterAwaits, h.slaveAwaits, ?_⟩
    -- neither side asks
    change Function.update p.master.irr link false link = (p.slave.take m).request.isSome
    rw [Function.update_self, Controller.request_take hm]
    rfl
  · rintro (k | k) hdevice
    · have hne : k ≠ link := fun hc => hdevice (by rw [hc])
      rw [hack, if_neg nofun]
      exact Function.update_of_ne hne ..
    · rw [hack]
      exact IrqLine.update_place (fun _ _ => IrqLine.slave.inj) p.slave.irr m k false
  · rw [hack]
    exact Controller.take_atMostOne hidle.1 link
  · rw [hack]
    exact Controller.take_atMostOne hidle.2 m
  · intro n hn
    cases hn

/-- With nothing in service the pair asks while a device does. -/
theorem Ready.requested_of_none (h : p.Ready link b₁ b₂) (hidle : p.Idle)
    (hreq : p.master.request = none) (l : IrqLine) : p.requested l = false := by
  have hnone : ∀ n, p.master.irr n = false := fun n => Bool.eq_false_of_not_eq_true fun hon => by
    have hsome := Controller.request_isSome.mpr ⟨n, hon, h.masterMask n, fun k _ => hidle.1 k⟩
    rw [hreq] at hsome
    cases hsome
  cases l with
  | master n => exact hnone n
  | slave n =>
      refine Bool.eq_false_of_not_eq_true fun hon => ?_
      have hasks : p.slave.request.isSome = true :=
        Controller.request_isSome.mpr ⟨n, hon, h.slaveMask n, fun k _ => hidle.2 k⟩
      exact Bool.false_ne_true ((hnone link).symm.trans (h.linked.trans hasks))

/-- With nothing in service the first of the requests is taken, and if there
is none the processor is given the last vector of the master. -/
theorem Ready.acknowledge (h : p.Ready link b₁ b₂) (hidle : p.Idle) :
    (∃ l, p.Taken link b₁ b₂ l)
    ∨ p.acknowledge = (b₁ + 7, p) ∧ ∀ l, p.requested l = false := by
  cases hreq : p.master.request with
  | some n =>
      by_cases hn : n = link
      · subst hn
        obtain ⟨m, _, hm⟩ := h.taken_slave hidle hreq
        exact .inl ⟨_, hm⟩
      · exact .inl ⟨_, h.taken_master hidle hn hreq⟩
  | none =>
      refine .inr ⟨?_, h.requested_of_none hidle hreq⟩
      rw [Pair.acknowledge, hreq, ← h.masterBase]

end Pair

end SpKernel.Lib
