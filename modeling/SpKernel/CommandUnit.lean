import SpKernel.Transmit
import SpKernel.Lib.Trace

/-!
# The driver and the command unit of the card

The card, once started at a block, works through the blocks along their
links, marks each as complete, and goes idle after one with the end-list
bit. Every block of `send_packet` has that bit, so that the card does not
get to a block unless it is started there, and `send_packet` starts it
only if it finds it idle. A frame that is put in a block while the card
is busy is never sent, while `send_packet` returns 0 (`frame_skipped`).
If the card is never found busy, every frame is sent once
(`frames_executed_once`).

A call of `send_packet` is two events, up to the read of the status and
from there on, with steps of the card between them (`net_sendPacket` says
that the two are the call if there are none). Calls that have returned 0
are numbered; `owner` says which call a block was filled by, and
`executed` which ones the card has executed.

`Todo` is the list of the blocks that the card will still come to, and
`KeptUp` the invariant: they are the blocks handed out that are not
complete, in the order of the calls, and each call is in this list or has
been executed, once. Every event keeps it if a call that finds a block
finds the card idle (`step`), and when the card is idle nothing is left
to do (`executed_once`). After `intelNicInit` it holds with the two
blocks of the initialisation to do (`intelNicInit_keptUp`).
-/

namespace SpKernel

open Function (update update_self update_of_ne)
open Lib

abbrev cbCfgCmd : Half := 0x0002#16
abbrev cbIaCmd : Half := 0x0001#16
abbrev cuLpqActive : Byte := 0x80#8
abbrev ruMask : Byte := 0x3C#8

/-- The command unit. -/
inductive Cu where
  | idle
  | active (block : Word)
  /-- a block is complete; the next one, if it was not the end of the list -/
  | leaving (next : Option Word)
  deriving DecidableEq

/-- The status register, with the bits of the receive unit. -/
def Cu.status (cu : Cu) (ru : Byte) : Byte :=
  (if cu = .idle then cuIdle else cuLpqActive) ||| (ru &&& ruMask)

/-- The block the card is at, or will go to. -/
def Cu.upcoming : Cu → Option Word
  | .idle => none
  | .active block => some block
  | .leaving next => next

structure Net where
  driver : Driver
  cu : Cu
  /-- the block of a `send_packet` that has not read the status yet -/
  sending : Option Word
  /-- blocks handed out and not taken back, the oldest first -/
  out : List Word
  owner : Word → Option Nat
  /-- how many calls of `send_packet` have returned 0 -/
  accepted : Nat
  executed : List Nat

inductive NetEvent where
  | send (packet : Packet)
  | finish (ru : Byte)
  | complete (status : Half)
  | advance

/-- `send_packet`, up to the read of the status. -/
def Net.send (s : Net) (p : Packet) : Except Fault Net :=
  match s.sending with
  | some _ => .ok s -- the call before this one has not returned
  | none => do
      let (cb, freed, d) ← fillBlock s.driver p
      .ok { s with
        driver := d
        sending := cb
        out := s.out.filter (fun b => !freed.contains b) ++ cb.toList
        owner := cb.elim s.owner fun cb => update s.owner cb (some s.accepted) }

/-- `send_packet`, from the read of the status on. -/
def Net.finish (s : Net) (ru : Byte) : Net :=
  match s.sending with
  | none => s
  | some cb =>
      { s with
        cu := if startsCu (s.cu.status ru) then .active cb else s.cu
        sending := none
        accepted := s.accepted + 1 }

/-- The card is done with a block. -/
def Net.complete (s : Net) (status : Half) : Net :=
  match s.cu with
  | .active cb =>
      if status &&& cbC = 0#16 then s
      else
        let block := s.driver.nic.cbs cb
        { s with
          driver := { s.driver with nic := { s.driver.nic with
            cbs := update s.driver.nic.cbs cb { block with status := status } } }
          cu := .leaving (if block.command &&& cbEl = 0#16 then some block.link else none)
          executed := s.executed ++ (s.owner cb).toList }
  | _ => s

/-- The card goes on to the next block, or idle. -/
def Net.advance (s : Net) : Net :=
  match s.cu with
  | .leaving none => { s with cu := .idle }
  | .leaving (some cb) => { s with cu := .active cb }
  | _ => s

def netStep (s : Net) : NetEvent → Except Fault Net
  | .send p => s.send p
  | .finish ru => .ok (s.finish ru)
  | .complete status => .ok (s.complete status)
  | .advance => .ok s.advance

/-- `intel_nic_init`, what it does about commands: two blocks, for the
configuration and the address, and the card started at the first. -/
def intelNicInit (nic : Nic) (tcbs : Word → Tcb) (mm : MemMgr) : Except Fault (Net × MemMgr) := do
  let (nic, mm) ← initCbl nic totalCb mm
  let (configureCb, _, nic) ← getNextCb nic
  match configureCb with
  | none => .error .null
  | some configureCb => do
      let (iaCb, _, nic) ← getNextCb (nic.setCommand configureCb cbCfgCmd)
      match iaCb with
      | none => .error .null
      | some iaCb =>
          .ok ({
            driver := ⟨nic.setCommand iaCb (cbIaCmd ||| cbEl), tcbs⟩
            cu := .active configureCb
            sending := none
            out := [configureCb, iaCb]
            owner := fun _ => none
            accepted := 0
            executed := [] }, mm)

/-- A call of `send_packet` that the card does not interrupt. -/
theorem net_sendPacket {s s' : Net} {p : Packet} {ru : Byte} (hnone : s.sending = none)
    (hst : s.send p = .ok s') :
    sendPacket s.driver p (s.cu.status ru) = .ok (
      if s'.sending = none then (-1, none, s'.driver)
      else (0, if startsCu (s.cu.status ru) then s'.sending else none, (s'.finish ru).driver)) := by
  rw [Net.send, hnone] at hst
  obtain ⟨⟨cb, freed, d⟩, hfill, hst⟩ := bind_eq_ok.mp hst
  obtain rfl := Except.ok.inj hst
  rw [sendPacket, hfill, ok_bind]
  cases cb with
  | none => rfl
  | some cb => rfl

/-! ## What the card has yet to do -/

variable {nic nic' : Nic} {out out' : List Word} {n : Nat}

/-- The blocks that the card goes through from the next one on, all of them
handed out and not complete. -/
inductive Todo (nic : Nic) (out : List Word) : Option Word → List Word → Prop
  | stop : Todo nic out none []
  | last {b : Word} : b ∈ out → nic.completed b = false → (nic.cbs b).command &&& cbEl ≠ 0#16 →
      Todo nic out (some b) [b]
  | more {b : Word} {l : List Word} : b ∈ out → nic.completed b = false →
      (nic.cbs b).command &&& cbEl = 0#16 → b ∉ l → Todo nic out (some (nic.link b)) l →
      Todo nic out (some b) (b :: l)

theorem Todo.mem {o : Option Word} {l : List Word} (h : Todo nic out o l) :
    ∀ b ∈ l, b ∈ out ∧ nic.completed b = false := by
  induction h with
  | stop => exact fun b hb => absurd hb List.not_mem_nil
  | last hb hc _ =>
      intro x hx
      rw [List.mem_singleton.mp hx]
      exact ⟨hb, hc⟩
  | more hb hc _ _ _ ih =>
      intro x hx
      rcases List.mem_cons.mp hx with rfl | hx
      · exact ⟨hb, hc⟩
      · exact ih x hx

theorem Todo.congr {o : Option Word} {l : List Word} (h : Todo nic out o l)
    (hcbs : ∀ b ∈ l, nic'.cbs b = nic.cbs b) (hout : ∀ b ∈ l, b ∈ out') :
    Todo nic' out' o l := by
  induction h with
  | stop => exact .stop
  | @last b hb hc hel =>
      have hsame := hcbs b (List.mem_singleton.mpr rfl)
      refine .last (hout b (List.mem_singleton.mpr rfl)) ?_ ?_
      · rw [Nic.completed, hsame]
        exact hc
      · rw [hsame]
        exact hel
  | @more b l hb hc hel hnot _ ih =>
      have hsame := hcbs b (List.mem_cons_self ..)
      refine .more (hout b (List.mem_cons_self ..)) ?_ ?_ hnot ?_
      · rw [Nic.completed, hsame]
        exact hc
      · rw [hsame]
        exact hel
      · have hlink : nic'.link b = nic.link b := by rw [Nic.link, hsame]; rfl
        rw [hlink]
        exact ih (fun x hx => hcbs x (List.mem_cons_of_mem b hx))
          fun x hx => hout x (List.mem_cons_of_mem b hx)

theorem Todo.nil_of_none {l : List Word} (h : Todo nic out none l) : l = [] := by
  cases h
  rfl

/-- A recycling pass leaves the blocks alone that are not complete. -/
theorem recycleLoop_kept {b : Word} : ∀ (fuel : Nat) {nic nic' : Nic} {freed : List Word},
    recycleLoop fuel nic = .ok (freed, nic') → nic.completed b = false →
    nic'.cbs b = nic.cbs b ∧ b ∉ freed
  | 0, _, _, _, h, _ => by cases h
  | fuel + 1, nic, nic', freed, h, hb => by
      rw [recycleLoop] at h
      split at h
      · rename_i hc
        obtain ⟨⟨freed', nic₁⟩, hloop, h⟩ := bind_eq_ok.mp h
        obtain ⟨rfl, rfl⟩ := Prod.mk.inj (Except.ok.inj h)
        have hne : b ≠ nic.cbToCheck := by
          rintro rfl
          rw [hb] at hc
          cases hc
        have hb' : nic.takeBack.completed b = false := by
          rw [takeBack_completed, hb, Bool.and_false]
        obtain ⟨hcbs, hnot⟩ := recycleLoop_kept fuel hloop hb'
        refine ⟨hcbs.trans (update_of_ne hne ..), fun hmem => ?_⟩
        rcases List.mem_cons.mp hmem with he | hmem
        · exact hne he
        · exact hnot hmem
      · obtain ⟨rfl, rfl⟩ := Prod.mk.inj (Except.ok.inj h)
        exact ⟨rfl, List.not_mem_nil⟩

theorem getNextCb_kept {b : Word} {cb : Option Word} {freed : List Word}
    (h : getNextCb nic = .ok (cb, freed, nic')) (hb : nic.completed b = false) :
    nic'.cbs b = nic.cbs b ∧ b ∉ freed := by
  rw [getNextCb] at h
  split at h
  · obtain ⟨⟨freed', nic₁⟩, hloop, h⟩ := bind_eq_ok.mp h
    have hkept := recycleLoop_kept _ hloop hb
    simp only at h
    split at h
    · obtain ⟨-, h⟩ := Prod.mk.inj (Except.ok.inj h)
      obtain ⟨rfl, rfl⟩ := Prod.mk.inj h
      exact hkept
    · obtain ⟨-, h⟩ := Prod.mk.inj (Except.ok.inj h)
      obtain ⟨rfl, rfl⟩ := Prod.mk.inj h
      exact hkept
  · obtain ⟨-, h⟩ := Prod.mk.inj (Except.ok.inj h)
    obtain ⟨rfl, rfl⟩ := Prod.mk.inj h
    exact ⟨rfl, List.not_mem_nil⟩

theorem setCommand_self (a : Word) (command : Half) :
    ((nic.setCommand a command).cbs a).command = command := by
  simp only [Nic.setCommand, update_self]

theorem setCommand_other {a b : Word} (command : Half) (hne : b ≠ a) :
    (nic.setCommand a command).cbs b = nic.cbs b :=
  update_of_ne hne ..

theorem setCommand_link (a : Word) (command : Half) : (nic.setCommand a command).link = nic.link :=
  link_update_status nic.cbs a _ command

theorem setCommand_completed (a : Word) (command : Half) :
    (nic.setCommand a command).completed = nic.completed := by
  funext b
  by_cases hb : b = a
  · subst hb
    simp [Nic.setCommand, Nic.completed]
  · simp [Nic.setCommand, Nic.completed, hb]

theorem Ringed.setCommand (h : Ringed n nic out) (a : Word) (command : Half) :
    Ringed n (nic.setCommand a command) out := by
  refine ⟨?_, h.count, ?_, ?_, ?_⟩
  · rw [setCommand_link]
    exact h.period
  · rw [setCommand_link]
    exact h.segment
  · rw [setCommand_link]
    exact h.next
  · rw [setCommand_link, setCommand_completed]
    exact h.clear

theorem Ringed.next_clear (h : Ringed n nic out) : nic.completed nic.nextCb = false := by
  rw [h.next]
  refine h.clear _ (le_refl _) ?_
  have := h.count
  omega

/-! ## Every frame is sent once -/

/-- The call of `send_packet` that fills block `b` is the next to return. -/
structure ReadyToSend (s : Net) (l : List Word) (b : Word) : Prop where
  out : b ∈ s.out
  clear : s.driver.nic.completed b = false
  el : (s.driver.nic.cbs b).command &&& cbEl ≠ 0#16
  owner : s.owner b = some s.accepted
  apart : b ∉ l

/-- The card has executed the calls in order, up to those it is at. -/
structure KeptUp (s : Net) (l : List Word) : Prop where
  ring : Ringed totalCb s.driver.nic s.out
  todo : Todo s.driver.nic s.out s.cu.upcoming l
  served : s.executed ++ l.filterMap s.owner = List.range s.accepted
  fresh : ∀ b, s.sending = some b → ReadyToSend s l b

/-- When `send_packet` reads the status, the card is idle. -/
def FindsIdle (s : Net) : NetEvent → Prop
  | .finish ru => s.sending = none ∨ startsCu (s.cu.status ru) = true
  | _ => True

theorem startsCu_iff (cu : Cu) (ru : Byte) : startsCu (cu.status ru) = true ↔ cu = .idle := by
  have hidle : ∀ ru : Byte, startsCu (cuIdle ||| (ru &&& ruMask)) = true := by decide
  have hbusy : ∀ ru : Byte, startsCu (cuLpqActive ||| (ru &&& ruMask)) = false := by decide
  unfold Cu.status
  split
  · rename_i h
    exact iff_of_true (hidle ru) h
  · rename_i h
    rw [hbusy ru]
    exact iff_of_false (by simp) h

namespace KeptUp

variable {s s' : Net} {l : List Word} {p : Packet} {ru : Byte} {status : Half}

/-- What the card has yet to do stays as it is when a block is handed out. -/
theorem handOut (h : KeptUp s l) {cb : Option Word} {freed : List Word}
    (hget : getNextCb s.driver.nic = .ok (cb, freed, nic')) :
    Ringed totalCb nic' (s.out.filter (fun b => !freed.contains b) ++ cb.toList)
    ∧ (∀ b ∈ l, b ∈ s.out.filter (fun b => !freed.contains b))
    ∧ (∀ b ∈ l, nic'.cbs b = s.driver.nic.cbs b)
    ∧ ∀ b, cb = some b → b ∉ l ∧ nic'.completed b = false := by
  have hn : totalCb < 2 ^ 32 := by decide
  obtain ⟨cb₁, m, nic₁, hget₁, hring, hnew, -⟩ := h.ring.get hn
  obtain ⟨rfl, hrest⟩ := Prod.mk.inj (Except.ok.inj (hget.symm.trans hget₁))
  obtain ⟨rfl, rfl⟩ := Prod.mk.inj hrest
  have hkept := fun b hb => getNextCb_kept (b := b) hget hb
  have hdrop : s.out.filter (fun b => !(s.out.take m).contains b) = s.out.drop m := by
    rw [← filter_take h.ring.nodup m]
    exact List.filter_congr fun b _ => by simp
  refine ⟨hdrop ▸ hring, fun b hb => ?_, fun b hb => (hkept b (h.todo.mem b hb).2).1,
    fun b hcb => ?_⟩
  · obtain ⟨hmem, hclear⟩ := h.todo.mem b hb
    exact List.mem_filter.mpr ⟨hmem, by simpa using (hkept b hclear).2⟩
  · obtain ⟨hnext, hnot⟩ := hnew b hcb
    have hc : s.driver.nic.completed b = false := hnext ▸ h.ring.next_clear
    refine ⟨fun hb => hnot (h.todo.mem b hb).1, ?_⟩
    rw [Nic.completed, (hkept b hc).1]
    exact hc

theorem send (h : KeptUp s l) (hst : s.send p = .ok s') : KeptUp s' l := by
  rw [Net.send] at hst
  split at hst
  · obtain rfl := Except.ok.inj hst
    exact h
  obtain ⟨⟨cb, freed, d⟩, hfill, hst⟩ := bind_eq_ok.mp hst
  obtain rfl := Except.ok.inj hst
  rw [fillBlock] at hfill
  split at hfill
  · obtain ⟨rfl, hrest⟩ := Prod.mk.inj (Except.ok.inj hfill)
    obtain ⟨rfl, rfl⟩ := Prod.mk.inj hrest
    simp only [List.contains_nil, Bool.not_false, List.filter_true, Option.toList_none,
      List.append_nil]
    exact ⟨h.ring, h.todo, h.served, fun b hb => by cases hb⟩
  obtain ⟨⟨cb', freed', nic'⟩, hget, hfill⟩ := bind_eq_ok.mp hfill
  obtain ⟨hring, hstays, hsame, hnew⟩ := h.handOut hget
  cases cb' with
  | none =>
      obtain ⟨rfl, hrest⟩ := Prod.mk.inj (Except.ok.inj hfill)
      obtain ⟨rfl, rfl⟩ := Prod.mk.inj hrest
      refine ⟨hring, ?_, h.served, fun b hb => by cases hb⟩
      exact h.todo.congr hsame fun x hx => List.mem_append_left _ (hstays x hx)
  | some b =>
      obtain ⟨rfl, hrest⟩ := Prod.mk.inj (Except.ok.inj hfill)
      obtain ⟨rfl, rfl⟩ := Prod.mk.inj hrest
      obtain ⟨hbl, hclear⟩ := hnew b rfl
      have hne : ∀ x ∈ l, x ≠ b := fun x hx he => hbl (he ▸ hx)
      refine ⟨hring.setCommand b _, ?_, ?_, fun x hx => ?_⟩
      · refine h.todo.congr (fun x hx => ?_) fun x hx => List.mem_append_left _ (hstays x hx)
        exact (update_of_ne (hne x hx) ..).trans (hsame x hx)
      · have hmap : l.filterMap (update s.owner b (some s.accepted)) = l.filterMap s.owner :=
          List.filterMap_congr fun x hx => update_of_ne (hne x hx) ..
        exact (congrArg (s.executed ++ ·) hmap).trans h.served
      · obtain rfl := Option.some.inj hx
        refine ⟨List.mem_append_right _ (List.mem_singleton.mpr rfl), ?_, ?_, update_self .., hbl⟩
        · show (nic'.setCommand b _).completed b = false
          rw [setCommand_completed]
          exact hclear
        · show ((nic'.setCommand b _).cbs b).command &&& cbEl ≠ 0#16
          rw [setCommand_self]
          decide

theorem finish (h : KeptUp s l) (hidle : FindsIdle s (.finish ru)) :
    ∃ l', KeptUp (s.finish ru) l' := by
  rw [Net.finish]
  split
  · exact ⟨l, h⟩
  · rename_i b hb
    have hstart := hidle.resolve_left (by rw [hb]; simp)
    have hcu := (startsCu_iff s.cu ru).mp hstart
    have hf := h.fresh b hb
    have htodo := h.todo
    rw [hcu] at htodo
    have hserved := h.served
    rw [htodo.nil_of_none, List.filterMap_nil, List.append_nil] at hserved
    simp only [hstart, if_true]
    refine ⟨[b], h.ring, .last hf.out hf.clear hf.el, ?_, fun x hx => by cases hx⟩
    simp only [List.filterMap_cons, hf.owner, List.filterMap_nil]
    rw [hserved, List.range_succ]

theorem complete (h : KeptUp s l) (status : Half) : ∃ l', KeptUp (s.complete status) l' := by
  rw [Net.complete]
  split
  · rename_i b hcu
    split
    · exact ⟨l, h⟩
    rename_i hst
    have htodo := h.todo
    rw [hcu] at htodo
    obtain ⟨rest, rfl, hnot, hnext⟩ : ∃ rest, l = b :: rest ∧ b ∉ rest
        ∧ Todo s.driver.nic s.out (if (s.driver.nic.cbs b).command &&& cbEl = 0#16
          then some (s.driver.nic.cbs b).link else none) rest := by
      cases htodo with
      | last _ _ hel => exact ⟨[], rfl, List.not_mem_nil, by rw [if_neg hel]; exact .stop⟩
      | more _ _ hel hnot hrest => exact ⟨_, rfl, hnot, by rw [if_pos hel]; exact hrest⟩
    obtain ⟨hout, hclear⟩ := h.todo.mem b (List.mem_cons_self ..)
    have hring := h.ring.complete b status
    rw [SpKernel.complete, if_pos ⟨hout, hclear, hst⟩] at hring
    have hother : ∀ x, x ≠ b → (update s.driver.nic.cbs b
        { s.driver.nic.cbs b with status := status }) x = s.driver.nic.cbs x :=
      fun x hx => update_of_ne hx ..
    refine ⟨rest, hring, ?_, ?_, fun x hx => ?_⟩
    · refine hnext.congr (fun x hx => hother x ?_) fun x hx =>
        (h.todo.mem x (List.mem_cons_of_mem b hx)).1
      rintro rfl
      exact hnot hx
    · have hserved := h.served
      cases hown : s.owner b with
      | none =>
          rw [List.filterMap_cons_none hown] at hserved
          simpa only [hown, Option.toList_none, List.append_nil] using hserved
      | some i =>
          rw [List.filterMap_cons_some hown] at hserved
          simpa only [hown, Option.toList_some, List.append_assoc, List.singleton_append]
            using hserved
    · have hf := h.fresh x hx
      have hne : x ≠ b := fun he => hf.apart (he ▸ List.mem_cons_self ..)
      have hcb := hother x hne
      refine ⟨hf.out, ?_, ?_, hf.owner, fun hx => hf.apart (List.mem_cons_of_mem b hx)⟩
      · show decide (((update s.driver.nic.cbs b { s.driver.nic.cbs b with status := status })
          x).status &&& cbC ≠ 0#16) = false
        rw [hcb]
        exact hf.clear
      · show ((update s.driver.nic.cbs b { s.driver.nic.cbs b with status := status })
          x).command &&& cbEl ≠ 0#16
        rw [hcb]
        exact hf.el
  · exact ⟨l, h⟩

theorem setCu {cu : Cu} (h : KeptUp s l) (hcu : s.cu.upcoming = cu.upcoming) :
    KeptUp { s with cu := cu } l := by
  refine ⟨h.ring, hcu ▸ h.todo, h.served, fun b hb => ?_⟩
  have hf := h.fresh b hb
  exact ⟨hf.out, hf.clear, hf.el, hf.owner, hf.apart⟩

theorem advance (h : KeptUp s l) : KeptUp s.advance l := by
  rw [Net.advance]
  split
  · rename_i hcu
    exact h.setCu (by rw [hcu]; rfl)
  · rename_i b hcu
    exact h.setCu (by rw [hcu]; rfl)
  · exact h

theorem step {e : NetEvent} (h : ∃ l, KeptUp s l) (hc : FindsIdle s e)
    (hst : netStep s e = .ok s') : ∃ l, KeptUp s' l := by
  obtain ⟨l, h⟩ := h
  cases e with
  | send p => exact ⟨l, h.send hst⟩
  | finish ru =>
      obtain rfl := Except.ok.inj hst
      exact h.finish hc
  | complete status =>
      obtain rfl := Except.ok.inj hst
      exact h.complete status
  | advance =>
      obtain rfl := Except.ok.inj hst
      exact ⟨l, h.advance⟩

/-- Once the card is idle it has executed every call. -/
theorem executed_once (h : KeptUp s l) (hidle : s.cu = .idle) {i : Nat} (hi : i < s.accepted) :
    s.executed.count i = 1 := by
  have htodo := h.todo
  rw [hidle] at htodo
  have hserved := h.served
  rw [htodo.nil_of_none, List.filterMap_nil, List.append_nil] at hserved
  rw [hserved]
  exact List.count_eq_one_of_mem List.nodup_range (List.mem_range.mpr hi)

end KeptUp

/-! ## Initialisation -/

theorem getNextCb_available (h : nic.availCb ≠ 0#32) :
    getNextCb nic = .ok (some nic.nextCb, [], nic.handOut) := if_neg h

theorem available_of_length (h : Ringed n nic out) (hlt : out.length < n) :
    nic.availCb ≠ 0#32 := by
  intro h0
  have hcount := h.count
  rw [h0, show (0#32 : Word).toNat = 0 from rfl] at hcount
  omega

/-- The card is started with the configuration block, which leads to the
address block and no further. -/
theorem intelNicInit_keptUp {tcbs : Word → Tcb} {mm mm' : MemMgr} {s : Net}
    (hlast : mm.lastAvailible < patSize) (h : intelNicInit nic tcbs mm = .ok (s, mm')) :
    ∃ l, KeptUp s l := by
  obtain ⟨⟨nic₁, mm₁⟩, hcbl, h⟩ := bind_eq_ok.mp h
  have h1 := initCbl_ringed hlast (by decide) hcbl
  have ha1 := available_of_length h1 (by decide)
  have h2 := (h1.handOut ha1).setCommand nic₁.nextCb cbCfgCmd
  have ha2 := available_of_length h2 (by simp)
  have h3 := h2.handOut ha2
  simp only [getNextCb_available ha1, ok_bind] at h
  rw [getNextCb_available ha2, ok_bind] at h
  obtain ⟨rfl, rfl⟩ := Prod.mk.inj (Except.ok.inj h)
  have hnew : nic₁.link nic₁.nextCb ≠ nic₁.nextCb := by
    have := h2.next_not_mem
    rwa [List.nil_append, List.mem_singleton] at this
  have hlink : (nic₁.handOut.setCommand nic₁.nextCb cbCfgCmd).link = nic₁.link := setCommand_link ..
  have hcompleted : (nic₁.handOut.setCommand nic₁.nextCb cbCfgCmd).completed = nic₁.completed :=
    setCommand_completed ..
  refine ⟨[nic₁.nextCb, nic₁.link nic₁.nextCb], h3.setCommand _ _, ?_, rfl, fun b hb => by cases hb⟩
  show Todo ((nic₁.handOut.setCommand nic₁.nextCb cbCfgCmd).handOut.setCommand
    (nic₁.link nic₁.nextCb) (cbIaCmd ||| cbEl)) [nic₁.nextCb, nic₁.link nic₁.nextCb]
    (some nic₁.nextCb) [nic₁.nextCb, nic₁.link nic₁.nextCb]
  refine .more (List.mem_cons_self ..) ?_ ?_ (by simpa using hnew.symm) ?_
  · rw [setCommand_completed]
    exact (congrFun hcompleted _).trans h1.next_clear
  · rw [setCommand_other _ hnew.symm]
    show ((nic₁.handOut.setCommand nic₁.nextCb cbCfgCmd).cbs nic₁.nextCb).command &&& cbEl = 0#16
    rw [setCommand_self]
    decide
  · rw [setCommand_link]
    show Todo _ _ (some ((nic₁.handOut.setCommand nic₁.nextCb cbCfgCmd).link nic₁.nextCb)) _
    rw [hlink]
    refine .last (List.mem_cons_of_mem _ (List.mem_cons_self ..)) ?_ ?_
    · rw [setCommand_completed]
      exact h2.next_clear
    · rw [setCommand_self]
      decide

/-- If every call of `send_packet` finds the card idle, then the card has
executed each call that has returned 0 exactly once, whenever it is idle. -/
theorem frames_executed_once {tcbs : Word → Tcb} {mm mm' : MemMgr} {s₀ s : Net}
    {tr : List (Net × NetEvent)} (hlast : mm.lastAvailible < patSize)
    (hinit : intelNicInit nic tcbs mm = .ok (s₀, mm')) (hrun : Steps netStep s₀ tr s)
    (hfinds : ∀ x ∈ tr, FindsIdle x.1 x.2) (hidle : s.cu = .idle) :
    ∀ i < s.accepted, s.executed.count i = 1 := by
  obtain ⟨l, h⟩ := hrun.inv_of (P := fun s => ∃ l, KeptUp s l)
    (fun _ _ _ hs hc hst => KeptUp.step hs hc hst) (intelNicInit_keptUp hlast hinit) hfinds
  exact fun i hi => h.executed_once hidle hi

def noTcb : Tcb := ⟨0, 0, 0, 0, fun _ => 0⟩

def netRun (es : List NetEvent) : Except Fault Net := do
  let (s, _) ← intelNicInit noNic (fun _ => noTcb) lowPageUsed
  run netStep s es

/-- Both blocks of the initialisation, each to its end. -/
def cardDone : List NetEvent := [.complete cbC, .advance, .complete cbC, .advance]

theorem net_of_test (es : List NetEvent) (test : Net → Bool) (h : okAnd (netRun es) test = true) :
    ∃ s₀ mm' tr s, intelNicInit noNic (fun _ => noTcb) lowPageUsed = .ok (s₀, mm')
      ∧ Steps netStep s₀ tr s ∧ tr.map Prod.snd = es ∧ test s = true := by
  obtain ⟨s, hs, ht⟩ := of_okAnd h
  obtain ⟨⟨s₀, mm'⟩, hinit, hrun⟩ := bind_eq_ok.mp hs
  obtain ⟨tr, hsteps, hes⟩ := steps_of_run hrun
  exact ⟨s₀, mm', tr, s, hinit, hsteps, hes, ht⟩

/-- A frame is sent while the card is idle, and executed. -/
def oneFrame : List NetEvent := [.send someArp, .finish 0, .complete cbC, .advance]

/-- Once the initialisation is done, two frames are sent, one after the other. -/
theorem frames_executed_once_two : ∃ s₀ mm' tr s,
    intelNicInit noNic (fun _ => noTcb) lowPageUsed = .ok (s₀, mm') ∧ Steps netStep s₀ tr s
    ∧ tr.map Prod.snd = cardDone ++ oneFrame ++ oneFrame
    ∧ s.accepted = 2 ∧ ∀ i < s.accepted, s.executed.count i = 1 := by
  have ht : okAnd (intelNicInit noNic (fun _ => noTcb) lowPageUsed) (fun r =>
      checkedRun netStep (fun s _ => decide (s.sending = none ∨ s.cu = .idle))
        (fun s => decide (s.cu = .idle ∧ s.accepted = 2)) (cardDone ++ oneFrame ++ oneFrame) r.1)
      = true := by
    decide +kernel
  obtain ⟨⟨s₀, mm'⟩, hinit, ht⟩ := of_okAnd ht
  obtain ⟨tr, s, hrun, hes, hcheck, hend⟩ := steps_of_checked ht
  obtain ⟨hidle, htwo⟩ := of_decide_eq_true hend
  have hfinds : ∀ x ∈ tr, FindsIdle x.1 x.2 := by
    rintro ⟨t, e⟩ hx
    cases e with
    | finish ru =>
        have hstate := of_decide_eq_true (hcheck _ hx)
        exact hstate.imp id (startsCu_iff t.cu ru).mpr
    | send packet => trivial
    | complete status => trivial
    | advance => trivial
  exact ⟨s₀, mm', tr, s, hinit, hrun, hes, htwo,
    frames_executed_once (by decide) hinit hrun hfinds hidle⟩

/-- A frame is put in a block while the card is at the configuration: once
the card is idle, it has not executed it. -/
theorem frame_skipped : ∃ s₀ mm' tr s,
    intelNicInit noNic (fun _ => noTcb) lowPageUsed = .ok (s₀, mm') ∧ Steps netStep s₀ tr s
    ∧ s.cu = .idle ∧ s.accepted = 1 ∧ s.executed.count 0 = 0 := by
  obtain ⟨s₀, mm', tr, s, hinit, hrun, -, ht⟩ := net_of_test
    ([.send someArp, .finish 0] ++ cardDone)
    (fun s => decide (s.cu = .idle ∧ s.accepted = 1 ∧ s.executed.count 0 = 0)) (by decide +kernel)
  exact ⟨s₀, mm', tr, s, hinit, hrun, of_decide_eq_true ht⟩

end SpKernel
