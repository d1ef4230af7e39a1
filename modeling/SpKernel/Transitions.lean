import SpKernel.RoundRobin

/-!
# The states of a process, up to the dispatcher

`Moves` is the state diagram of a process: which state can follow which
in the course of an event, and what event that takes. The running process
goes to sleep, reads or waits by a call of its own; a sleeper is made
ready by the clock, a reader by the serial line, a waiting parent by the
end of a child; a zombie is freed by the `wait` of its parent. Everything
else is a death, by an act that the event explains and the family allows.

A process is made ready or taken out of a waiting queue by a handler, but
it is `_dispatch` that lets it run, so the diagram is first about the
state a handler ends or calls `_dispatch` in (`Until`, over the handlers
of `UpTo`).

Two of the queues are for processes that wait for a device, the clock or
the serial line. Most handlers leave these queues alone (`Resting`); what
happens to all the other states is told by the act of the family, which
is known from `step_sim`. So a handler has one lemma
(`Good.until_sysRead`, `Good.until_asleep`, `Good.until_clkIsr` and so
on), and what it says is no more than which process goes to which of the
two queues or leaves it. `Good.until` puts them together.
-/

namespace SpKernel

open Function (update update_of_ne)
open Lib

/-! ## The diagram -/

namespace Event

/-- The event is the system call with this code. -/
def Calls (code : Word) : Event → Prop
  | .interrupt frame (.syscall _) => frame.regs.eax = code
  | _ => False

/-- An argument of a system call. -/
def arg (n : Nat) : Event → Word
  | .interrupt frame _ => frame.args n
  | .store _ _ => 0

def Tick : Event → Prop
  | .interrupt _ .clock => True
  | _ => False

def Serial : Event → Prop
  | .interrupt _ (.serial _) => True
  | _ => False

end Event

/-- In an event of the running process `p` a process `x` comes from one
state into another. -/
inductive Moves (f : Family) (p : PcbId) (e : Event) (x : PcbId) : PState → PState → Prop
  | stays (s : PState) : Moves f p e x s s
  | born : e.Calls 3 → Moves f p e x .free .ready
  | preempted : x = p → e.Tick ∨ e.Calls 7 ∧ e.arg 1 = 0 → Moves f p e x .running .ready
  | sleeps : x = p → e.Calls 7 → e.arg 1 ≠ 0 → Moves f p e x .running .sleeping
  | reads : x = p → e.Calls 1 → Moves f p e x .running .blocked
  | waits : x = p → e.Calls 6 → Moves f p e x .running .waiting
  | wakes : e.Tick → Moves f p e x .sleeping .ready
  | served : e.Serial → Moves f p e x .blocked .ready
  | told {v : PcbId} {m : Mode} {status : Word} : v ≠ x →
      Explains f p e (.terminate v m status) → (Act.terminate v m status).Enabled f →
      (f.members v).ppid = (f.members x).pid → Moves f p e x .waiting .ready
  | died {s s' : PState} {m : Mode} {status : Word} :
      Explains f p e (.terminate x m status) → (Act.terminate x m status).Enabled f →
      s'.mode = m ∨ s' = .free → Moves f p e x s s'
  | collected : e.Calls 6 → (f.members x).ppid = (f.members p).pid → Moves f p e x .zombie .free

variable {k k' k₁ : Kernel} {p x : PcbId} {q : PQueue} {e : Event} {frame : Frame}

/-! ## Waiting for a device -/

/-- Who is on `q` waits for the clock or the serial line. -/
def Aside (q : PQueue) : Prop := q = .sleeping ∨ q = .reading

/-- Those who wait for a device still do, and no others. -/
def Resting (k k' : Kernel) : Prop := ∀ q, Aside q → k'.on q = k.on q

theorem Aside.ne_ready (h : Aside q) (prio : Fin nPrios) : q ≠ .ready prio := by
  rcases h with rfl | rfl <;> exact nofun

theorem Aside.ne {q' : PQueue} (h : Aside q) (hq : ¬Aside q') : q ≠ q' :=
  fun he => hq (he ▸ h)

theorem not_aside {q : PQueue} (h1 : q ≠ .sleeping) (h2 : q ≠ .reading) : ¬Aside q := by
  rintro (h | h)
  · exact h1 h
  · exact h2 h

namespace Resting

theorem refl (k : Kernel) : Resting k k := fun _ _ => rfl

theorem trans (h : Resting k k₁) (h' : Resting k₁ k') : Resting k k' :=
  fun q hq => (h' q hq).trans (h q hq)

theorem of_queues (h : k'.queues = k.queues) : Resting k k' :=
  fun q _ => by rw [Kernel.on, h, Kernel.on]

theorem queues {l : List PcbId} (k : Kernel) (n : Nat) (hq : ¬Aside q) :
    Resting k { k with queues := ⟨n, update k.queues.items (.pcbs q) l⟩ } :=
  fun _ hq' => (on_update k q _ l n).trans (if_neg (hq'.ne hq))

theorem enque {st : Status} (h : k.enque q p = (st, k')) (hq : ¬Aside q) : Resting k k' := by
  rcases enque_eq h with rfl | ⟨n, rfl⟩
  · exact .refl k'
  · exact .queues k n hq

theorem deque {st : Status} (h : k.deque q = (st, some p, k')) (hq : ¬Aside q) : Resting k k' := by
  obtain ⟨n, l, -, rfl⟩ := deque_eq h
  exact .queues k n hq

theorem remove (h : k.remove q p = (.success, k')) (hq : ¬Aside q) : Resting k k' := by
  obtain ⟨-, n, rfl⟩ := remove_eq h
  exact .queues k n hq

theorem schedule (h : SpKernel.schedule k p = .ok k') : Resting k k' :=
  fun _ hq => (schedule_ready h _).trans (if_neg (hq.ne_ready _))

theorem stkDealloc (k : Kernel) (stack : Option StackId) :
    Resting k (SpKernel.stkDealloc k stack) := by
  cases stack with
  | none => exact .refl k
  | some s =>
      simp only [SpKernel.stkDealloc, QPool.enque]
      split
      · exact .refl k
      · intro q _
        have hne : QueueId.pcbs q ≠ .freeStacks := by simp
        simp only [Kernel.on, update_of_ne hne]

theorem pcbDealloc (k : Kernel) (p : PcbId) : Resting k (SpKernel.pcbDealloc k p) :=
  enque (k := k.setPcb p Pcb.makeFree) rfl (not_aside (by simp) (by simp))

theorem pcbCleanup (k : Kernel) (p : PcbId) : Resting k (SpKernel.pcbCleanup k p) :=
  (stkDealloc k _).trans (pcbDealloc _ p)

theorem lay (h : SpKernel.lay k p = .ok k') : Resting k k' := by
  obtain ⟨parent, ⟨-, k₁, he, hs⟩ | ⟨-, he⟩⟩ := lay_cases h
  · have hrem := remove he (not_aside (by simp) (by simp))
    have hdel : Resting k₁ (deliver k₁ parent p) := .of_queues rfl
    exact ((hrem.trans hdel).trans (pcbCleanup _ p)).trans (schedule hs)
  · exact enque he (not_aside (by simp) (by simp))

theorem zombify (h : SpKernel.zombify k p = .ok k') : Resting k k' := by
  obtain ⟨k₁, hk₁, hl⟩ := bind_eq_ok.mp h
  exact (of_queues (reparent_queues hk₁)).trans (lay hl)

theorem pcbAlloc {y : Option PcbId} (h : SpKernel.pcbAlloc k = .ok (y, k')) : Resting k k' := by
  rcases pcbAlloc_cases h with ⟨-, rfl⟩ | ⟨p, k₁, -, hd, rfl⟩
  · exact .refl k'
  · exact (deque hd (not_aside (by simp) (by simp))).trans (of_queues rfl)

theorem stkAlloc {y : Option StackId} (h : SpKernel.stkAlloc k = .ok (y, k')) : Resting k k' := by
  rcases stkAlloc_cases h with ⟨-, rfl⟩ | ⟨s, l, -, -, rfl⟩
  · exact .refl k'
  · intro q _
    have hne : QueueId.pcbs q ≠ .freeStacks := by simp
    simp only [Kernel.on, update_of_ne hne]

theorem sysFork (h : SpKernel.sysFork k p = .ok k') : Resting k k' ∧ k'.current = k.current := by
  rw [SpKernel.sysFork] at h
  split at h
  · exact Except.ok.inj h ▸ ⟨of_queues rfl, rfl⟩
  obtain ⟨⟨new, k₁⟩, hk₁, h⟩ := bind_eq_ok.mp h
  have h₁ := pcbAlloc hk₁
  have hc₁ := (pcbAlloc_keeps hk₁).2
  cases new with
  | none => exact Except.ok.inj h ▸ ⟨h₁.trans (of_queues rfl), hc₁⟩
  | some new =>
      obtain ⟨⟨stk, k₂⟩, hk₂, h⟩ := bind_eq_ok.mp h
      have h₂ := h₁.trans (stkAlloc hk₂)
      have hc₂ := (stkAlloc_keeps hk₂).2.trans hc₁
      cases stk with
      | none =>
          rw [← Except.ok.inj h]
          refine ⟨(h₂.trans (of_queues rfl)).trans (pcbDealloc _ new), ?_⟩
          exact hc₂
      | some stk =>
          have hborn : SpKernel.schedule (birth k₂ p new stk) new = .ok k' := h
          have hbirth : Resting k₂ (birth k₂ p new stk) := of_queues rfl
          refine ⟨(h₂.trans hbirth).trans (schedule hborn), ?_⟩
          obtain ⟨n, rfl⟩ := schedule_eq hborn
          exact hc₂

end Resting

/-! ## Up to the dispatcher -/

/-- The state `r.1` a handler ends in, or calls `_dispatch` in if `r.2`. -/
structure Until (k : Kernel) (e : Event) (r : Kernel × Bool) : Prop where
  placed : Placed r.1 ∅ (if r.2 then none else some k.current)
  act : ∃ a, Explains k.family k.current e a ∧ a.Enabled k.family
    ∧ r.1.family = a.apply k.family
  /-- only the running process can begin to wait for a device -/
  joins : ∀ q, Aside q → ∀ x ∈ r.1.on q, x ≠ k.current → x ∈ k.on q
  /-- the others stop waiting for it when they are served, or dead -/
  leaves : ∀ q, Aside q → ∀ x ∈ k.on q,
    x ∈ r.1.on q ∨ q = .sleeping ∧ e.Tick ∨ q = .reading ∧ e.Serial
      ∨ (r.1.pcbs x).state.mode ≠ .active
  /-- the running process gives up the processor -/
  gives : r.2 = true →
    Moves k.family k.current e k.current .running (r.1.pcbs k.current).state

namespace Until

/-- A handler that does not call `_dispatch` and has nothing to do with
those who wait for a device. -/
theorem plain {r : Except Fault Kernel} {y : Kernel × Bool} (h : UpTo.plain r = .ok y)
    (hspec : Performs k (Explains k.family k.current e) r)
    (hrest : ∀ k', r = .ok k' → Resting k k' ∧ k'.current = k.current) : Until k e y := by
  cases r with
  | error f => cases h
  | ok k' =>
      obtain rfl := Except.ok.inj h
      obtain ⟨hpl, hact⟩ := hspec
      obtain ⟨hr, hc⟩ := hrest k' rfl
      rw [hc] at hpl
      exact ⟨hpl, hact, fun q hq _ hx _ => (hr q hq) ▸ hx,
        fun q hq _ hx => .inl ((hr q hq).symm ▸ hx), nofun⟩

/-- The running process goes, and those who wait for a device stay. -/
theorem call {a : Act} (ha : Explains k.family k.current e a) (hen : a.Enabled k.family)
    (hpl : Placed k₁ ∅ none) (hf : k₁.family = a.apply k.family) (hr : Resting k k₁)
    (hg : Moves k.family k.current e k.current .running (k₁.pcbs k.current).state) :
    Until k e (k₁, true) :=
  ⟨hpl, ⟨a, ha, hen, hf⟩, fun q hq _ hx _ => (hr q hq) ▸ hx,
    fun q hq _ hx => .inl ((hr q hq).symm ▸ hx), fun _ => hg⟩

theorem device (hpl : Placed k₁ ∅ none) (hf : k₁.family = k.family)
    (hmem : ∀ q, Aside q → ∀ x ∈ k₁.on q, x ≠ k.current → x ∈ k.on q)
    (hkept : ∀ q, Aside q → k.on q ⊆ k₁.on q)
    (hg : Moves k.family k.current e k.current .running (k₁.pcbs k.current).state) :
    Until k e (k₁, true) :=
  ⟨hpl, ⟨.quiet, .quiet, trivial, hf⟩, hmem, fun q hq _ hx => .inl (hkept q hq hx), fun _ => hg⟩

end Until

/-! ### Ends of processes -/

theorem Family.Inv.terminate_mode {f : Family} (h : f.Inv) {v : PcbId} {m : Mode} {status : Word}
    (hen : (Act.terminate v m status).Enabled f) :
    ((f.terminate v m status).members v).mode = m
      ∨ ((f.terminate v m status).members v).mode = .free := by
  obtain ⟨q, -, -, ⟨hl, -⟩ | ⟨hl, -, hne, -⟩⟩ := h.terminate_cases hen
  · rw [hl, Family.orphan_mode, if_pos rfl]
    exact .inl rfl
  · rw [hl, Family.wake_members _ hne, if_neg hne.symm, if_pos rfl]
    exact .inr rfl

theorem died_state {f : Family} (h : f.Inv) {m : Mode} {status : Word}
    (hen : (Act.terminate x m status).Enabled f) (hk : k₁.family = f.terminate x m status) :
    (k₁.pcbs x).state.mode = m ∨ (k₁.pcbs x).state = .free := by
  have hmode : (k₁.pcbs x).state.mode = ((f.terminate x m status).members x).mode := hk ▸ rfl
  rcases h.terminate_mode hen with hm | hm
  · exact .inl (hmode.trans hm)
  · exact .inr (mode_eq_free.mp (hmode.trans hm))

theorem Good.until_die (g : Good k) (m : Mode) (status : Word) {f : Pcb → Pcb}
    {r : Kernel × Bool} (ha : Explains k.family k.current e (.terminate k.current m status))
    (hm : m.Dead) (hf : ∀ y, (f y).member = y.member.die m status)
    (h : UpTo.calls (SpKernel.zombify (k.setPcb k.current f) k.current) = .ok r) :
    Until k e r := by
  obtain ⟨k', hk', hpl, hfam⟩ := g.zombify hm hf
  have hen : (Act.terminate k.current m status).Enabled k.family := ⟨.inl g.active, hm⟩
  rw [hk'] at h
  obtain rfl := Except.ok.inj h
  have hset : Resting k (k.setPcb k.current f) := .of_queues rfl
  have hr : Resting k k' := hset.trans (.zombify hk')
  exact .call ha hen hpl hfam hr (.died ha hen (died_state g.family hen hfam))

/-- A victim that is off its queue, or off the CPU, is laid to rest. -/
theorem Good.until_kill (g : Good k) {v : PcbId} {r : Kernel × Bool}
    (ha : Explains k.family k.current e (.terminate v .killed exitKilled))
    (hlive : (k.family.members v).mode.Live)
    (hpl : Placed k₁ {v} (if v = k.current then none else some k.current))
    (hf : k₁.family = k.family) (hc : k₁.current = k.current)
    (hsub : ∀ q, Aside q → k₁.on q ⊆ k.on q)
    (hkept : ∀ q, Aside q → ∀ x ∈ k.on q, x ≠ v → x ∈ k₁.on q)
    (h : UpTo.finishKill k₁ k.current v = .ok r) : Until k e r := by
  have hen : (Act.terminate v .killed exitKilled).Enabled k.family := ⟨hlive, .inl rfl⟩
  obtain ⟨k', hk', -, hpl', hfam⟩ := finishKill_cases g hlive hpl hf hc
  have hcur : k'.current = k.current := by
    have h1 := (hpl.setOff (Set.mem_singleton v) fun x =>
      { x with state := .killed, exitstatus := exitKilled }).setRet k.current Status.success.word
    obtain ⟨k₂, hk₂, -, -, hc₂⟩ := zombify_spec (f := k.family) h1 g.family hlive (.inl rfl) (by
      rw [family_setRet, family_setPcb, ← hf]
      rfl)
    obtain rfl := Except.ok.inj (hk₂.symm.trans hk')
    exact hc₂.trans hc
  rw [UpTo.finishKill] at h
  obtain ⟨k₂, hk₂, h⟩ := bind_eq_ok.mp h
  obtain rfl := Except.ok.inj (hk'.symm.trans hk₂)
  obtain rfl := Except.ok.inj h
  have hr : ∀ q, Aside q → k'.on q = k₁.on q := fun q hq =>
    Resting.zombify (k := (k₁.setPcb v _).setRet k.current _) hk₂ q hq
  refine ⟨?_, ⟨_, ha, hen, hfam⟩, fun q hq x hx _ => hsub q hq (hr q hq ▸ hx),
    fun q hq x hx => ?_, fun hd => ?_⟩
  · rw [hcur] at hpl' ⊢
    by_cases hv : v = k.current
    · simpa [hv] using hpl'
    · simpa [hv] using hpl'
  · by_cases hxv : x = v
    · refine .inr (.inr (.inr ?_))
      subst hxv
      rcases died_state g.family hen hfam with hm | hm
      · rw [hm]
        exact fun hc => by cases hc
      · rw [hm]
        exact fun hc => by cases hc
    · exact .inl (hr q hq ▸ hkept q hq x hx hxv)
  · obtain rfl : v = k.current := hcur ▸ of_decide_eq_true hd
    exact .died ha hen (died_state g.family hen hfam)

/-! ### The other handlers -/

theorem Good.until_readDone (g : Good k) {n : Nat} {r : Kernel × Bool} (he : e.Calls 1)
    (h : UpTo.readDone k k.current n = .ok r) : Until k e r := by
  rw [UpTo.readDone] at h
  split at h
  · refine Until.plain (r := .ok (k.setRet k.current (BitVec.ofNat 32 n))) h (g.setRet .quiet ..)
      fun k' hk' => ?_
    rw [← Except.ok.inj hk']
    exact ⟨.of_queues rfl, rfl⟩
  · obtain ⟨Q, henq, hpl, hstk⟩ := g.block
    simp only [henq] at h
    obtain rfl := Except.ok.inj h
    have hself := setPcb_self { k with queues := Q } k.current fun x =>
      { x with state := .blocked }
    have hon : ∀ q, Aside q → ({ k with queues := Q } : Kernel).on q
        = if q = .reading then k.on .reading ++ [k.current] else k.on q := by
      intro q hq
      rcases enque_eq henq with hsame | ⟨n, hsame⟩
      · have hcon : k.current ∈ k.on .reading := by
          rw [← hsame]
          refine (hpl.mem k.current .reading).mpr ⟨id, ?_⟩
          rw [hself]
          rfl
        exact absurd hcon (g.current_not_on _)
      · rw [hsame, on_update]
        rfl
    have hstate : (({ k with queues := Q }.setPcb k.current fun x =>
        { x with state := .blocked }).pcbs k.current).state = .blocked := by
      rw [hself]
    refine .device hpl ?_ (fun q hq x hx hne => ?_) (fun q hq x hx => ?_) ?_
    · refine (family_setPcb_same { k with queues := Q } _ ?_).trans (family_queues k hstk)
      simp [Pcb.member, g.running, PState.mode]
    · have hx' := (hon q hq) ▸ hx
      split at hx'
      · rename_i hq
        rw [List.mem_append, List.mem_singleton] at hx'
        exact hq ▸ hx'.resolve_right hne
      · exact hx'
    · change x ∈ ({ k with queues := Q } : Kernel).on q
      rw [hon q hq]
      split
      · rename_i hq
        exact List.mem_append_left _ (hq ▸ hx)
      · exact hx
    · rw [hstate]
      exact .reads rfl he

theorem Until.of_same {r : Kernel × Bool} (h : Until k' e r) (hp : k'.family = k.family)
    (hq : k'.queues = k.queues) (hc : k'.current = k.current) : Until k e r := by
  have hon : ∀ q, k'.on q = k.on q := fun q => by rw [Kernel.on, hq, Kernel.on]
  refine ⟨hc ▸ h.placed, ?_, fun q ha x hx hne => ?_, fun q ha x hx => ?_, fun hd => ?_⟩
  · obtain ⟨a, ha, hen, hf⟩ := h.act
    exact ⟨a, hc ▸ hp ▸ ha, hp ▸ hen, hp ▸ hf⟩
  · exact hon q ▸ h.joins q ha x hx (hc ▸ hne)
  · exact h.leaves q ha x (hon q ▸ hx)
  · have hg := h.gives hd
    rw [hp, hc] at hg
    exact hg

theorem Good.until_sysRead (g : Good k) {keys : List Byte} {r : Kernel × Bool} (he : e.Calls 1)
    (h : UpTo.sysRead keys k k.current = .ok r) : Until k e r := by
  have hret : ∀ v, UpTo.plain (.ok (k.setRet k.current v)) = .ok r → Until k e r := by
    intro v hv
    refine Until.plain hv (g.setRet .quiet ..) fun k' hk' => ?_
    rw [← Except.ok.inj hk']
    exact ⟨.of_queues rfl, rfl⟩
  simp only [UpTo.sysRead] at h
  split at h
  · split at h
    · exact hret _ h
    · obtain ⟨⟨n, c, m⟩, -, h⟩ := bind_eq_ok.mp h
      have g' : Good { k with console := c, mm := { k.mm with mem := m } } :=
        g.congr rfl rfl rfl rfl
      exact (g'.until_readDone he h).of_same rfl rfl rfl
  · split at h
    · have g' : Good { k with
          sio := (sioReads k.sio k.mm.mem (k.arg k.current 2) (k.arg k.current 3).toInt).2.1
          mm := { k.mm with
            mem :=
              (sioReads k.sio k.mm.mem (k.arg k.current 2) (k.arg k.current 3).toInt).2.2 } } :=
        g.congr rfl rfl rfl rfl
      exact (g'.until_readDone he h).of_same rfl rfl rfl
    · exact hret _ h

theorem Good.until_asleep (g : Good k) {k₁ : Kernel} (he : e.Calls 7) (hm : e.arg 1 ≠ 0)
    {f : Pcb → Pcb} (hstate : ∀ y, (f y).state = .sleeping)
    (hfam : ∀ y : Pcb, y.state = .running → (f y).member = y.member)
    (henq : (k.setPcb k.current f).enque .sleeping k.current = (.success, k₁)) :
    Until k e (k₁, true) := by
  have hself := setPcb_self k k.current f
  have h1 := g.stop.setOff (Set.mem_singleton _) f
  obtain ⟨Q, he', hpl, hstk⟩ := h1.enque (q := .sleeping) (Set.mem_singleton _)
    (by rw [hself, home, hstate]) (by
      rw [hself]
      refine ⟨fun hc => ?_, fun hc => ?_, fun hc => ?_⟩
      all_goals
        rw [hstate] at hc
        cases hc)
  rw [Set.sdiff_self] at hpl
  obtain rfl : _ = k₁ := congrArg Prod.snd (he'.symm.trans henq)
  have hstate₁ : (({ k.setPcb k.current f with queues := Q } : Kernel).pcbs k.current).state
      = .sleeping := by
    change ((k.setPcb k.current f).pcbs k.current).state = _
    rw [hself, hstate]
  have hon : ∀ q, Aside q → ∀ x, x ∈ ({ k.setPcb k.current f with queues := Q } : Kernel).on q
      ↔ x ∈ k.on q ∨ q = .sleeping ∧ x = k.current := by
    intro q hq x
    rcases enque_eq he' with hsame | ⟨n, hsame⟩
    · have hcon : k.current ∈ (k.setPcb k.current f).on .sleeping := by
        rw [← hsame]
        refine (hpl.mem k.current .sleeping).mpr ⟨id, ?_⟩
        rw [home, hstate₁]
      exact absurd hcon (g.current_not_on _)
    · rw [hsame, on_update]
      split
      · rename_i hqs
        rw [mem_insertItem, hqs, or_comm]
        simp only [true_and]
        exact Iff.rfl
      · rename_i hqs
        simp only [hqs, false_and, or_false]
        exact Iff.rfl
  refine .device hpl ?_ (fun q hq x hx hne => ?_) (fun q hq x hx => (hon q hq x).mpr (.inl hx)) ?_
  · refine (family_queues _ hstk).trans (family_setPcb_same k _ (hfam _ g.running))
  · exact ((hon q hq x).mp hx).resolve_right fun hc => hne hc.2
  · rw [hstate₁]
    exact .sleeps rfl he hm

theorem Good.until_sysSleep (g : Good k) {r : Kernel × Bool} (he : e.Calls 7)
    (harg : e.arg 1 = k.arg k.current 1) (h : UpTo.sysSleep k k.current = .ok r) :
    Until k e r := by
  simp only [UpTo.sysSleep] at h
  split at h
  · rename_i hm
    obtain ⟨k', hk', hpl, hfam, -⟩ := g.yield
    rw [hk'] at h
    obtain rfl := Except.ok.inj h
    refine .call .quiet trivial hpl hfam (.schedule hk') ?_
    rw [schedule_pcbs hk', if_pos rfl]
    exact .preempted rfl (.inr ⟨he, harg.trans hm⟩)
  · rename_i hm
    split at h
    · rename_i k₁ henq
      obtain rfl := Except.ok.inj h
      refine g.until_asleep he (harg ▸ hm) (fun y => rfl) (fun y hy => ?_) henq
      simp [Pcb.member, hy, PState.mode]
    · cases h

theorem Good.until_sysKill (g : Good k) {r : Kernel × Bool}
    (ha : ∀ v, (k.pcbs v).pid = (k.arg k.current 1).setWidth 16 →
      Explains k.family k.current e (.terminate v .killed exitKilled))
    (h : UpTo.sysKill k k.current = .ok r) : Until k e r := by
  have hret : ∀ v, UpTo.plain (.ok (k.setRet k.current v)) = .ok r → Until k e r := by
    intro v hv
    refine Until.plain hv (g.setRet .quiet ..) fun k' hk' => ?_
    rw [← Except.ok.inj hk']
    exact ⟨.of_queues rfl, rfl⟩
  have hfrom : ∀ {v : PcbId} {q : PQueue}, (k.pcbs v).pid = (k.arg k.current 1).setWidth 16 →
      (k.pcbs v).state.mode.Live → home (k.pcbs v) = some q →
      UpTo.killFrom k k.current v q = .ok r → Until k e r := by
    intro v q hv hlive hq hk
    obtain ⟨hne, Q, hrem, hpl, hstk⟩ := g.takeFrom hq
    simp only [UpTo.killFrom, hrem] at hk
    obtain ⟨-, n, hQ⟩ := remove_eq hrem
    refine g.until_kill (ha v hv) hlive (by rwa [if_neg hne]) (family_queues k hstk) rfl
      (fun q' _ x hx => ?_) (fun q' _ x hx hxv => ?_) hk
    · rw [hQ, on_update] at hx
      split at hx
      · rename_i he
        exact he ▸ List.mem_of_mem_erase hx
      · exact hx
    · rw [hQ, on_update]
      split
      · rename_i he
        exact (List.mem_erase_of_ne hxv).mpr (he ▸ hx)
      · exact hx
  rw [UpTo.sysKill] at h
  split at h
  · exact hret _ h
  · rename_i v hfind
    have hv : (k.pcbs v).pid = _ := Family.find_eq_some (f := k.family) hfind
    cases hs : (k.pcbs v).state with
    | waiting =>
        simp only [hs] at h
        exact hfrom hv (by rw [hs]; exact .inr rfl) (by simp [home, hs]) h
    | sleeping =>
        simp only [hs] at h
        exact hfrom hv (by rw [hs]; exact .inl rfl) (by simp [home, hs]) h
    | blocked =>
        simp only [hs] at h
        exact hfrom hv (by rw [hs]; exact .inl rfl) (by simp [home, hs]) h
    | ready =>
        simp only [hs] at h
        exact hfrom hv (by rw [hs]; exact .inl rfl) (by simp only [home, hs]) h
    | running =>
        simp only [hs] at h
        obtain rfl : k.current = v := Option.some.inj ((g.placed.running v id).mp hs)
        exact g.until_kill (ha _ hv) (.inl g.active) (by rw [if_pos rfl]; exact g.stop) rfl rfl
          (fun _ _ _ hx => hx) (fun _ _ _ hx _ => hx) h
    | killed | zombie =>
        simp only [hs] at h
        exact hret _ h
    | invalid | free | new =>
        simp only [hs] at h
        cases h

theorem Good.until_sysWait (g : Good k) {r : Kernel × Bool} (he : e.Calls 6)
    (hb : Explains k.family k.current e (.block k.current))
    (hz : ∀ z, Explains k.family k.current e (.reap k.current z))
    (h : UpTo.sysWait k k.current = .ok r) : Until k e r := by
  by_cases hc : (k.pcbs k.current).children = 0
  · rw [UpTo.sysWait, if_pos hc] at h
    refine Until.plain (r := .ok (k.setRet k.current Status.noChild.word)) h (g.setRet .quiet ..)
      fun k' hk' => ?_
    rw [← Except.ok.inj hk']
    exact ⟨.of_queues rfl, rfl⟩
  have hpid : (k.pcbs k.current).pid ≠ -1 :=
    g.family.pid_ne_free (p := k.current) (by rw [g.active]; exact fun hc => by cases hc)
  obtain ⟨k₁, hsearch, hsame⟩ := findZombie_ok hpid
  obtain ⟨⟨c, k₂⟩, hfind, hloop⟩ := bind_eq_ok.mp hsearch
  simp only at hloop
  obtain ⟨curr, tgt, rfl⟩ : ∃ curr tgt, k₁ = { k with childCurr := curr, childTarget := tgt } :=
    ⟨_, _, hsame⟩
  have g₁ : Good { k with childCurr := curr, childTarget := tgt } := g.congr rfl rfl rfl rfl
  rw [UpTo.sysWait, if_neg hc, hfind, ok_bind] at h
  simp only [hloop, ok_bind] at h
  rw [kidsFrom_zero] at hloop h
  cases hfound : ((List.finRange nPcbs).filter fun z =>
      (k.pcbs z).ppid == (k.pcbs k.current).pid).find?
      fun z => decide ((k.pcbs z).state = .zombie) with
  | some z =>
      have hzombie : (k.pcbs z).state = .zombie := by simpa using List.find?_some hfound
      have hkid : (k.pcbs z).ppid = (k.pcbs k.current).pid := by
        simpa using List.mem_of_find?_eq_some hfound
      obtain ⟨Q, hrem, hcol⟩ := collect_spec g₁ hzombie hkid
      rw [hfound] at h
      simp only [hrem] at h
      obtain rfl := Except.ok.inj h
      have hrest := Resting.remove hrem (not_aside (by simp) (by simp))
      have hdone : Resting k (pcbCleanup (deliver ({ k with
          childCurr := curr, childTarget := tgt, queues := Q }.setPcb k.current
            fun x => { x with children := x.children - 1 }) k.current z) z) :=
        Resting.trans (fun q hq => hrest q hq) (.pcbCleanup _ z)
      have hcur : (pcbCleanup (deliver _ k.current z) z).current = k.current := hcol.current
      have hpl := hcol.placed
      rw [hcur] at hpl
      exact ⟨hpl, ⟨_, hz z, ⟨g.active, hc, mode_eq_zombie.mpr hzombie, hkid⟩, hcol.family⟩,
        fun q hq _ hx _ => hdone q hq ▸ hx, fun q hq _ hx => .inl (hdone q hq ▸ hx),
        fun hc => by cases hc⟩
  | none =>
      have h1 := g₁.stop.setOff (Set.mem_singleton _) fun x => { x with state := .waiting }
      obtain ⟨Q, henq, hpl, hstk⟩ := h1.enque (q := .waiting) (Set.mem_singleton _)
        (by rw [setPcb_self]; rfl) (by
          rw [setPcb_self]
          refine ⟨fun hc => ?_, fun hc => ?_, fun hc => ?_⟩
          all_goals cases hc)
      rw [Set.sdiff_self] at hpl
      rw [hfound] at h
      simp only [henq] at h
      obtain rfl := Except.ok.inj h
      have hrest := Resting.enque henq (not_aside (by simp) (by simp))
      refine .call hb ⟨g.active, hc, fun z hm hkid => ?_⟩ hpl ?_
        (fun q hq => hrest q hq) ?_
      · refine absurd (List.find?_eq_none.mp hfound z ?_) (by simp [mode_eq_zombie.mp hm])
        exact List.mem_filter.mpr ⟨List.mem_finRange z, by simpa using hkid⟩
      · rw [family_queues _ hstk, family_setPcb]
        rfl
      · have hstate : (({ k with childCurr := curr, childTarget := tgt }.setPcb k.current
            fun x => { x with state := .waiting }).pcbs k.current).state = .waiting := by
          rw [setPcb_self]
        exact (congrArg (Moves k.family k.current e k.current .running) hstate).mpr (.waits rfl he)

theorem wakeLoop_aside : ∀ (fuel : Nat) {k : Kernel}, wakeLoop fuel k = .ok k' →
    k'.on .sleeping ⊆ k.on .sleeping ∧ k'.on .reading = k.on .reading
  | 0, _, h => by cases h
  | fuel + 1, k, h => by
      rcases wakeLoop_round h with rfl | ⟨p, k₁, k₂, hd, hs, h⟩
      · exact ⟨fun _ hx => hx, rfl⟩
      · obtain ⟨hsub, hread⟩ := wakeLoop_aside fuel h
        have hr := Resting.schedule hs
        obtain ⟨n, l, hl, rfl⟩ := deque_eq hd
        rw [hr _ (.inl rfl), on_update, if_pos rfl] at hsub
        rw [hr _ (.inr rfl), on_update, if_neg (by simp)] at hread
        exact ⟨fun x hx => hl ▸ List.mem_cons_of_mem _ (hsub hx), hread⟩

/-- A tick: sleepers wake, and the running process may have to go. -/
theorem Good.until_clkIsr (g : Good k) {r : Kernel × Bool} (he : e.Tick)
    (h : UpTo.clkIsr k = .ok r) : Until k e r := by
  have g₁ : Good { k with
      pinwheel := if k.pinwheel + 1 = 100 then 0 else k.pinwheel + 1, now := k.now + 1 } :=
    g.congr rfl rfl rfl rfl
  obtain ⟨k₂, hk₂, h2, hf2, hc2⟩ := wakeLoop_spec ((k.on .sleeping).length + 1) _ _ g₁.placed
    (Nat.lt_succ_self _)
  have hk₂' : wakeLoop (k.queues.size (.pcbs .sleeping) + 1) _ = _ := hk₂
  obtain ⟨hsub, hread⟩ := wakeLoop_aside _ hk₂
  have hcur : k₂.current = k.current := hc2
  rw [UpTo.clkIsr] at h
  simp only [hk₂', ok_bind] at h
  generalize hk₃ : (k₂.setPcb k₂.current fun x => { x with qTicks := x.qTicks - 1 }) = k₃ at h
  have hpl : Placed k₃ ∅ (some k.current) := by
    rw [← hk₃]
    exact h2.set _ rfl fun _ => rfl
  have hf3 : k₃.family = k.family := by
    rw [← hk₃]
    exact (family_setPcb_same k₂ _ rfl).trans hf2
  have hon : ∀ q, k₃.on q = k₂.on q := fun q => hk₃ ▸ rfl
  have hc3 : k₃.current = k.current := hk₃ ▸ hcur
  -- who is on a queue for a device afterwards was there before
  have hjoins : ∀ {k' : Kernel}, Resting k₃ k' → ∀ q, Aside q → ∀ x ∈ k'.on q,
      x ≠ k.current → x ∈ k.on q := by
    intro k' hr q hq x hx _
    rw [hr q hq, hon q] at hx
    rcases hq with rfl | rfl
    · exact hsub hx
    · exact hread ▸ hx
  have hleaves : ∀ {k' : Kernel}, Resting k₃ k' → ∀ q, Aside q → ∀ x ∈ k.on q,
      x ∈ k'.on q ∨ q = .sleeping ∧ e.Tick ∨ q = .reading ∧ e.Serial
        ∨ (k'.pcbs x).state.mode ≠ .active := by
    intro k' hr q hq x hx
    rcases hq with rfl | rfl
    · exact .inr (.inl ⟨rfl, he⟩)
    · refine .inl ?_
      rw [hr _ (.inr rfl), hon, hread]
      exact hx
  split at h
  · have g₃ : Good k₃ := ⟨hc3 ▸ hpl, hf3 ▸ g.family⟩
    obtain ⟨k', hk', hpl', hf', -⟩ := g₃.yield
    rw [hc3] at hk'
    rw [show k₂.current = k.current from hcur, hk'] at h
    obtain rfl := Except.ok.inj h
    refine ⟨hpl', ⟨.quiet, .quiet, trivial, hf'.trans hf3⟩, hjoins (.schedule hk'),
      hleaves (.schedule hk'), fun _ => ?_⟩
    rw [schedule_pcbs hk', if_pos rfl]
    exact .preempted rfl (.inl he)
  · obtain rfl := Except.ok.inj h
    exact ⟨hpl, ⟨.quiet, .quiet, trivial, hf3⟩, hjoins (.refl _), hleaves (.refl _),
      fun hc => by cases hc⟩

theorem sioEvent_aside {ev : SioEvent} (h : sioEvent k ev = .ok k') :
    k'.on .sleeping = k.on .sleeping ∧ k'.on .reading ⊆ k.on .reading
      ∧ k'.current = k.current := by
  cases ev with
  | lineStatus | rxTimeout ch | modemStatus | tx =>
      exact Except.ok.inj h ▸ ⟨rfl, fun _ hx => hx, rfl⟩
  | unknown => cases h
  | rx ch =>
      rcases sioEvent_rx h with ⟨-, rfl⟩ | ⟨p, l, k₁, hq, hd, hs⟩
      · exact ⟨rfl, fun _ hx => hx, rfl⟩
      · have hr := Resting.schedule hs
        obtain ⟨n, l', hq', rfl⟩ := deque_eq hd
        refine ⟨?_, fun x hx => ?_, ?_⟩
        · rw [hr _ (.inl rfl)]
          exact (on_update k _ _ _ _).trans (if_neg (by simp))
        · rw [hr _ (.inr rfl)] at hx
          have hon : x ∈ l' := by
            rw [← (on_update k .reading .reading l' n).trans (if_pos rfl)]
            exact hx
          exact hq' ▸ List.mem_cons_of_mem _ hon
        · obtain ⟨m, rfl⟩ := schedule_eq hs
          rfl

theorem sioIsr_aside : ∀ (pending : List SioEvent) {k : Kernel}, sioIsr pending k = .ok k' →
    k'.on .sleeping = k.on .sleeping ∧ k'.on .reading ⊆ k.on .reading
      ∧ k'.current = k.current
  | [], k, h => Except.ok.inj h ▸ ⟨rfl, fun _ hx => hx, rfl⟩
  | ev :: pending, k, h => by
      rw [sioIsr, List.foldlM_cons] at h
      obtain ⟨k₁, hk₁, h⟩ := bind_eq_ok.mp h
      obtain ⟨h1, h2, h3⟩ := sioEvent_aside hk₁
      obtain ⟨h1', h2', h3'⟩ := sioIsr_aside pending h
      exact ⟨h1'.trans h1, fun _ hx => h2 (h2' hx), h3'.trans h3⟩

theorem Good.until_sioIsr (g : Good k) {pending : List SioEvent} {r : Kernel × Bool}
    (he : e.Serial) (h : UpTo.plain (sioIsr pending k) = .ok r) : Until k e r := by
  have hspec := sioIsr_spec pending g
  cases hk : sioIsr pending k with
  | error f =>
      rw [hk] at h
      cases h
  | ok k' =>
      rw [hk] at h hspec
      obtain rfl := Except.ok.inj h
      obtain ⟨hsleep, hread, hcur⟩ := sioIsr_aside pending hk
      refine ⟨?_, ⟨.quiet, .quiet, trivial, hspec.2⟩, fun q hq x hx _ => ?_, fun q hq x hx => ?_,
        nofun⟩
      · rw [← hcur]
        exact hspec.1.placed
      · rcases hq with rfl | rfl
        · exact hsleep ▸ hx
        · exact hread hx
      · rcases hq with rfl | rfl
        · exact .inl (hsleep ▸ hx)
        · exact .inr (.inr (.inl ⟨rfl, he⟩))

/-! ### All handlers -/

theorem Good.until_sysIsr {keys : List Byte} {r : Kernel × Bool} (g : Good k)
    (hctx : (k.pcbs k.current).context = frame) (h : UpTo.sysIsr keys k = .ok r) :
    Until k (.interrupt frame (.syscall keys)) r := by
  have harg : ∀ n, k.arg k.current n = frame.args n := fun n => by rw [Kernel.arg, hctx]
  simp only [UpTo.sysIsr, hctx] at h
  split at h
  · rename_i hcode
    -- the handler of exit finds the status in the patched argument
    have g' := g.setArg k.current 1 exitBadCode
    have hf : (k.setArg k.current 1 exitBadCode).family = k.family := family_setPcb_same k _ rfl
    have harg' : (k.setArg k.current 1 exitBadCode).arg k.current 1 = exitBadCode := by
      rw [Kernel.arg, Kernel.setArg, setPcb_self]
      simp only [Function.update_self]
    refine Until.of_same (g'.until_die .zombie exitBadCode (.badCode hcode) (.inr rfl)
      (fun y => ?_) h) hf rfl rfl
    rw [harg']
    rfl
  · rename_i hcode
    have hlt : frame.regs.eax.toNat < 13 := Nat.lt_of_not_le hcode
    have heax : frame.regs.eax = BitVec.ofNat 32 frame.regs.eax.toNat := by
      rw [BitVec.ofNat_toNat, BitVec.setWidth_eq]
    have hret : ∀ v, UpTo.plain (.ok (k.setRet k.current v)) = .ok r →
        Until k (.interrupt frame (.syscall keys)) r := by
      intro v hv
      refine Until.plain hv (g.setRet .quiet ..) fun k' hk' => ?_
      rw [← Except.ok.inj hk']
      exact ⟨.of_queues rfl, rfl⟩
    generalize frame.regs.eax.toNat = n at h hlt heax
    interval_cases n
    · exact g.until_die .zombie (k.arg k.current 1) (harg 1 ▸ .exit heax) (.inr rfl)
        (fun _ => rfl) h
    · exact g.until_sysRead heax h
    · refine Until.plain h (sysWrite_spec g .quiet) fun k' hk' =>
        ⟨.of_queues (sysWrite_queues hk'), ?_⟩
      simp only [sysWrite] at hk'
      split at hk'
      · exact Except.ok.inj hk' ▸ rfl
      · split at hk' <;> exact Except.ok.inj hk' ▸ rfl
    · exact Until.plain h (sysFork_spec g .quiet fun _ _ => .fork heax) fun k' hk' =>
        Resting.sysFork hk'
    · refine Until.plain h (sysExec_spec g .quiet) fun k' hk' =>
        ⟨.of_queues (sysExec_queues hk'), ?_⟩
      obtain ⟨⟨memory, mm⟩, -, hk'⟩ := bind_eq_ok.mp hk'
      exact Except.ok.inj hk' ▸ rfl
    · exact g.until_sysKill (fun v hv => .kill heax (harg 1 ▸ hv)) h
    · exact g.until_sysWait heax (.block heax) (fun _ => .reap heax) h
    · exact g.until_sysSleep heax (harg 1).symm h
    · exact hret _ h
    · exact hret _ h
    · exact hret _ h
    · refine Until.plain h (sysMmap_spec g .quiet) fun k' hk' =>
        ⟨.of_queues (sysMmap_queues hk'), ?_⟩
      obtain ⟨⟨_, st, mm⟩, -, hk'⟩ := bind_eq_ok.mp hk'
      exact Except.ok.inj hk' ▸ rfl
    · cases h

/-- What every handler does before it ends or calls `_dispatch`. -/
theorem Good.until (g : Good k) {cause : Cause} {r : Kernel × Bool}
    (h : UpTo.handle (SpKernel.isrSave k frame) cause = .ok r) :
    Until k (.interrupt frame cause) r := by
  have g' := g.isrSave frame
  suffices hu : Until (SpKernel.isrSave k frame) (.interrupt frame cause) r from
    hu.of_same (isrSave_family k frame) rfl rfl
  cases cause with
  | syscall keys => exact g'.until_sysIsr (isrSave_context k frame) h
  | clock => exact g'.until_clkIsr trivial h
  | serial pending => exact g'.until_sioIsr trivial h
  | keyboard code =>
      refine Until.plain (r := .ok { SpKernel.isrSave k frame with
        console := cInputScanCode k.console code }) h
        (.quiet .quiet (g'.placed.congr rfl rfl) rfl) fun k' hk' => ?_
      rw [← Except.ok.inj hk']
      exact ⟨.of_queues rfl, rfl⟩
  | pageFault =>
      exact g'.until_die .killed exitKilled .pageFault (.inl rfl) (fun _ => rfl) h

end SpKernel
