import SpKernel.Lineage
import SpKernel.Transitions

/-!
# The life of a process

Every event moves every process along the diagram `Moves`, and the
dispatcher lets one of those that are ready run (`process_lifecycle`).
The proof compares two pictures of the state after the event: the modes
of the family, of which `Inv.turns` says how an act can change them, and
the two queues of those who wait for a device. A state is determined by
the two (`state_eq_of_mode`).

Two things follow for whole runs.

- A process that has been killed while its parent was not waiting is
  never heard of again: no edge leaves that state, so its PCB and its
  stack are lost (`killed_lost`).
- A process that never waits for anything and is not ended, as the idle
  process is meant to be, is always ready when the dispatcher looks for
  one (`dispatcher_never_starved`). `Unhindered` is the condition on the
  events of the run: none of them ends the process, and it makes no call
  by which it would wait.
-/

namespace SpKernel

open Lib

variable {image : Image} {mm : MemMgr} {pages : Nat} {k₀ k k' : Kernel}
  {tr : List (Kernel × Event)} {e : Event} {x : PcbId}

/-! ## Modes -/

namespace Family

variable {f : Family} {a : Act}

/-- What an act does to the mode of `x`. -/
inductive Turns (f : Family) (x : PcbId) : Act → Mode → Prop
  | same (a : Act) : Turns f x a (f.members x).mode
  | born (p : PcbId) (stk : StackId) : Turns f x (.fork p x stk) .active
  | blocked : Turns f x (.block x) .waiting
  | reaped (p : PcbId) : Turns f x (.reap p x) .free
  | died (m' m : Mode) (status : Word) : Turns f x (.terminate x m status) m'
  | told {v : PcbId} (m : Mode) (status : Word) : v ≠ x → (f.members x).mode = .waiting →
      (f.members v).ppid = (f.members x).pid → Turns f x (.terminate v m status) .active

theorem Inv.turns (h : f.Inv) (hen : a.Enabled f) (x : PcbId) :
    Turns f x a ((a.apply f).members x).mode := by
  cases a with
  | quiet => exact .same _
  | fork p new stk =>
      by_cases hx : x = new
      · have hne : new ≠ p := ne_of_mode hen.1 hen.2.1 (by simp)
        subst hx
        rw [Act.apply, fork_members, if_neg hne, if_pos rfl]
        exact .born p stk
      · rw [Act.apply, (fork_old f p stk hx).1]
        exact .same _
  | block p =>
      rw [Act.apply, block, members_set]
      split
      · rename_i hx
        subst hx
        exact .blocked
      · exact .same _
  | reap p z =>
      have hne : z ≠ p := ne_of_mode hen.1 hen.2.2.1 (by simp)
      rw [Act.apply, reap_members hne]
      split
      · rename_i hx
        subst hx
        exact .reaped p
      · split
        · rename_i hx
          subst hx
          exact .same _
        · exact .same _
  | terminate v m status =>
      by_cases hv : x = v
      · subst hv
        exact .died ..
      have horphan : ((f.orphan v m status).members x).mode = (f.members x).mode := by
        rw [orphan_mode, if_neg hv]
      rw [Act.apply]
      obtain ⟨q, -, hpid, ⟨hl, -⟩ | ⟨hl, hw, hne, hinit⟩⟩ := h.terminate_cases hen
      · rw [hl, horphan]
        exact .same _
      · rw [hl, wake_members _ hne]
        split
        · rename_i hx
          subst hx
          -- nobody but `init` is its own parent, so the parent of `v` has not changed
          rw [orphan_pid, orphan_ppid,
            if_neg fun he => hinit (h.notSelf v hen.1.ne_free he)] at hpid
          exact .told m status (Ne.symm hv) (horphan ▸ hw) hpid.symm
        · rw [horphan]
          exact .same _

end Family

/-! ## The diagram is followed -/

/-- The states an active process that does not run can be in. -/
theorem Placed.idle_cases {run : Option PcbId} (h : Placed k ∅ run) (hne : run ≠ some x)
    (hm : (k.pcbs x).state.mode = .active) : (k.pcbs x).state = .ready
      ∨ (k.pcbs x).state = .sleeping ∧ x ∈ k.on .sleeping
      ∨ (k.pcbs x).state = .blocked ∧ x ∈ k.on .reading := by
  have hl := h.legal x id
  have hrun : (k.pcbs x).state ≠ .running := fun hc => hne ((h.running x id).mp hc)
  cases hs : (k.pcbs x).state with
  | ready => exact .inl rfl
  | sleeping => exact .inr (.inl ⟨rfl, (h.mem x _).mpr ⟨id, by rw [home, hs]⟩⟩)
  | blocked => exact .inr (.inr ⟨rfl, (h.mem x _).mpr ⟨id, by rw [home, hs]⟩⟩)
  | running => exact absurd hs hrun
  | new => exact absurd hs hl.new
  | invalid => exact absurd hs hl.invalid
  | free | waiting | killed | zombie =>
      rw [hs] at hm
      cases hm

theorem Good.idle_cases (g : Good k) (hx : x ≠ k.current)
    (hm : (k.pcbs x).state.mode = .active) : (k.pcbs x).state = .ready
      ∨ (k.pcbs x).state = .sleeping ∧ x ∈ k.on .sleeping
      ∨ (k.pcbs x).state = .blocked ∧ x ∈ k.on .reading :=
  g.placed.idle_cases (fun hc => hx (Option.some.inj hc).symm) hm

theorem state_eq_of_mode {s s' : PState} (h : s'.mode = s.mode) (hs : s.mode ≠ .active) :
    s' = s := by
  cases s <;> cases s' <;> first | rfl | exact absurd rfl hs | cases h

variable {r : Kernel × Bool}

/-- Who has not been waiting for a device is ready when it is active. -/
theorem Until.ready (h : Until k e r) (hx : x ≠ k.current) (hq : ∀ q, Aside q → x ∉ k.on q)
    (hm : (r.1.pcbs x).state.mode = .active) : (r.1.pcbs x).state = .ready := by
  have hne : (if r.2 then none else some k.current) ≠ some x := by
    split
    · exact nofun
    · exact fun hc => hx (Option.some.inj hc).symm
  rcases h.placed.idle_cases hne hm with hs | ⟨-, hon⟩ | ⟨-, hon⟩
  · exact hs
  · exact absurd (h.joins _ (.inl rfl) x hon hx) (hq _ (.inl rfl))
  · exact absurd (h.joins _ (.inr rfl) x hon hx) (hq _ (.inr rfl))

theorem Good.not_aside (g : Good k) (hs : (k.pcbs x).state ≠ .sleeping)
    (hb : (k.pcbs x).state ≠ .blocked) : ∀ q, Aside q → x ∉ k.on q := by
  rintro q (rfl | rfl) hx
  · have := ((g.placed.mem x _).mp hx).2
    cases hst : (k.pcbs x).state <;> simp [home, hst] at this hs
  · have := ((g.placed.mem x _).mp hx).2
    cases hst : (k.pcbs x).state <;> simp [home, hst] at this hb

/-- A process that stays active and is not the running one. -/
theorem Until.moves_active (g : Good k) (h : Until k e r) (hx : x ≠ k.current)
    (hm : (k.pcbs x).state.mode = .active) (hm' : (r.1.pcbs x).state.mode = .active) :
    Moves k.family k.current e x (k.pcbs x).state (r.1.pcbs x).state := by
  have hne : (if r.2 then none else some k.current) ≠ some x := by
    split
    · exact nofun
    · exact fun hc => hx (Option.some.inj hc).symm
  have hidle := h.placed.idle_cases hne hm'
  rcases g.idle_cases hx hm with hs | ⟨hs, hon⟩ | ⟨hs, hon⟩
  · have hs' := h.ready hx (g.not_aside (by simp [hs]) (by simp [hs])) hm'
    rw [hs, hs']
    exact .stays _
  · rw [hs]
    rcases hidle with hs' | ⟨hs', -⟩ | ⟨-, hon'⟩
    · rw [hs']
      rcases h.leaves _ (.inl rfl) x hon with hstay | ⟨-, ht⟩ | ⟨hq, -⟩ | hact
      · have := ((h.placed.mem x _).mp hstay).2
        simp [home, hs'] at this
      · exact .wakes ht
      · cases hq
      · exact absurd hm' hact
    · rw [hs']
      exact .stays _
    · have := ((g.placed.mem x _).mp (h.joins _ (.inr rfl) x hon' hx)).2
      simp [home, hs] at this
  · rw [hs]
    rcases hidle with hs' | ⟨-, hon'⟩ | ⟨hs', -⟩
    · rw [hs']
      rcases h.leaves _ (.inr rfl) x hon with hstay | ⟨hq, -⟩ | ⟨-, ht⟩ | hact
      · have := ((h.placed.mem x _).mp hstay).2
        simp [home, hs'] at this
      · cases hq
      · exact .served ht
      · exact absurd hm' hact
    · have := ((g.placed.mem x _).mp (h.joins _ (.inl rfl) x hon' hx)).2
      simp [home, hs] at this
    · rw [hs']
      exact .stays _

/-- Up to the dispatcher, every process moves along the diagram. -/
theorem Until.moves (g : Good k) (h : Until k e r) (x : PcbId) :
    Moves k.family k.current e x (k.pcbs x).state (r.1.pcbs x).state := by
  by_cases hx : x = k.current
  · subst hx
    rw [g.running]
    cases hd : r.2 with
    | true => exact h.gives hd
    | false =>
        have hpl := h.placed
        rw [hd] at hpl
        rw [(hpl.running k.current id).mpr rfl]
        exact .stays _
  obtain ⟨a, ha, hen, hf⟩ := h.act
  have hmode : (r.1.pcbs x).state.mode = ((a.apply k.family).members x).mode := hf ▸ rfl
  have hturn := g.family.turns hen x
  rw [← hmode] at hturn
  generalize hm : (r.1.pcbs x).state.mode = m at hturn
  cases hturn with
  | same =>
      by_cases hact : (k.pcbs x).state.mode = .active
      · exact h.moves_active g hx hact (hm.trans hact)
      · rw [state_eq_of_mode hm hact]
        exact .stays _
  | born p stk =>
      have hfree : (k.pcbs x).state = .free := mode_eq_free.mp hen.2.1
      cases ha with
      | fork he =>
          rw [hfree, h.ready hx (g.not_aside (by simp [hfree]) (by simp [hfree])) hm]
          exact .born he
  | blocked =>
      cases ha with
      | block he => exact absurd rfl hx
  | reaped p =>
      have hz : (k.pcbs x).state = .zombie := mode_eq_zombie.mp hen.2.2.1
      cases ha with
      | reap he =>
          rw [hz, mode_eq_free.mp hm]
          exact .collected he hen.2.2.2
  | died m' m status => exact .died ha hen (died_state g.family hen hf)
  | told m status hv hw hp =>
      have hwait : (k.pcbs x).state = .waiting := mode_eq_waiting.mp hw
      rw [hwait, h.ready hx (g.not_aside (by simp [hwait]) (by simp [hwait])) hm]
      exact .told hv ha hen hp

/-- What happens in the course of an event: the handler moves everybody
along the diagram, and then `_dispatch`, if it is called, lets one of the
ready processes run. -/
theorem Good.step_until (g : Good k) {frame : Frame} {cause : Cause}
    (h : SpKernel.step k (.interrupt frame cause) = .ok k') :
    ∃ r, Until k (.interrupt frame cause) r ∧ (r.2 = false ∧ k'.pcbs = r.1.pcbs
        ∨ r.2 = true ∧ (r.1.pcbs k'.current).state = .ready
          ∧ ∀ x, k'.pcbs x = if x = k'.current then (r.1.pcbs x).makeRunning else r.1.pcbs x) := by
  obtain ⟨k₂, hk₂, h⟩ := bind_eq_ok.mp h
  rw [UpTo.handle_eq] at hk₂
  obtain ⟨⟨k₁, d⟩, hk₁, hk₂⟩ := bind_eq_ok.mp hk₂
  obtain rfl := Except.ok.inj h
  have hu := g.until hk₁
  refine ⟨(k₁, d), hu, ?_⟩
  cases d with
  | false =>
      obtain rfl := Except.ok.inj hk₂
      exact .inl ⟨rfl, rfl⟩
  | true =>
      obtain ⟨prio, p, hd⟩ := dispatch_eq hk₂
      have hp : p ∈ k₁.on (.ready prio) := hd.front ▸ List.mem_cons_self ..
      have hcur : (isrRestore k₂).current = p := hd.current
      refine .inr ⟨rfl, ?_, fun x => ?_⟩
      · rw [hcur]
        have := ((hu.placed.mem p _).mp hp).2
        cases hs : (k₁.pcbs p).state <;> simp [home, hs] at this ⊢
      · rw [hcur]
        refine (hd.pcbs x).trans ?_
        split
        · rename_i hx
          rw [hx]
        · rfl

theorem Good.step_moves (g : Good k) (h : SpKernel.step k e = .ok k') (x : PcbId) :
    Moves k.family k.current e x (k.pcbs x).state (k'.pcbs x).state
      ∨ (k'.pcbs x).state = .running ∧ x = k'.current
        ∧ Moves k.family k.current e x (k.pcbs x).state .ready := by
  cases e with
  | store a b =>
      obtain rfl := Except.ok.inj h
      exact .inl (.stays _)
  | interrupt frame cause =>
      obtain ⟨r, hu, ⟨-, hp⟩ | ⟨-, hready, hp⟩⟩ := g.step_until h
      · rw [hp]
        exact .inl (hu.moves g x)
      · by_cases hx : x = k'.current
        · refine .inr ⟨?_, hx, ?_⟩
          · rw [hp x, if_pos hx]
            rfl
          · have hmoves := hu.moves g x
            rwa [hx, hready, ← hx] at hmoves
        · rw [hp x, if_neg hx]
          exact .inl (hu.moves g x)

/-- In every event of every run each process moves along the diagram, or
is made ready along it and dispatched. So a sleeper is woken by the clock
only, a reader by the serial line only, a process that waits for a child by
the end of one only; the running process goes for one of seven reasons;
and whoever is dead stays dead, until its parent collects it. -/
theorem process_lifecycle (h0 : init image mm pages = .ok k₀) (hrun : Steps step k₀ tr k)
    (h : step k e = .ok k') (x : PcbId) :
    Moves k.family k.current e x (k.pcbs x).state (k'.pcbs x).state
      ∨ (k'.pcbs x).state = .running ∧ x = k'.current
        ∧ Moves k.family k.current e x (k.pcbs x).state .ready :=
  (reachable_good h0 hrun).step_moves h x

/-- A child that is ready, and runs when its parent starts to wait. -/
theorem process_lifecycle_wait : ∃ k₀ tr k k', init someImage lowPageUsed 0 = .ok k₀
    ∧ Steps step k₀ tr k ∧ step k (call 6 0 0 0) = .ok k' ∧ (k.pcbs 1).state = .ready
    ∧ (Moves k.family k.current (call 6 0 0 0) 1 (k.pcbs 1).state (k'.pcbs 1).state
      ∨ (k'.pcbs 1).state = .running ∧ 1 = k'.current
        ∧ Moves k.family k.current (call 6 0 0 0) 1 (k.pcbs 1).state .ready) := by
  obtain ⟨k₀, tr, k, h0, hrun, -, ht⟩ := run_of_test [call 3 0 0 0]
    (fun k => decide ((k.pcbs 1).state = .ready) && okAnd (step k (call 6 0 0 0)) fun _ => true)
    (by decide +kernel)
  rw [Bool.and_eq_true, decide_eq_true_eq] at ht
  obtain ⟨k', hk', -⟩ := of_okAnd ht.2
  exact ⟨k₀, tr, k, k', h0, hrun, hk', ht.1, process_lifecycle h0 hrun hk' 1⟩

/-! ## Killed and never collected -/

theorem Moves.killed {f : Family} {p : PcbId} {s : PState} (h : Moves f p e x .killed s)
    (hx : (f.members x).mode = .killed) : s = .killed := by
  cases h with
  | stays => rfl
  | died ha hen _ => exact absurd (.inl hx) (fun hd : Mode.Dead _ => hd.not_live hen.1)

/-- Whoever is still there has kept its PID and its stack. -/
theorem Good.step_kept (g : Good k) (h : SpKernel.step k e = .ok k')
    (hx : (k.pcbs x).state ≠ .free) (hx' : (k'.pcbs x).state ≠ .free) :
    (k'.pcbs x).pid = (k.pcbs x).pid ∧ (k'.pcbs x).stack = (k.pcbs x).stack := by
  have hsim := step_sim g e
  rw [h] at hsim
  obtain ⟨-, a, -, hen, hf⟩ := hsim
  have hm : (k.family.members x).mode ≠ .free := fun hc => hx (mode_eq_free.mp hc)
  have hkept : Family.Kept k.family k'.family x := by
    rw [hf]
    rcases g.family.act_reports hen with hs | ⟨v, rep, hd, -⟩
    · exact hs.kept x hm
    · refine hd.kept x ?_ hm
      rintro rfl
      have hslot := hd.slot
      rw [← hf] at hslot
      exact hx' (mode_eq_free.mp hslot)
  exact ⟨hkept.pid, hkept.stack⟩

/-- A process that is in the state `PS_KILLED` in some state of a run stays
in it for the rest of the run: nobody collects it, and its PCB, its PID and
its stack are never free again. -/
theorem killed_lost (h0 : init image mm pages = .ok k₀) (hrun : Steps step k₀ tr k)
    (hx : (k.pcbs x).state = .killed) {tr' : List (Kernel × Event)}
    (hlater : Steps step k tr' k') :
    (k'.pcbs x).state = .killed ∧ (k'.pcbs x).pid = (k.pcbs x).pid
      ∧ (k'.pcbs x).stack = (k.pcbs x).stack ∧ x ∉ k'.on .free
      ∧ ∃ s, (k'.pcbs x).stack = some s ∧ s ∉ k'.freeStacks := by
  have g := reachable_good h0 hrun
  suffices hkept : Good k' ∧ (k'.pcbs x).state = .killed ∧ (k'.pcbs x).pid = (k.pcbs x).pid
      ∧ (k'.pcbs x).stack = (k.pcbs x).stack by
    obtain ⟨g', hs, hpid, hstk⟩ := hkept
    refine ⟨hs, hpid, hstk, fun hc => ?_, g'.family.owns x ?_⟩
    · rw [g'.mem_free, hs] at hc
      cases hc
    · rw [Kernel.family_members, Pcb.member_mode, hs]
      exact nofun
  refine hlater.inv (P := fun t => Good t ∧ (t.pcbs x).state = .killed
    ∧ (t.pcbs x).pid = (k.pcbs x).pid ∧ (t.pcbs x).stack = (k.pcbs x).stack) ?_ ⟨g, hx, rfl, rfl⟩
  rintro t e t' ⟨gt, hs, hpid, hstk⟩ hst
  have hmode : (t.family.members x).mode = .killed := mode_eq_killed.mpr hs
  have hs' : (t'.pcbs x).state = .killed := by
    rcases gt.step_moves hst x with hmoves | ⟨-, -, hmoves⟩
    · rw [hs] at hmoves
      exact hmoves.killed hmode
    · rw [hs] at hmoves
      cases hmoves.killed hmode
  obtain ⟨hpid', hstk'⟩ := gt.step_kept hst (by rw [hs]; exact nofun) (by rw [hs']; exact nofun)
  exact ⟨gt.step hst, hs', hpid'.trans hpid, hstk'.trans hstk⟩

/-- `init` forks and kills its child; waiting does not bring it back. -/
theorem killed_lost_child : ∃ k₀ tr k tr' k', init someImage lowPageUsed 0 = .ok k₀
    ∧ Steps step k₀ tr k ∧ (k.pcbs 1).state = .killed ∧ Steps step k tr' k' ∧ tr' ≠ []
    ∧ ((k'.pcbs 1).state = .killed ∧ (k'.pcbs 1).pid = (k.pcbs 1).pid
      ∧ (k'.pcbs 1).stack = (k.pcbs 1).stack ∧ 1 ∉ k'.on .free
      ∧ ∃ s, (k'.pcbs 1).stack = some s ∧ s ∉ k'.freeStacks) := by
  obtain ⟨k₀, tr, k, h0, hrun, -, ht⟩ := run_of_test
    [call 3 0 0 0, call 3 0 0 0, call 5 100 0 0]
    (fun k => decide ((k.pcbs 1).state = .killed) && okAnd (step k (call 6 0 0 0)) fun _ => true)
    (by decide +kernel)
  rw [Bool.and_eq_true, decide_eq_true_eq] at ht
  obtain ⟨k', hk', -⟩ := of_okAnd ht.2
  have hlater : Steps step k [(k, call 6 0 0 0)] k' := Steps.refl.tail hk'
  exact ⟨k₀, tr, k, _, k', h0, hrun, ht.1, hlater, List.cons_ne_nil _ _,
    killed_lost h0 hrun ht.1 hlater⟩

/-! ## A process that always runs -/

def PState.Runnable (s : PState) : Prop := s = .ready ∨ s = .running

/-- Nothing ends `i`, and it does not wait for anything. -/
structure Unhindered (i : PcbId) (k : Kernel) (e : Event) : Prop where
  lives : ¬Ends k e i
  runs : i = k.current → ¬e.Calls 1 ∧ ¬e.Calls 6 ∧ (e.Calls 7 → e.arg 1 = 0)

theorem Unhindered.runnable {i : PcbId} {s s' : PState} (h : Unhindered i k e)
    (hm : Moves k.family k.current e i s s') (hs : s.Runnable) : s'.Runnable := by
  cases hm with
  | stays => exact hs
  | preempted => exact .inl rfl
  | sleeps hi hc ha => exact absurd ((h.runs hi).2.2 hc) ha
  | reads hi hc => exact absurd hc (h.runs hi).1
  | waits hi hc => exact absurd hc (h.runs hi).2.1
  | died ha hen _ => exact absurd (ends_of_explains ha hen) h.lives
  | born | wakes | served | told | collected => rcases hs with hs | hs <;> cases hs

theorem Unhindered.step {i : PcbId} (h : Unhindered i k e) (g : Good k)
    (hs : (k.pcbs i).state.Runnable) (hst : SpKernel.step k e = .ok k') :
    (k'.pcbs i).state.Runnable := by
  rcases g.step_moves hst i with hm | ⟨hrun, -, -⟩
  · exact h.runnable hm hs
  · exact .inr hrun

/-- As long as some process is not ended and does not wait for anything,
`_dispatch` always finds a process, and the machine is not halted for the
want of one. -/
theorem dispatcher_never_starved (h0 : init image mm pages = .ok k₀)
    (hrun : Steps step k₀ tr k) {i : PcbId} (hi : (k.pcbs i).state.Runnable)
    {tr' : List (Kernel × Event)} (hlater : Steps step k tr' k')
    (hall : ∀ x ∈ tr', Unhindered i x.1 x.2) :
    (k'.pcbs i).state.Runnable
      ∧ ∀ e k₁, Unhindered i k' e → Dispatching k' e k₁ →
        (k₁.pcbs i).state = .ready ∧ ∃ k₂, dispatch k₁ = .ok k₂ := by
  have g := reachable_good h0 hrun
  obtain ⟨g', hi'⟩ : Good k' ∧ (k'.pcbs i).state.Runnable := by
    refine hlater.inv_of (P := fun t => Good t ∧ (t.pcbs i).state.Runnable) ?_ ⟨g, hi⟩ hall
    exact fun t e t' ⟨gt, hs⟩ hu hst => ⟨gt.step hst, hu.step gt hs hst⟩
  refine ⟨hi', fun e k₁ hu hd => ?_⟩
  cases e with
  | store a b => cases hd
  | interrupt frame cause =>
      have huntil := g'.until hd
      -- nobody runs when the dispatcher is called
      have hready : (k₁.pcbs i).state = .ready := by
        refine (hu.runnable (huntil.moves g' i) hi').resolve_right fun hc => ?_
        cases (huntil.placed.running i id).mp hc
      have hon : i ∈ k₁.on (.ready (Fin.ofNat nPrios (k₁.pcbs i).prio.toNat)) :=
        (huntil.placed.mem i _).mpr ⟨id, by rw [home, hready]⟩
      exact ⟨hready, dispatch_returns (List.ne_nil_of_mem hon)⟩

/-- The child of `init` runs on while `init` sleeps. -/
theorem dispatcher_never_starved_child : ∃ k₀ tr k tr' k', init someImage lowPageUsed 0 = .ok k₀
    ∧ Steps step k₀ tr k ∧ (k.pcbs 1).state.Runnable ∧ Steps step k tr' k'
    ∧ (∀ x ∈ tr', Unhindered 1 x.1 x.2) ∧ tr' ≠ []
    ∧ ((k'.pcbs 1).state.Runnable
      ∧ ∀ e k₁, Unhindered 1 k' e → Dispatching k' e k₁ →
        (k₁.pcbs 1).state = .ready ∧ ∃ k₂, dispatch k₁ = .ok k₂) := by
  obtain ⟨k₀, tr, k, h0, hrun, -, ht⟩ := run_of_test [call 3 0 0 0]
    (fun k => decide ((k.pcbs 1).state = .ready ∧ 1 ≠ k.current)
      && okAnd (step k (call 7 10 0 0)) fun _ => true) (by decide +kernel)
  rw [Bool.and_eq_true, decide_eq_true_eq] at ht
  obtain ⟨⟨hready, hcur⟩, ht⟩ := ht
  obtain ⟨k', hk', -⟩ := of_okAnd ht
  have hlater : Steps step k [(k, call 7 10 0 0)] k' := Steps.refl.tail hk'
  have hends : ∀ v, Ends k (call 7 10 0 0) v → v ≠ 1 := by
    intro v hv
    cases hv with
    | exit he => cases he
    | badCode he => exact hcur.symm
    | kill he _ _ => cases he
  have hall : ∀ x ∈ [(k, call 7 10 0 0)], Unhindered 1 x.1 x.2 := by
    intro x hx
    obtain rfl := List.mem_singleton.mp hx
    exact ⟨fun he => hends 1 he rfl, fun hc => absurd hc hcur⟩
  exact ⟨k₀, tr, k, _, k', h0, hrun, .inl hready, hlater, hall, List.cons_ne_nil _ _,
    dispatcher_never_starved h0 hrun (.inl hready) hlater hall⟩

end SpKernel
