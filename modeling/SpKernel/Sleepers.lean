import SpKernel.Queueing

/-!
# Sleeping and waking up

`_sleeping` is the kernel's only ordered queue. The clock handler looks
at its head alone, so what it wakes is right only because every entry is
put at its place (`Ranked.insert`) and whatever leaves, from the front or
by `kill` from the middle, leaves the rest in order. `lastSleep` numbers
the events of a run, so that "went to sleep earlier" can be said of it.

A tick is described in one place: `Ticked k k'` says which sleepers
`k.woken` are, that they go to the ends of their ready queues in the
order of their wake-up times, that the others sleep on (`k.sleepOn`), and
whether the running process has to go. Every tick of a reachable state is
one (`Good.tick`).

Order is an invariant of the run, `InOrder`. Its step has three cases: an
event that leaves the sleepers alone or takes some of them out
(`InOrder.fewer`), a `sleep`, which inserts its caller (`InOrder.step`),
and a tick. `clock_wakes_in_order` puts the two together.

How long a sleep lasts is the subject of the second half. The wake-up
time is a 32-bit sum. Where it wraps around it lies in the past, and the
process is woken by the next tick; `sleep_lasts_iff` says that this is
the only way in which a sleep is too short, and `Course` is what holds on
the way of a sleeper who is not killed: the clock counts the ticks, and
before the last one the time has not come (`Reaches.late`).
-/

namespace SpKernel

open Function (update update_self update_of_ne)
open Lib

variable {image : Image} {mm : MemMgr} {pages : Nat} {k₀ k k' : Kernel} {p : PcbId}
  {tr : List (Kernel × Event)} {e : Event} {frame : Frame}

/-! ## A tick -/

/-- The time of `p` has come. -/
def Kernel.due (k : Kernel) (p : PcbId) : Bool := decide ((k.pcbs p).wakeup ≤ k.now)

/-- What the loop of `_clk_isr` leaves: those at the front whose time has
come are on their ready queues. -/
structure Awake (k : Kernel) (woken rest : List PcbId) (k' : Kernel) : Prop where
  sleeping : k'.on .sleeping = rest
  ready : ∀ prio, k'.on (.ready prio)
    = k.on (.ready prio) ++ woken.filter fun p => decide ((k.pcbs p).level = prio)
  pcbs : ∀ x, k'.pcbs x = if x ∈ woken then (k.pcbs x).makeReady else k.pcbs x
  now : k'.now = k.now
  current : k'.current = k.current

theorem level_makeReady (x : Pcb) : x.makeReady.level = x.level := by
  have hprio : x.makeReady.makeReady.prio = x.makeReady.prio := by
    simp only [Pcb.makeReady]
    split
    · decide
    · rfl
  rw [Pcb.level, hprio]
  rfl

theorem wake_first {n : Nat} {l : List PcbId} {k₂ : Kernel} (hq : k.on .sleeping = p :: l)
    (hnd : (k.on .sleeping).Nodup) (hdue : (k.pcbs p).wakeup ≤ k.now)
    (hs : schedule { k with queues := ⟨n, update k.queues.items (.pcbs .sleeping) l⟩ } p = .ok k₂)
    (ih : (k₂.on .sleeping).Nodup → Awake k₂ ((k₂.on .sleeping).takeWhile k₂.due)
      ((k₂.on .sleeping).dropWhile k₂.due) k') :
    Awake k ((p :: l).takeWhile k.due) ((p :: l).dropWhile k.due) k' := by
  have hpcbs := schedule_pcbs hs
  have hsleep : k₂.on .sleeping = l := by
    rw [schedule_ready hs, if_neg (by simp)]
    exact (on_update k _ _ _ _).trans (if_pos rfl)
  have hready : ∀ prio, k₂.on (.ready prio)
      = k.on (.ready prio) ++ [p].filter fun p => decide ((k.pcbs p).level = prio) := by
    intro prio
    have hold : ({ k with queues := ⟨n, update k.queues.items (.pcbs .sleeping) l⟩ } : Kernel).on
        (.ready prio) = k.on (.ready prio) :=
      (on_update k _ _ _ _).trans (if_neg (by simp))
    rw [schedule_ready hs, hold]
    by_cases hl : (k.pcbs p).level = prio
    · simp [hl]
    · have hne : prio ≠ (k.pcbs p).level := fun he => hl he.symm
      simp [hl, hne]
  have hfield : ∀ x, (k₂.pcbs x).wakeup = (k.pcbs x).wakeup
      ∧ (k₂.pcbs x).level = (k.pcbs x).level := by
    intro x
    rw [hpcbs]
    split
    · rename_i he
      rw [he]
      exact ⟨rfl, level_makeReady _⟩
    · exact ⟨rfl, rfl⟩
  have hnow := schedule_now hs
  change k₂.now = k.now at hnow
  have hdues : k₂.due = k.due := by
    funext x
    rw [Kernel.due, Kernel.due, (hfield x).1, hnow]
  rw [hq] at hnd
  obtain ⟨hpl, hnd⟩ := List.nodup_cons.mp hnd
  rw [hsleep, hdues] at ih
  obtain ⟨h1, h2, h3, h4, h5⟩ := ih hnd
  have hpos : k.due p = true := decide_eq_true hdue
  rw [List.takeWhile_cons_of_pos hpos, List.dropWhile_cons_of_pos hpos]
  refine ⟨h1, fun prio => ?_, fun x => ?_, h4.trans hnow, h5.trans ?_⟩
  · simp only [hfield] at h2
    rw [h2, hready, List.append_assoc, ← List.filter_append, List.singleton_append]
  · have hout : p ∉ l.takeWhile k.due := fun hc => hpl ((List.takeWhile_prefix _).subset hc)
    rw [h3, hpcbs]
    rcases eq_or_ne x p with rfl | hx
    · simp [hout]
    · simp [hx]
  · obtain ⟨n', rfl⟩ := schedule_eq hs
    rfl

theorem wakeLoop_awake : ∀ (fuel : Nat) {k k' : Kernel}, wakeLoop fuel k = .ok k' →
    (k.on .sleeping).Nodup →
    Awake k ((k.on .sleeping).takeWhile k.due) ((k.on .sleeping).dropWhile k.due) k'
  | 0, _, _, h, _ => by cases h
  | fuel + 1, k, k', h, hnd => by
      rw [wakeLoop] at h
      cases hq : k.on .sleeping with
      | nil =>
          have hpeek : k.queues.peek (.pcbs .sleeping) = (.emptyQueue, none) := by
            rw [QPool.peek, show k.queues.items (.pcbs .sleeping) = [] from hq]
          rw [hpeek] at h
          obtain rfl := Except.ok.inj h
          exact ⟨hq, fun prio => by simp, fun x => by simp, rfl, rfl⟩
      | cons p l =>
          have hpeek : k.queues.peek (.pcbs .sleeping) = (.success, some p) := by
            rw [QPool.peek, show k.queues.items (.pcbs .sleeping) = p :: l from hq]
          rw [hpeek] at h
          simp only at h
          split at h
          · rename_i hdue
            split at h
            · rename_i p' k₁ hd
              obtain ⟨n, l', hq', rfl⟩ := deque_eq hd
              obtain ⟨rfl, rfl⟩ := List.cons.inj (hq.symm.trans hq')
              obtain ⟨k₂, hs, h⟩ := bind_eq_ok.mp h
              exact wake_first hq hnd hdue hs (wakeLoop_awake fuel h)
            · cases h
          · rename_i hdue
            obtain rfl := Except.ok.inj h
            have hnot : ¬k.due p = true := fun hc => hdue (of_decide_eq_true hc)
            rw [List.takeWhile_cons_of_neg hnot, List.dropWhile_cons_of_neg hnot]
            exact ⟨hq, fun prio => by simp, fun x => by simp, rfl, rfl⟩

/-- The sleepers a tick wakes. -/
def Kernel.woken (k : Kernel) : List PcbId :=
  (k.on .sleeping).filter fun p => decide ((k.pcbs p).wakeup ≤ k.now + 1)

/-- The sleepers a tick does not wake. -/
def Kernel.sleepOn (k : Kernel) : List PcbId :=
  (k.on .sleeping).filter fun p => decide (k.now + 1 < (k.pcbs p).wakeup)

/-- The next tick is the last of the quantum. -/
def Kernel.Expires (k : Kernel) : Prop := (k.pcbs k.current).qTicks - 1 < 1

instance (k : Kernel) : Decidable k.Expires := inferInstanceAs (Decidable (_ < _))

/-- A ready queue after a tick, before anybody is dispatched: those who
have been woken are behind those who were ready, and the current process
is behind them if its quantum is over. -/
def Kernel.readied (k : Kernel) (prio : Fin nPrios) : List PcbId :=
  k.on (.ready prio)
    ++ (k.woken.filter fun p => decide ((k.pcbs p).level = prio))
    ++ if k.Expires ∧ (k.pcbs k.current).level = prio then [k.current] else []

/-- What a tick has done to the queues. -/
structure Ticked (k k' : Kernel) : Prop where
  now : k'.now = k.now + 1
  sleeping : k'.on .sleeping = k.sleepOn
  wakeup : ∀ x ∈ k.sleepOn, (k'.pcbs x).wakeup = (k.pcbs x).wakeup
  goOn : ¬k.Expires → k'.current = k.current ∧ ∀ prio, k'.on (.ready prio) = k.readied prio
  switch : k.Expires → ∃ prio, k.readied prio = k'.current :: k'.on (.ready prio)
    ∧ (∀ prio' < prio, k.readied prio' = [])
    ∧ ∀ prio' ≠ prio, k'.on (.ready prio') = k.readied prio'

/-- The part of `_clk_isr` before the quantum is looked at. -/
theorem clkIsr_awake (g : Good k) {since : PcbId → Nat}
    (hr : Ranked (fun p => (k.pcbs p).wakeup.toNat) since (k.on .sleeping)) :
    ∃ k₁ k₂, Awake k₁ k.woken k.sleepOn k₂ ∧ Placed k₂ ∅ (some k.current)
    ∧ k₁.on = k.on ∧ k₁.pcbs = k.pcbs ∧ k₁.now = k.now + 1 ∧ k₁.current = k.current
    ∧ clkIsr k = (do
      let p := k₂.current
      let k₂ := k₂.setPcb p fun x => { x with qTicks := x.qTicks - 1 }
      if (k₂.pcbs p).qTicks < 1 then do
        let k₃ ← schedule k₂ p
        dispatch k₃
      else .ok k₂) := by
  obtain ⟨k₁, hk₁⟩ : ∃ k₁ : Kernel, k₁ = { k with
      pinwheel := if k.pinwheel + 1 = 100 then 0 else k.pinwheel + 1, now := k.now + 1 } := ⟨_, rfl⟩
  have hon : k₁.on = k.on := by rw [hk₁]; rfl
  have hpcbs : k₁.pcbs = k.pcbs := by rw [hk₁]
  have hnow : k₁.now = k.now + 1 := by rw [hk₁]
  have hcur : k₁.current = k.current := by rw [hk₁]
  have hpl : Placed k₁ ∅ (some k.current) := by
    rw [hk₁]
    exact g.placed.congr rfl rfl
  obtain ⟨k₂, hk₂, h2, -, -⟩ := wakeLoop_spec ((k₁.on .sleeping).length + 1) k₁ _ hpl
    (Nat.lt_succ_self _)
  have haw := wakeLoop_awake _ hk₂ (hpl.nodup .sleeping)
  have hdue : k₁.due = fun p => decide ((k.pcbs p).wakeup ≤ k.now + 1) := by
    funext p
    rw [Kernel.due, hpcbs, hnow]
  have htake := hr.takeWhile_le (k.now + 1).toNat
  have hdrop := hr.dropWhile_le (k.now + 1).toNat
  rw [hdue, hon] at haw
  have hw : (k.on .sleeping).takeWhile (fun p => decide ((k.pcbs p).wakeup ≤ k.now + 1))
      = k.woken := htake
  have hs : (k.on .sleeping).dropWhile (fun p => decide ((k.pcbs p).wakeup ≤ k.now + 1))
      = k.sleepOn := hdrop
  rw [hw, hs] at haw
  refine ⟨k₁, k₂, haw, h2, hon, hpcbs, hnow, hcur, ?_⟩
  rw [hk₁] at hk₂
  have hk₂' : wakeLoop (k.queues.size (.pcbs .sleeping) + 1) _ = _ := hk₂
  rw [clkIsr]
  simp only [hk₂', ok_bind]

theorem dispatch_returns {prio : Fin nPrios} (hne : k.on (.ready prio) ≠ []) :
    ∃ k', dispatch k = .ok k' := by
  rcases dispatch_cases k with ⟨hnil, -⟩ | ⟨prio', p, l, hq, hd⟩
  · exact absurd (hnil prio) hne
  · have hq' : k.queues.items (.pcbs (.ready prio')) = p :: l := hq
    exact ⟨_, hd ⟨k.queues.nodes + 1, update k.queues.items (.pcbs (.ready prio')) l⟩
      (by simp only [Kernel.deque, QPool.deque, hq'])⟩

theorem makeRunning_wakeup (x : Pcb) : x.makeRunning.wakeup = x.wakeup := rfl

theorem clkIsr_ticked (g : Good k) {since : PcbId → Nat}
    (hr : Ranked (fun p => (k.pcbs p).wakeup.toNat) since (k.on .sleeping)) :
    ∃ k', clkIsr k = .ok k' ∧ Ticked k k' := by
  obtain ⟨k₁, k₂, haw, hpl, hon, hpcbs, hnow, hcur, hclk⟩ := clkIsr_awake g hr
  have hc₂ : k₂.current = k.current := haw.current.trans hcur
  have hout : k.current ∉ k.woken := fun hc => g.current_not_on .sleeping (List.mem_filter.mp hc).1
  have hself : k₂.pcbs k.current = k.pcbs k.current := by
    rw [haw.pcbs, if_neg hout, hpcbs]
  have hwake : ∀ x, (k₂.pcbs x).wakeup = (k.pcbs x).wakeup := by
    intro x
    rw [haw.pcbs, hpcbs]
    split <;> rfl
  rw [hc₂] at hclk
  -- the PCB of the current process has one tick less, and nothing else has changed
  obtain ⟨k₃, hk₃⟩ : ∃ k₃, k₃ = k₂.setPcb k.current fun x => { x with qTicks := x.qTicks - 1 } :=
    ⟨_, rfl⟩
  have hon₃ : k₃.on = k₂.on := by rw [hk₃]; rfl
  have hnow₃ : k₃.now = k.now + 1 := by
    rw [hk₃]
    exact haw.now.trans hnow
  have hself₃ : k₃.pcbs k.current = { k.pcbs k.current with
      qTicks := (k.pcbs k.current).qTicks - 1 } := by
    rw [hk₃, setPcb_self, hself]
  have hwake₃ : ∀ x, (k₃.pcbs x).wakeup = (k.pcbs x).wakeup := by
    intro x
    rcases eq_or_ne x k.current with rfl | hx
    · rw [hself₃]
    · rw [hk₃, setPcb_other _ _ hx, hwake]
  have hready₃ : ∀ prio, k₃.on (.ready prio)
      = k.on (.ready prio) ++ k.woken.filter fun p => decide ((k.pcbs p).level = prio) := by
    intro prio
    rw [hon₃, haw.ready, hon, hpcbs]
  have hsleep₃ : k₃.on .sleeping = k.sleepOn := by rw [hon₃, haw.sleeping]
  simp only [← hk₃, hself₃] at hclk
  by_cases hx : k.Expires
  · have hpl₃ : Placed k₃ {k.current} none := by
      have h := (hpl.set (p := k.current) (fun x => { x with qTicks := x.qTicks - 1 }) rfl
        fun _ => rfl).stop
      rwa [← hk₃, LawfulSingleton.insert_empty_eq] at h
    obtain ⟨k₄, hk₄, -⟩ := schedule_spec hpl₃ (Set.mem_singleton _)
    have hlevel : (k₃.pcbs k.current).level = (k.pcbs k.current).level := by
      rw [hself₃]
      rfl
    have hready₄ : ∀ prio, k₄.on (.ready prio) = k.readied prio := by
      intro prio
      rw [schedule_ready hk₄, hready₃, hlevel, Kernel.readied]
      by_cases hp : (k.pcbs k.current).level = prio
      · simp [hp, hx]
      · have hne : prio ≠ (k.pcbs k.current).level := fun he => hp he.symm
        simp [hp, hne]
    have hsome : k₄.on (.ready (k.pcbs k.current).level) ≠ [] := by
      rw [hready₄, Kernel.readied]
      simp [hx]
    obtain ⟨k', hk'⟩ := dispatch_returns hsome
    obtain ⟨prio, p, hd⟩ := dispatch_eq hk'
    have hx' : (k.pcbs k.current).qTicks - 1 < 1 := hx
    refine ⟨k', ?_, ?_⟩
    · simp only [hclk, hx', ↓reduceIte, hk₄, ok_bind, hk']
    · refine ⟨hd.now.trans ((schedule_now hk₄).trans hnow₃), ?_, fun x _ => ?_, fun hno => ?_,
        fun _ => ⟨prio, ?_, fun prio' hlt => ?_, fun prio' hne => ?_⟩⟩
      · rw [hd.others .sleeping (by simp), schedule_ready hk₄, if_neg (by simp), hsleep₃]
      · rw [hd.pcbs, schedule_pcbs hk₄, schedule_pcbs hk₄, ← hwake₃ x]
        split
        · rename_i he
          rw [he, makeRunning_wakeup]
          split
          · rename_i he
            rw [he]
            rfl
          · rfl
        · split
          · rename_i he
            rw [he]
            rfl
          · rfl
      · exact absurd hx hno
      · rw [← hready₄, hd.front, hd.current]
      · rw [← hready₄]
        exact hd.best prio' hlt
      · rw [hd.others _ (by simpa using hne), hready₄]
  · have hx' : ¬(k.pcbs k.current).qTicks - 1 < 1 := hx
    refine ⟨k₃, by simp only [hclk, hx', ↓reduceIte], hnow₃, hsleep₃, fun x _ => hwake₃ x,
      fun _ => ⟨?_, fun prio => ?_⟩, fun hc => absurd hc hx⟩
    · rw [hk₃]
      exact hc₂
    · rw [hready₃, Kernel.readied]
      simp [hx]

/-! ## The order of the sleepers -/

/-- Some sleepers have left, and the others are as before. -/
structure Fewer (k k' : Kernel) : Prop where
  sleeping : (k'.on .sleeping).Sublist (k.on .sleeping)
  wakeup : ∀ x ∈ k'.on .sleeping, (k'.pcbs x).wakeup = (k.pcbs x).wakeup

theorem Still.fewer (h : Still k k') : Fewer k k' :=
  ⟨h.sleeping ▸ List.Sublist.refl _, fun x hx => h.wakeup x (h.sleeping ▸ hx)⟩

theorem Ticked.fewer (h : Ticked k k') : Fewer k k' :=
  ⟨h.sleeping ▸ List.filter_sublist, fun x hx => h.wakeup x (h.sleeping ▸ hx)⟩

/-- `v` has been taken off the sleeping queue. -/
structure Plucked (k : Kernel) (v : PcbId) (k' : Kernel) : Prop where
  sleeping : k'.on .sleeping = (k.on .sleeping).erase v
  wakeup : ∀ x ∈ (k.on .sleeping).erase v, (k'.pcbs x).wakeup = (k.pcbs x).wakeup
  now : k'.now = k.now

/-- `p` has gone to sleep: it is behind all who are to wake no later. -/
structure Asleep (k : Kernel) (p : PcbId) (msec : Word) (k' : Kernel) : Prop where
  sleeping : k'.on .sleeping
    = (k.on .sleeping).takeWhile (fun x => decide ((k'.pcbs x).wakeup ≤ (k'.pcbs p).wakeup))
      ++ p :: (k.on .sleeping).dropWhile
        fun x => decide ((k'.pcbs x).wakeup ≤ (k'.pcbs p).wakeup)
  wakeup : (k'.pcbs p).wakeup = k.now + msec
  others : ∀ x ≠ p, (k'.pcbs x).wakeup = (k.pcbs x).wakeup
  now : k'.now = k.now

theorem cmpWakeup_nonneg (k : Kernel) (p x : PcbId) :
    0 ≤ k.cmpWakeup p x ↔ (k.pcbs x).wakeup ≤ (k.pcbs p).wakeup := by
  rw [Kernel.cmpWakeup]
  split
  · rename_i hlt
    exact iff_of_false (by decide) (BitVec.not_le.mpr hlt)
  · rename_i hlt
    refine iff_of_true ?_ (BitVec.not_lt.mp hlt)
    split <;> decide

theorem dispatch_wakeup (h : dispatch k = .ok k') (x : PcbId) :
    (k'.pcbs x).wakeup = (k.pcbs x).wakeup := by
  obtain ⟨prio, p, hd⟩ := dispatch_eq h
  rw [hd.pcbs]
  split
  · rename_i he
    rw [he]
    rfl
  · rfl

theorem sysSleep_asleep (hm : k.arg p 1 ≠ 0) (h : sysSleep k p = .ok k') :
    Asleep k p (k.arg p 1) k' := by
  rw [sysSleep] at h
  simp only [hm, ↓reduceIte] at h
  generalize hk₁ : (k.setPcb p fun x => { x with
    wakeup := k.now + k.arg p 1, state := .sleeping }) = k₁ at h
  have hself : (k₁.pcbs p).wakeup = k.now + k.arg p 1 := by
    rw [← hk₁, setPcb_self]
  have hother : ∀ x ≠ p, (k₁.pcbs x).wakeup = (k.pcbs x).wakeup := by
    intro x hx
    rw [← hk₁, setPcb_other _ _ hx]
  have hon : k₁.on .sleeping = k.on .sleeping := by
    rw [← hk₁]
    rfl
  have hnow : k₁.now = k.now := by
    rw [← hk₁]
    rfl
  split at h
  · rename_i k₂ he
    have hn : k₁.queues.nodes ≠ 0 := by
      intro hc
      simp [Kernel.enque, QPool.enque, hc] at he
    have hk₂ : k₂ = { k₁ with queues := ⟨k₁.queues.nodes - 1, update k₁.queues.items
        (.pcbs .sleeping) (insertItem (some k₁.cmpWakeup) p (k₁.on .sleeping))⟩ } := by
      simp only [Kernel.enque, QPool.enque, hn, ↓reduceIte, Prod.mk.injEq, true_and] at he
      exact he.symm
    have hw : ∀ x, (k'.pcbs x).wakeup = (k₁.pcbs x).wakeup := by
      intro x
      rw [dispatch_wakeup h, hk₂]
    refine ⟨?_, (hw p).trans hself, fun x hx => (hw x).trans (hother x hx), ?_⟩
    · rw [(dispatch_still h).sleeping, hk₂]
      refine (on_update k₁ _ _ _ _).trans ((if_pos rfl).trans ?_)
      simp only [insertItem, hon, hw, cmpWakeup_nonneg]
    · rw [(dispatch_still h).now, hk₂]
      exact hnow
  · cases h

theorem sysKill_sleepers (h : sysKill k k.current = .ok k') :
    Still k k' ∨ ∃ v ∈ k.on .sleeping, (k.pcbs v).pid = (k.arg k.current 1).setWidth 16
      ∧ Plucked k v k' := by
  rcases sysKill_cases k k.current with ⟨v, hk⟩ | ⟨v, hfind, ⟨q, hq, -, hk⟩ | ⟨-, hk⟩ | ⟨-, hk⟩⟩
  · rw [hk] at h
    exact .inl (Except.ok.inj h ▸ (Still.refl k).setRet _ _)
  · rw [hk, killFrom] at h
    split at h
    · rename_i k₁ he
      by_cases hs : q = .sleeping
      · subst hs
        obtain ⟨hmem, n, rfl⟩ := remove_eq he
        have hst := finishKill_still h
        have hon : ({ k with queues := ⟨n, update k.queues.items (.pcbs .sleeping)
            ((k.on .sleeping).erase v)⟩ } : Kernel).on .sleeping = (k.on .sleeping).erase v :=
          (on_update k _ _ _ _).trans (if_pos rfl)
        have hpid := Family.find_eq_some (f := k.family) hfind
        refine .inr ⟨v, hmem, hpid, hst.sleeping.trans hon, fun x hx => ?_, hst.now⟩
        exact hst.wakeup x (hon ▸ hx)
      · exact .inl ((remove_still he hs).trans (finishKill_still h))
    · cases h
  · rw [hk] at h
    exact .inl (finishKill_still h)
  · rw [hk] at h
    cases h

/-- Saving a context changes nothing that does not depend on it. -/
theorem isrSave_field {γ : Type} {f : Pcb → γ} (hf : ∀ x c, f { x with context := c } = f x)
    (k : Kernel) (frame : Frame) (x : PcbId) : f ((isrSave k frame).pcbs x) = f (k.pcbs x) := by
  rcases eq_or_ne x k.current with rfl | hx
  · obtain ⟨mm, hk⟩ := isrSave_eq k frame
    rw [hk, setPcb_self]
    exact hf ..
  · rw [isrSave_other k frame hx]

theorem isrSave_wakeup (k : Kernel) (frame : Frame) (x : PcbId) :
    ((isrSave k frame).pcbs x).wakeup = (k.pcbs x).wakeup :=
  isrSave_field (f := Pcb.wakeup) (fun _ _ => rfl) k frame x

theorem isrSave_still (k : Kernel) (frame : Frame) : Still k (isrSave k frame) :=
  ⟨rfl, fun x _ => isrSave_wakeup k frame x, rfl⟩

theorem isrSave_on (k : Kernel) (frame : Frame) : (isrSave k frame).on = k.on := rfl

theorem Ticked.of_save (h : Ticked (isrSave k frame) k') : Ticked k k' := by
  have hwoken : (isrSave k frame).woken = k.woken := by
    simp only [Kernel.woken, isrSave_wakeup]
    rfl
  have hsleep : (isrSave k frame).sleepOn = k.sleepOn := by
    simp only [Kernel.sleepOn, isrSave_wakeup]
    rfl
  have hq : ((isrSave k frame).pcbs k.current).qTicks = (k.pcbs k.current).qTicks :=
    isrSave_field (f := Pcb.qTicks) (fun _ _ => rfl) k frame k.current
  have hx : (isrSave k frame).Expires ↔ k.Expires := by
    rw [Kernel.Expires, Kernel.Expires, isrSave_current, hq]
  have hl : ∀ x, ((isrSave k frame).pcbs x).level = (k.pcbs x).level :=
    isrSave_field (f := Pcb.level) (fun _ _ => rfl) k frame
  have hready : ∀ prio, (isrSave k frame).readied prio = k.readied prio := by
    intro prio
    simp only [Kernel.readied, hwoken, hl, hx, isrSave_current, isrSave_on]
  obtain ⟨h1, h2, h3, h4, h5⟩ := h
  rw [hsleep] at h2 h3
  simp only [hx, hready] at h4 h5
  exact ⟨h1, h2, fun x hx => (h3 x hx).trans (isrSave_wakeup k frame x), h4, h5⟩

/-- A clock interrupt. -/
def isTick (x : Kernel × Event) : Bool :=
  match x.2 with
  | .interrupt _ .clock => true
  | _ => false

/-- Every event but a tick, a `sleep` and the `kill` of a sleeper leaves
the sleepers alone. -/
inductive Sleeping (k : Kernel) : Event → Kernel → Prop
  | still {e : Event} {k' : Kernel} : isTick (k, e) = false → Still k k' → Sleeping k e k'
  | killed {frame : Frame} {keys : List Byte} {v : PcbId} {k' : Kernel} : frame.regs.eax = 5 →
      v ∈ k.on .sleeping → (k.pcbs v).pid = (frame.args 1).setWidth 16 → Plucked k v k' →
      Sleeping k (.interrupt frame (.syscall keys)) k'
  | asleep {frame : Frame} {keys : List Byte} {k' : Kernel} : frame.regs.eax = 7 →
      frame.args 1 ≠ 0 →
      Asleep k k.current (frame.args 1) k' → Sleeping k (.interrupt frame (.syscall keys)) k'
  | ticked {frame : Frame} {k' : Kernel} : Ticked k k' → Sleeping k (.interrupt frame .clock) k'

theorem sysIsr_sleeping {keys : List Byte} (g : Good k)
    (h : sysIsr keys (isrSave k frame) = .ok k') :
    Sleeping k (.interrupt frame (.syscall keys)) k' := by
  have g' := g.isrSave frame
  have hsave := isrSave_still k frame
  have hctx : ((isrSave k frame).pcbs k.current).context = frame := isrSave_context k frame
  have harg : (isrSave k frame).arg k.current 1 = frame.args 1 := isrSave_arg k frame 1
  simp only [sysIsr, isrSave_current, hctx] at h
  split at h
  · have hset := hsave.setPcb k.current (f := fun x =>
      { x with context.args := update x.context.args 1 exitBadCode }) rfl
    exact .still rfl (hset.trans (sysExit_still h))
  · rename_i hcode
    have hlt : frame.regs.eax.toNat < 13 := Nat.lt_of_not_le hcode
    have heax : frame.regs.eax = BitVec.ofNat 32 frame.regs.eax.toNat := by
      rw [BitVec.ofNat_toNat, BitVec.setWidth_eq]
    generalize frame.regs.eax.toNat = n at h hlt heax
    interval_cases n
    · exact .still rfl (hsave.trans (sysExit_still h))
    · exact .still rfl (hsave.trans (sysRead_still h))
    · exact .still rfl (hsave.trans (sysWrite_still h))
    · exact .still rfl (hsave.trans (sysFork_still g' h))
    · exact .still rfl (hsave.trans (sysExec_still h))
    · rcases sysKill_sleepers h with hst | ⟨v, hv, hpid, hpl⟩
      · exact .still rfl (hsave.trans hst)
      · rw [isrSave_current, harg] at hpid
        have hp : ((isrSave k frame).pcbs v).pid = (k.pcbs v).pid :=
          isrSave_field (f := Pcb.pid) (fun _ _ => rfl) k frame v
        refine .killed heax hv (hp ▸ hpid) ⟨hpl.sleeping, fun x hx => ?_, hpl.now⟩
        exact (hpl.wakeup x hx).trans (isrSave_wakeup k frame x)
    · exact .still rfl (hsave.trans (sysWait_still h))
    · by_cases hm : frame.args 1 = 0
      · refine .still rfl (hsave.trans ?_)
        change sysSleep (isrSave k frame) k.current = .ok k' at h
        rw [sysSleep, harg] at h
        simp only [hm, ↓reduceIte] at h
        obtain ⟨k₁, hk₁, h⟩ := bind_eq_ok.mp h
        exact (schedule_still hk₁).trans (dispatch_still h)
      · have hsl := sysSleep_asleep (harg ▸ hm) h
        rw [harg] at hsl
        refine .asleep heax hm ⟨hsl.sleeping, hsl.wakeup, fun x hx => ?_, hsl.now⟩
        exact (hsl.others x hx).trans (isrSave_wakeup k frame x)
    · exact .still rfl (hsave.trans (Except.ok.inj h ▸ (Still.refl _).setRet _ _))
    · exact .still rfl (hsave.trans (Except.ok.inj h ▸ (Still.refl _).setRet _ _))
    · exact .still rfl (hsave.trans (Except.ok.inj h ▸ (Still.refl _).setRet _ _))
    · exact .still rfl (hsave.trans (sysMmap_still h))
    · cases h

theorem Still.sleeping_of {cause : Cause} {k₁ : Kernel}
    (ht : isTick (k, .interrupt frame cause) = false) (h : Still (isrSave k frame) k₁) :
    Sleeping k (.interrupt frame cause) (isrRestore k₁) :=
  .still ht (((isrSave_still k frame).trans h).trans (.of_eq rfl rfl rfl))

theorem Ranked.isrSave {since : PcbId → Nat}
    (hr : Ranked (fun p => (k.pcbs p).wakeup.toNat) since (k.on .sleeping)) (frame : Frame) :
    Ranked (fun p => ((SpKernel.isrSave k frame).pcbs p).wakeup.toNat) since
      ((SpKernel.isrSave k frame).on .sleeping) := by
  simp only [isrSave_wakeup]
  exact hr

theorem step_sleeping (g : Good k) {since : PcbId → Nat}
    (hr : Ranked (fun p => (k.pcbs p).wakeup.toNat) since (k.on .sleeping))
    (h : step k e = .ok k') : Sleeping k e k' := by
  cases e with
  | store a b => exact .still rfl (Except.ok.inj h ▸ .of_eq rfl rfl rfl)
  | interrupt frame cause =>
      obtain ⟨k₁, hk₁, h⟩ := bind_eq_ok.mp h
      rw [← Except.ok.inj h]
      cases cause with
      | syscall keys =>
          cases sysIsr_sleeping g hk₁ with
          | still ht hs => exact .still ht (hs.trans (.of_eq rfl rfl rfl))
          | killed heax hv hpid hp => exact .killed heax hv hpid ⟨hp.1, hp.2, hp.3⟩
          | asleep heax hm ha => exact .asleep heax hm ⟨ha.1, ha.2, ha.3, ha.4⟩
      | clock =>
          obtain ⟨k₂, hk₂, ht⟩ := clkIsr_ticked (g.isrSave frame) (Ranked.isrSave hr frame)
          obtain rfl := Except.ok.inj (hk₂.symm.trans hk₁)
          obtain ⟨h1, h2, h3, h4, h5⟩ := ht.of_save
          exact .ticked ⟨h1, h2, h3, h4, h5⟩
      | serial pending => exact Still.sleeping_of rfl (sioIsr_still pending hk₁)
      | keyboard code =>
          exact Still.sleeping_of rfl (Except.ok.inj hk₁ ▸ .of_eq rfl rfl rfl)
      | pageFault => exact Still.sleeping_of rfl (pageFaultIsr_still hk₁)

/-! ## Runs -/

/-- The event puts `p` to sleep. -/
def fallsAsleep (x : Kernel × Event) (p : PcbId) : Bool :=
  match x.2 with
  | .interrupt frame (.syscall _) =>
      decide (p = x.1.current ∧ frame.regs.eax = 7 ∧ frame.args 1 ≠ 0)
  | _ => false

/-- The number of the event with which `p` last went to sleep, counted
from 1. -/
def lastSleep (tr : List (Kernel × Event)) (p : PcbId) : Nat :=
  tr.length - tr.reverse.findIdx (fallsAsleep · p)

theorem lastSleep_le (tr : List (Kernel × Event)) (p : PcbId) : lastSleep tr p ≤ tr.length :=
  Nat.sub_le ..

theorem lastSleep_append (tr : List (Kernel × Event)) (x : Kernel × Event) (p : PcbId) :
    lastSleep (tr ++ [x]) p = if fallsAsleep x p then tr.length + 1 else lastSleep tr p := by
  simp only [lastSleep, List.length_append, List.length_singleton, List.reverse_append,
    List.reverse_singleton, List.singleton_append, List.findIdx_cons]
  split
  · rename_i h
    simp [h]
  · rename_i h
    simp only [h, cond_false]
    omega

/-- The sleepers are in the order in which they are to wake, those with
one time in the order in which they went to sleep. -/
def InOrder (tr : List (Kernel × Event)) (k : Kernel) : Prop :=
  Ranked (fun p => (k.pcbs p).wakeup.toNat) (lastSleep tr) (k.on .sleeping)

theorem fallsAsleep_current {x : PcbId} (h : fallsAsleep (k, e) x = true) : x = k.current := by
  simp only [fallsAsleep] at h
  split at h
  · exact (of_decide_eq_true h).1
  · cases h

theorem Good.lastSleep_same (g : Good k) {x : PcbId} (hx : x ∈ k.on .sleeping) :
    lastSleep (tr ++ [(k, e)]) x = lastSleep tr x := by
  rw [lastSleep_append, if_neg]
  intro hc
  rw [fallsAsleep_current hc] at hx
  exact g.current_not_on .sleeping hx

theorem InOrder.fewer (h : InOrder tr k) (g : Good k) (hf : Fewer k k') :
    InOrder (tr ++ [(k, e)]) k' := by
  refine (Ranked.sublist h hf.sleeping).congr (fun x hx => ?_) fun x hx => ?_
  · simp only [hf.wakeup x hx]
  · exact g.lastSleep_same (hf.sleeping.subset hx)

theorem Plucked.fewer {v : PcbId} (h : Plucked k v k') : Fewer k k' :=
  ⟨h.sleeping ▸ List.erase_sublist, fun x hx => h.wakeup x (h.sleeping ▸ hx)⟩

theorem InOrder.step (h : InOrder tr k) (g : Good k) (hst : step k e = .ok k') :
    InOrder (tr ++ [(k, e)]) k' := by
  cases step_sleeping g h hst with
  | still _ hs => exact h.fewer g hs.fewer
  | killed _ _ _ hp => exact h.fewer g hp.fewer
  | ticked ht => exact h.fewer g ht.fewer
  | @asleep frame keys _ heax hm ha =>
      have hself : lastSleep (tr ++ [(k, .interrupt frame (.syscall keys))]) k.current
          = tr.length + 1 := by
        rw [lastSleep_append, if_pos]
        exact decide_eq_true ⟨rfl, heax, hm⟩
      have hold : Ranked (fun p => (k'.pcbs p).wakeup.toNat)
          (lastSleep (tr ++ [(k, .interrupt frame (.syscall keys))])) (k.on .sleeping) := by
        refine Ranked.congr h (fun x hx => ?_) fun x hx => g.lastSleep_same hx
        have hne : x ≠ k.current := fun he => g.current_not_on .sleeping (he ▸ hx)
        simp only [ha.others x hne]
      rw [InOrder, ha.sleeping]
      refine hold.insert (d := k.current) fun x hx => ?_
      rw [hself, g.lastSleep_same hx]
      exact Nat.lt_succ_of_le (lastSleep_le tr x)

/-- In the beginning there is only the process that runs. -/
theorem init_on {q : PQueue} (h0 : init image mm pages = .ok k₀) (hf : q ≠ .free)
    (hw : q ≠ .waiting) (hz : q ≠ .zombie) : k₀.on q = [] := by
  obtain ⟨g, first, hfam⟩ := init_first h0
  have honly : ∀ x, (k₀.family.members x).mode ≠ .free → x = first := by
    intro x hx
    rw [hfam] at hx
    exact Family.first_only hx
  have hcur : k₀.current = first :=
    honly _ (by rw [g.active]; exact Mode.Live.ne_free (.inl rfl))
  rw [List.eq_nil_iff_forall_not_mem]
  intro x hx
  have hmode := mode_of_home g.placed hx hf hw hz
  have hxq : x = first := honly x (by rw [hmode]; exact Mode.Live.ne_free (.inl rfl))
  rw [hxq, ← hcur] at hx
  exact g.current_not_on q hx

theorem reachable_inOrder (h0 : init image mm pages = .ok k₀) (hrun : Steps step k₀ tr k) :
    InOrder tr k := by
  induction hrun with
  | refl =>
      rw [InOrder, init_on h0 (by simp) (by simp) (by simp)]
      exact List.Pairwise.nil
  | tail hpre hst ih => exact ih.step (reachable_good h0 hpre) hst

theorem Good.tick (g : Good k) (h : InOrder tr k) (frame : Frame) :
    ∃ k', SpKernel.step k (.interrupt frame .clock) = .ok k' ∧ Ticked k k' := by
  obtain ⟨k₁, hk₁, ht⟩ := clkIsr_ticked (g.isrSave frame) (Ranked.isrSave h frame)
  obtain ⟨h1, h2, h3, h4, h5⟩ := ht.of_save
  refine ⟨SpKernel.isrRestore k₁, ?_, h1, h2, h3, h4, h5⟩
  rw [SpKernel.step, handle, hk₁]
  rfl

/-- In every reachable state a tick wakes exactly the sleepers whose time
has come, in the order of their times and, among equal times, in the
order in which they went to sleep; they join their ready queues ahead of
a current process whose quantum is over, and the others sleep on. -/
theorem clock_wakes_in_order (h0 : init image mm pages = .ok k₀) (hrun : Steps step k₀ tr k)
    (frame : Frame) :
    (∃ k', step k (.interrupt frame .clock) = .ok k' ∧ Ticked k k')
    ∧ (k.woken.Pairwise fun p q => (k.pcbs p).wakeup < (k.pcbs q).wakeup
      ∨ (k.pcbs p).wakeup = (k.pcbs q).wakeup ∧ lastSleep tr p < lastSleep tr q)
    ∧ ∀ e, step k e ≠ .error (.kpanic "_clk_isr" "sleep queue remove failure") := by
  have g := reachable_good h0 hrun
  have hord := reachable_inOrder h0 hrun
  refine ⟨g.tick hord frame, ?_, fun e he => ?_⟩
  · refine List.Pairwise.imp (fun {p q} h => ?_) (hord.sublist List.filter_sublist)
    rcases h with h | ⟨h, hs⟩
    · exact .inl h
    · exact .inr ⟨BitVec.eq_of_toNat_eq h, hs⟩
  · have := g.expected he
    simp [Fault.Expected] at this

/-- `init` sleeps for one tick, and so does its first child after it; the second
child runs. They come back in the order in which they went to sleep. -/
theorem clock_wakes_in_order_two : ∃ k₀ tr k k', init someImage lowPageUsed 0 = .ok k₀
    ∧ Steps step k₀ tr k ∧ k.on .sleeping = [0, 1] ∧ lastSleep tr 0 < lastSleep tr 1
    ∧ step k (.interrupt (callFrame 0 0 0 0) .clock) = .ok k'
    ∧ k'.on .sleeping = [] ∧ k'.on (.ready 0) = [0, 1] := by
  obtain ⟨k₀, tr, k, h0, hrun, -, ht⟩ := run_of_test
    [call 3 0 0 0, call 3 0 0 0, call 7 1 0 0, call 7 1 0 0]
    (fun k => decide (k.on .sleeping = [0, 1] ∧ k.woken = [0, 1] ∧ k.sleepOn = [] ∧ ¬k.Expires
      ∧ k.readied 0 = [0, 1] ∧ (k.pcbs 0).wakeup = (k.pcbs 1).wakeup)) (by decide +kernel)
  obtain ⟨hsl, hwoken, hrest, hx, hready, hsame⟩ := of_decide_eq_true ht
  obtain ⟨⟨k', hk', htick⟩, horder, -⟩ := clock_wakes_in_order h0 hrun (callFrame 0 0 0 0)
  rw [hwoken, List.pairwise_pair, hsame] at horder
  have hlast : lastSleep tr 0 < lastSleep tr 1 :=
    horder.elim (fun h => absurd h (BitVec.lt_irrefl _)) And.right
  refine ⟨k₀, tr, k, k', h0, hrun, hsl, hlast, hk', htick.sleeping.trans hrest, ?_⟩
  rw [(htick.goOn hx).2, hready]

/-! ## How long a sleep lasts -/

/-- The number of ticks in a run. -/
def ticks (tr : List (Kernel × Event)) : Nat := tr.countP isTick

theorem ticks_append (tr : List (Kernel × Event)) (x : Kernel × Event) :
    ticks (tr ++ [x]) = ticks tr + if isTick x then 1 else 0 := by
  simp only [ticks, List.countP_append, List.countP_singleton]

/-- However the run goes on from `k`, as long as there have been fewer
than `msec` ticks and `p` has not been killed, `p` sleeps. -/
def SleepsOut (k : Kernel) (p : PcbId) (msec : Word) : Prop :=
  ∀ tr k', Steps step k tr k' → (∀ x ∈ tr, ¬Ends x.1 x.2 p) → ticks tr < msec.toNat →
    p ∈ k'.on .sleeping

theorem step_asleep {keys : List Byte} (heax : frame.regs.eax = 7) (hm : frame.args 1 ≠ 0)
    (h : step k (.interrupt frame (.syscall keys)) = .ok k') :
    Asleep k k.current (frame.args 1) k' := by
  rw [step_syscall k heax rfl] at h
  obtain ⟨k₁, hk₁, h⟩ := bind_eq_ok.mp h
  have harg : (isrSave k frame).arg k.current 1 = frame.args 1 := isrSave_arg k frame 1
  have hsl := sysSleep_asleep (harg ▸ hm) hk₁
  rw [harg] at hsl
  rw [← Except.ok.inj h]
  refine ⟨hsl.sleeping, hsl.wakeup, fun x hx => ?_, hsl.now⟩
  exact (hsl.others x hx).trans (isrSave_wakeup k frame x)

theorem Asleep.mem {msec : Word} (h : Asleep k p msec k') : p ∈ k'.on .sleeping := by
  rw [h.sleeping]
  exact List.mem_append_right _ (List.mem_cons_self ..)

theorem Asleep.mem_old {msec : Word} {x : PcbId} (h : Asleep k p msec k')
    (hx : x ∈ k.on .sleeping) : x ∈ k'.on .sleeping := by
  rw [h.sleeping, List.mem_append, List.mem_cons]
  rw [← List.takeWhile_append_dropWhile (p := fun x =>
    decide ((k'.pcbs x).wakeup ≤ (k'.pcbs p).wakeup)) (l := k.on .sleeping), List.mem_append] at hx
  rcases hx with hx | hx
  · exact .inl hx
  · exact .inr (.inr hx)

theorem Sleeping.now (h : Sleeping k e k') :
    k'.now = k.now + BitVec.ofNat 32 (if isTick (k, e) then 1 else 0) := by
  cases h with
  | still ht hs => simpa [ht] using hs.now
  | killed _ _ _ hp => simpa [isTick] using hp.now
  | asleep _ _ ha => simpa [isTick] using ha.now
  | ticked ht => simpa [isTick] using ht.now

/-- A sleeper that is not killed sleeps on, unless it is its time. -/
theorem Sleeping.stays (h : Sleeping k e k') (g : Good k) (hp : p ∈ k.on .sleeping)
    (hends : ¬Ends k e p) (hlate : isTick (k, e) → k.now + 1 < (k.pcbs p).wakeup) :
    p ∈ k'.on .sleeping ∧ (k'.pcbs p).wakeup = (k.pcbs p).wakeup := by
  cases h with
  | still _ hs => exact ⟨hs.sleeping ▸ hp, hs.wakeup p hp⟩
  | @killed frame keys v _ heax hv hpid hpl =>
      have hne : p ≠ v := by
        rintro rfl
        have hstate : (k.pcbs p).state = .sleeping := by
          have := ((g.placed.mem p .sleeping).mp hp).2
          cases hs : (k.pcbs p).state <;> simp [home, hs] at this ⊢
        exact hends (.kill heax (by simp [Pcb.Live, hstate]) hpid)
      have hmem : p ∈ (k.on .sleeping).erase v := (List.mem_erase_of_ne hne).mpr hp
      exact ⟨hpl.sleeping ▸ hmem, hpl.wakeup p hmem⟩
  | asleep _ _ ha =>
      have hne : p ≠ k.current := fun he => g.current_not_on .sleeping (he ▸ hp)
      exact ⟨ha.mem_old hp, ha.others p hne⟩
  | ticked ht =>
      have hmem : p ∈ k.sleepOn := List.mem_filter.mpr ⟨hp, decide_eq_true (hlate rfl)⟩
      exact ⟨ht.sleeping ▸ hmem, ht.wakeup p hmem⟩

/-- The wake-up time is `msec` ticks ahead of the clock. -/
def Reaches (now msec : Word) : Prop :=
  now.toNat + msec.toNat < 2 ^ 32 ∨ now = 0xFFFFFFFF

/-- Before the last of the `msec` ticks the time has not come. -/
theorem Reaches.late {now msec : Word} {t : Nat} (h : Reaches now msec)
    (ht : t + 1 < msec.toNat) : now + BitVec.ofNat 32 t + 1 < now + msec := by
  have hm := msec.isLt
  have hone : (1 : Word).toNat = 1 := rfl
  rw [BitVec.lt_def]
  simp only [BitVec.toNat_add, BitVec.toNat_ofNat, hone]
  rcases h with h | h
  · omega
  · have hnow : now.toNat = 4294967295 := congrArg BitVec.toNat h
    omega

/-- Where the sum wraps around, the time has come with the next tick. -/
theorem Reaches.of_late {now msec : Word} (h : now + 1 < now + msec) : Reaches now msec := by
  by_contra hn
  obtain ⟨h1, h2⟩ := not_or.mp hn
  have hm := msec.isLt
  have hnow := now.isLt
  have hone : (1 : Word).toNat = 1 := rfl
  have h3 : now.toNat ≠ 4294967295 := fun hc => h2 (BitVec.eq_of_toNat_eq hc)
  rw [BitVec.lt_def] at h
  simp only [BitVec.toNat_add, hone] at h
  omega

theorem Reaches.of_one {now msec : Word} (h : msec.toNat = 1) : Reaches now msec := by
  by_contra hn
  obtain ⟨h1, h2⟩ := not_or.mp hn
  have hnow := now.isLt
  exact h2 (BitVec.eq_of_toNat_eq (show now.toNat = 4294967295 by omega))

/-- What is known in the course of a sleep that began in `k`. -/
structure Course (k : Kernel) (p : PcbId) (msec : Word) (tr₀ tr : List (Kernel × Event))
    (k' : Kernel) : Prop where
  good : Good k'
  inOrder : InOrder (tr₀ ++ tr) k'
  now : k'.now = k.now + BitVec.ofNat 32 (ticks tr)
  asleep : (∀ x ∈ tr, ¬Ends x.1 x.2 p) → ticks tr < msec.toNat →
    p ∈ k'.on .sleeping ∧ (k'.pcbs p).wakeup = k.now + msec

theorem Course.step {msec : Word} {k₁ k₂ : Kernel} {tr₀ : List (Kernel × Event)}
    (h : Course k p msec tr₀ tr k₁) (hr : Reaches k.now msec) (hst : step k₁ e = .ok k₂) :
    Course k p msec tr₀ (tr ++ [(k₁, e)]) k₂ := by
  have hs := step_sleeping h.good h.inOrder hst
  refine ⟨h.good.step hst, ?_, ?_, fun hends ht => ?_⟩
  · rw [← List.append_assoc]
    exact h.inOrder.step h.good hst
  · rw [hs.now, h.now, ticks_append, BitVec.ofNat_add, BitVec.add_assoc]
  · rw [ticks_append] at ht
    obtain ⟨hmem, hwake⟩ := h.asleep (fun x hx => hends x (List.mem_append_left _ hx)) (by omega)
    have hnot := hends (k₁, e) (List.mem_append_right _ (List.mem_singleton.mpr rfl))
    obtain ⟨hmem', hwake'⟩ := hs.stays h.good hmem hnot fun htick => by
      rw [htick, if_pos rfl] at ht
      rw [hwake, h.now]
      exact hr.late ht
    exact ⟨hmem', hwake'.trans hwake⟩

/-- In every reachable state, a `sleep` lasts as long as it should in
every further run exactly if the wake-up time does not wrap around, or
the clock does so with the next tick. -/
theorem sleep_lasts_iff {keys : List Byte} {k₁ : Kernel} (h0 : init image mm pages = .ok k₀)
    (hrun : Steps step k₀ tr k) (heax : frame.regs.eax = 7) (hm : frame.args 1 ≠ 0)
    (hst : step k (.interrupt frame (.syscall keys)) = .ok k₁) :
    SleepsOut k₁ k.current (frame.args 1)
      ↔ k.now.toNat + (frame.args 1).toNat < 2 ^ 32 ∨ k.now = 0xFFFFFFFF := by
  have g := reachable_good h0 hrun
  have hord := reachable_inOrder h0 hrun
  have ha := step_asleep heax hm hst
  have g₁ := g.step hst
  have hord₁ := hord.step g hst
  have hpos : 0 < (frame.args 1).toNat := by
    refine Nat.pos_of_ne_zero fun hc => hm (BitVec.eq_of_toNat_eq ?_)
    rw [hc]
    rfl
  constructor
  · intro hout
    -- one tick is enough to see it
    obtain ⟨k₂, hk₂, ht⟩ := g₁.tick hord₁ frame
    by_cases h1 : (frame.args 1).toNat = 1
    · exact Reaches.of_one h1
    · refine Reaches.of_late ?_
      have hmem := hout [(k₁, .interrupt frame .clock)] k₂ (Steps.refl.tail hk₂)
        (fun x hx hc => by rw [List.mem_singleton.mp hx] at hc; cases hc)
        (by change 1 < _; omega)
      rw [ht.sleeping] at hmem
      have hlt := of_decide_eq_true (List.mem_filter.mp hmem).2
      rwa [ha.now, ha.wakeup] at hlt
  · intro hr tr' k' hrun' hends hticks
    have hcourse : Course k k.current (frame.args 1)
        (tr ++ [(k, .interrupt frame (.syscall keys))]) tr' k' := by
      clear hends hticks
      induction hrun' with
      | refl =>
          refine ⟨g₁, by rwa [List.append_nil], ?_, fun _ _ => ⟨ha.mem, ha.wakeup⟩⟩
          rw [ha.now]
          simp [ticks]
      | tail _ hst' ih => exact ih.step hr hst'
    exact (hcourse.asleep hends hticks).1

/-- `init` sleeps for ten ticks while its child runs. -/
theorem sleep_lasts_ten : ∃ k₀ tr k k₁, init someImage lowPageUsed 0 = .ok k₀
    ∧ Steps step k₀ tr k ∧ step k (call 7 10 0 0) = .ok k₁ ∧ SleepsOut k₁ k.current 10 := by
  obtain ⟨k₀, tr, k, h0, hrun, -, ht⟩ := run_of_test [call 3 0 0 0]
    (fun k => decide (k.now = 0) && okAnd (step k (call 7 10 0 0)) fun _ => true)
    (by decide +kernel)
  rw [Bool.and_eq_true] at ht
  obtain ⟨k₁, hst, -⟩ := of_okAnd ht.2
  have hnow : k.now = 0 := of_decide_eq_true ht.1
  refine ⟨k₀, tr, k, k₁, h0, hrun, hst, ?_⟩
  have hst' : step k (.interrupt (callFrame 7 10 0 0) (.syscall [])) = .ok k₁ := hst
  refine (sleep_lasts_iff h0 hrun rfl ?_ hst').mpr (.inl ?_)
  · exact show (10 : Word) ≠ 0 by decide
  · rw [hnow]
    exact show (0 : Word).toNat + (10 : Word).toNat < 2 ^ 32 by decide

/-- After a single tick `init` asks for the longest sleep there is, and
the next tick wakes it. -/
theorem sleep_cut_short : ∃ k₀ tr k k₁, init someImage lowPageUsed 0 = .ok k₀
    ∧ Steps step k₀ tr k
    ∧ tr.map Prod.snd = [call 3 0 0 0, .interrupt (callFrame 0 0 0 0) .clock]
    ∧ k.now = 1 ∧ step k (call 7 0xFFFFFFFF 0 0) = .ok k₁
    ∧ ¬SleepsOut k₁ k.current 0xFFFFFFFF := by
  obtain ⟨k₀, tr, k, h0, hrun, hes, ht⟩ := run_of_test
    [call 3 0 0 0, .interrupt (callFrame 0 0 0 0) .clock]
    (fun k => decide (k.now = 1 ∧ k.current = 0)
      && okAnd (step k (call 7 0xFFFFFFFF 0 0)) fun k₁ =>
        okAnd (step k₁ (.interrupt (callFrame 0 0 0 0) .clock)) fun k₂ =>
          decide (0 ∉ k₂.on .sleeping)) (by decide +kernel)
  rw [Bool.and_eq_true] at ht
  obtain ⟨hnow, hcur⟩ := of_decide_eq_true ht.1
  obtain ⟨k₁, hst, ht⟩ := of_okAnd ht.2
  obtain ⟨k₂, htick, ht⟩ := of_okAnd ht
  refine ⟨k₀, tr, k, k₁, h0, hrun, hes, hnow, hst, fun hout => ?_⟩
  refine of_decide_eq_true ht (hcur ▸ hout _ k₂ (Steps.refl.tail htick) (fun x hx hc => ?_) ?_)
  · rw [List.mem_singleton.mp hx] at hc
    cases hc
  · exact show 1 < (0xFFFFFFFF : Word).toNat by decide

end SpKernel
