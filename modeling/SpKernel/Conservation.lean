import SpKernel.Operations
import SpKernel.Reports

/-!
# PCBs, stacks and queue nodes are conserved

Stacks and PCBs are allocated and released through two separate queues,
and neither `_stk_dealloc` nor `_pcb_dealloc` looks at the result of its
`_q_enque`. What keeps the two in step is that every stack is either on
the free list or belongs to a process (`Family.Stocked`): with one stack
for each process there are then as many free stacks as free PCBs, and a
`fork` that finds a PCB finds a stack. `Stocked.act` keeps this over
every act of the family, `reachable_stocked` over every run, and
`stacks_conserved` says it of the kernel, together with what a `fork`
returns (`ForkReturns`).

The queue nodes are counted by `Placed.nodes`. That no handler is ever
affected by their number is stated by adding nodes to the pool:
`step_grow` says that a kernel with more of them does exactly the same,
for every event. There is one lemma for each function of the kernel on
the way (those whose names end in `_grow`), and those that need a node
have one about the nodes that are left (`_nodes`). `qnodes_suffice` draws
the conclusion for runs: five nodes are always free, none of the panics
over a failed `_q_enque` is reached (`enquePanics`), and every PCB and
every stack that is not in use is on its free list.
-/

namespace SpKernel

open Function (update update_self update_of_ne)
open Lib

namespace Family

variable {f g : Family}

/-- Every stack is free or belongs to a member. -/
def Stocked (f : Family) : Prop :=
  ∀ s, s ∈ f.freeStacks ∨ ∃ p, (f.members p).mode ≠ .free ∧ (f.members p).stack = some s

/-- No free stack is taken, and the stack of everyone who goes is free. -/
theorem Stocked.of_kept (hs : f.Stocked) (hfree : f.freeStacks ⊆ g.freeStacks)
    (hkept : ∀ p s, (f.members p).mode ≠ .free → (f.members p).stack = some s →
      s ∈ g.freeStacks ∨ (g.members p).mode ≠ .free ∧ (g.members p).stack = some s) :
    g.Stocked := by
  intro s
  rcases hs s with h | ⟨p, hp, hstk⟩
  · exact .inl (hfree h)
  · rcases hkept p s hp hstk with h | h
    · exact .inl h
    · exact .inr ⟨p, h⟩

theorem Stocked.fork {p new : PcbId} {stk : StackId} (hs : f.Stocked)
    (hen : (Act.fork p new stk).Enabled f) : (f.fork p new stk).Stocked := by
  obtain ⟨hp, hnew, hstk, -⟩ := hen
  have hne : new ≠ p := ne_of_mode hp hnew (by decide)
  intro s
  rcases hs s with h | ⟨q, hq, hown⟩
  · have hcons : f.freeStacks = stk :: (f.fork p new stk).freeStacks := fork_stacks hstk
    rw [hcons, List.mem_cons] at h
    rcases h with rfl | h
    · refine .inr ⟨new, ?_, ?_⟩ <;> rw [fork_new f s hne]
      · exact Mode.Live.ne_free (.inl rfl)
      · rfl
    · exact .inl h
  · have hqn : q ≠ new := fun hc => hq (hc ▸ hnew)
    obtain ⟨hmode, -, -, hst⟩ := fork_old f p stk hqn
    exact .inr ⟨q, hmode ▸ hq, hst.trans hown⟩

theorem Stocked.block {p : PcbId} (hs : f.Stocked) : (f.block p).Stocked := by
  refine hs.of_kept (fun _ h => h) fun q s hq hown => .inr ?_
  rw [Family.block, members_set]
  split
  · rename_i he
    exact ⟨Mode.Live.ne_free (.inr rfl), he ▸ hown⟩
  · exact ⟨hq, hown⟩

/-- The stack of the one who goes is free afterwards. -/
theorem Stocked.release {v : PcbId} (hs : f.Stocked) : (f.release v).Stocked := by
  refine hs.of_kept (fun _ h => List.mem_append_left _ h) fun q s hq hown => ?_
  rcases eq_or_ne q v with rfl | hqv
  · refine .inl (List.mem_append_right _ ?_)
    rw [hown]
    exact List.mem_singleton.mpr rfl
  · rw [members_release, if_neg hqv]
    exact .inr ⟨hq, hown⟩

/-- Only who is a member and who has which stack matters. -/
theorem Stocked.congr (hs : f.Stocked) (hfree : g.freeStacks = f.freeStacks)
    (hmode : ∀ p, (f.members p).mode ≠ .free → (g.members p).mode ≠ .free)
    (hstk : ∀ p, (g.members p).stack = (f.members p).stack) : g.Stocked :=
  hs.of_kept (fun _ h => hfree ▸ h) fun p _ hp hown => .inr ⟨hmode p hp, (hstk p).trans hown⟩

theorem Stocked.reap {p z : PcbId} (hs : f.Stocked) : (f.reap p z).Stocked := by
  have h1 : (f.set p ((f.members p).setChildren ((f.members p).children - 1))).Stocked := by
    refine hs.congr rfl (fun q hq => ?_) fun q => ?_ <;> rw [members_set] <;> split
    · rename_i he
      exact he ▸ hq
    · exact hq
    · rename_i he
      rw [he]
      rfl
    · rfl
  exact Stocked.release (h1.congr rfl (fun _ => id) fun _ => rfl)

theorem Stocked.terminate {v : PcbId} {m : Mode} {status : Word} (hs : f.Stocked) (h : f.Inv)
    (hen : (Act.terminate v m status).Enabled f) : (f.terminate v m status).Stocked := by
  have ho : (f.orphan v m status).Stocked :=
    hs.congr rfl (fun q hq hc => hq ((orphan_free hen.1 hen.2 q).mp hc)) fun q => orphan_stack ..
  obtain ⟨q, -, -, ⟨hl, -⟩ | ⟨hl, -, hne, -⟩⟩ := h.terminate_cases hen
  · rw [hl]
    exact ho
  · rw [hl]
    have hr : ((f.orphan v m status).handOver q v).Stocked :=
      Stocked.release (ho.congr rfl (fun _ => id) fun _ => rfl)
    refine hr.congr rfl (fun x hx => ?_) fun x => ?_ <;> rw [wake, members_set] <;> split
    · exact Mode.Live.ne_free (.inl rfl)
    · exact hx
    · rename_i he
      rw [he]
      rfl
    · rfl

theorem Stocked.act (hs : f.Stocked) (h : f.Inv) {a : Act} (hen : a.Enabled f) :
    (a.apply f).Stocked := by
  cases a with
  | quiet => exact hs
  | fork p new stk => exact hs.fork hen
  | block p => exact hs.block
  | reap p z => exact hs.reap
  | terminate v m status => exact hs.terminate h hen

theorem Inv.length_freeStacks (h : f.Inv) (hs : f.Stocked) :
    f.freeStacks.length = (Finset.univ.filter fun p => (f.members p).mode = .free).card := by
  -- the members and the stacks that are not free correspond one to one
  have howned : (Finset.univ.filter fun p => (f.members p).mode ≠ .free).card
      = (Finset.univ.filter fun s => s ∉ f.freeStacks).card := by
    have howner : ∀ p ∈ Finset.univ.filter (fun p => (f.members p).mode ≠ .free),
        ∃ s, (f.members p).stack = some s ∧ s ∉ f.freeStacks := fun p hp =>
      h.owns p (Finset.mem_filter.mp hp).2
    choose! owner hown hnot using howner
    refine Finset.card_nbij owner ?_ ?_ ?_
    · exact fun p hp => Finset.mem_filter.mpr ⟨Finset.mem_univ _, hnot p hp⟩
    · intro p hp q hq he
      refine h.ownsInj p q (Finset.mem_filter.mp hp).2 (Finset.mem_filter.mp hq).2 ?_
      rw [hown p hp, hown q hq, he]
    · intro s hs'
      rcases hs s with hc | ⟨p, hp, hstk⟩
      · exact absurd hc (Finset.mem_filter.mp hs').2
      · have hp' : p ∈ Finset.univ.filter fun p => (f.members p).mode ≠ .free :=
          Finset.mem_filter.mpr ⟨Finset.mem_univ p, hp⟩
        exact ⟨p, hp', Option.some.inj ((hown p hp').symm.trans hstk)⟩
  have hlist : f.freeStacks.length = (Finset.univ.filter fun s => s ∈ f.freeStacks).card := by
    rw [← List.toFinset_card_of_nodup h.stackNodup]
    congr 1
    ext s
    simp
  have hpcbs := Finset.card_filter_add_card_filter_not (s := (Finset.univ : Finset PcbId))
    fun p => (f.members p).mode = .free
  have hstks := Finset.card_filter_add_card_filter_not (s := (Finset.univ : Finset StackId))
    fun s => s ∈ f.freeStacks
  rw [Finset.card_univ, Fintype.card_fin] at hpcbs hstks
  simp only [nPcbs, nStacks, ne_eq] at hpcbs hstks howned
  omega

theorem first_stocked {p : PcbId} {stk : StackId} {rest : List StackId}
    (h : ∀ s, s = stk ∨ s ∈ rest) : (first p stk rest).Stocked := by
  intro s
  rcases h s with rfl | h
  · have hp : (first p s rest).members p = _ := first_self
    exact .inr ⟨p, by rw [hp]; exact Mode.Live.ne_free (.inl rfl), by rw [hp]⟩
  · exact .inl h

end Family

/-! ## Forks -/

variable {image : Image} {mm : MemMgr} {pages : Nat} {k₀ k k' : Kernel}
  {tr : List (Kernel × Event)}

theorem reachable_stocked (h0 : init image mm pages = .ok k₀) (hrun : Steps step k₀ tr k) :
    k.family.Stocked := by
  have hx : Good k ∧ k.family.Stocked := by
    refine hrun.inv (P := fun k => Good k ∧ k.family.Stocked) (fun s e s' hs h => ?_) ?_
    · have hsim := step_sim hs.1 e
      rw [h] at hsim
      obtain ⟨g', a, -, hen, hf⟩ := hsim
      exact ⟨g', hf ▸ hs.2.act hs.1.family hen⟩
    · obtain ⟨g, p, hf⟩ := init_first h0
      refine ⟨g, hf ▸ Family.first_stocked fun s => ?_⟩
      exact List.mem_cons.mp (List.mem_finRange s)
  exact hx.2

theorem length_free (g : Good k) (hs : k.family.Stocked) :
    k.freeStacks.length = (k.on .free).length := by
  have hfree : (k.on .free).toFinset
      = Finset.univ.filter fun p => (k.family.members p).mode = .free := by
    ext p
    rw [List.mem_toFinset, g.mem_free, Finset.mem_filter]
    exact ⟨fun h => ⟨Finset.mem_univ p, mode_eq_free.mpr h⟩, fun h => mode_eq_free.mp h.2⟩
  rw [← List.toFinset_card_of_nodup (g.placed.nodup .free), hfree]
  exact g.family.length_freeStacks hs

/-- What `fork` returns in `k`: the next PID, or the reason why not. -/
inductive ForkReturns (k : Kernel) : Word → Prop
  | pid : k.nextPid < 65000#16 → ForkReturns k (k.nextPid.signExtend 32)
  | noMoreProcs : 65000#16 ≤ k.nextPid → ForkReturns k Status.noMoreProcs.word
  | noPcbs : (∀ p, (k.pcbs p).state ≠ .free) → ForkReturns k Status.noPcbs.word

theorem ForkReturns.code {v : Word} (h : ForkReturns k v) :
    v ≠ Status.noStacks.word ∧ (v = Status.noPcbs.word → ∀ p, (k.pcbs p).state ≠ .free) := by
  cases h with
  | pid hlt =>
      have hne : ∀ c : Half, 65000#16 ≤ c → k.nextPid.signExtend 32 ≠ c.signExtend 32 := by
        intro c hc he
        rw [signExtend_inj he] at hlt
        exact absurd hlt (BitVec.not_lt.mpr hc)
      exact ⟨hne (-8) (by decide), fun he => absurd he (hne (-9) (by decide))⟩
  | noMoreProcs _ => exact ⟨by decide, fun he => absurd he (by decide)⟩
  | noPcbs hall => exact ⟨by decide, fun _ => hall⟩

theorem birth_result (k : Kernel) (p new : PcbId) (stk : StackId) :
    ((birth k p new stk).pcbs p).context.regs.eax = k.nextPid.signExtend 32 := by
  rw [birth, setPcb_self, Kernel.setRet, setPcb_self]

/-- `_sys_fork` where there is a stack for every PCB. -/
theorem sysFork_returns (g : Good k) (hstk : k.on .free ≠ [] → k.freeStacks ≠ []) :
    ∃ k', sysFork k k.current = .ok k'
      ∧ ForkReturns k (k'.pcbs k.current).context.regs.eax := by
  rw [sysFork]
  split
  · rename_i hle
    exact ⟨_, rfl, setRet_eax k k.current _ ▸ .noMoreProcs hle⟩
  rename_i hlt
  cases hfree : k.on .free with
  | nil =>
      rw [pcbAlloc_nil hfree]
      refine ⟨_, rfl, setRet_eax k k.current _ ▸ .noPcbs fun p hp => ?_⟩
      have := g.mem_free.mpr hp
      rw [hfree] at this
      cases this
  | cons new l =>
      obtain ⟨Q, hnew, hpl, hQ⟩ := pcbAlloc_cons g.placed hfree
      rw [LawfulSingleton.insert_empty_eq] at hpl
      have hne : k.current ≠ new := by
        rintro he
        have hst := g.mem_free.mp (hfree ▸ List.mem_cons_self .. : new ∈ k.on .free)
        rw [← he, g.running] at hst
        cases hst
      have h1 := hpl.setOff (Set.mem_singleton new) fun x => { x with state := .new }
      obtain ⟨stk, rest, hs⟩ := List.exists_cons_of_ne_nil (hstk (by rw [hfree]; simp))
      obtain ⟨Q₂, hsome, h2, -⟩ := stkAlloc_cons h1 (hQ.trans hs)
      simp only [hnew, ok_bind, hsome]
      have h3 := h2.birth k.current stk
      obtain ⟨k', hk', -⟩ := schedule_spec h3 (Set.mem_singleton new)
      have hborn : schedule (birth _ k.current new stk) new = .ok k' := hk'
      refine ⟨k', hborn, ?_⟩
      rw [schedule_other hk' hne, birth_result]
      exact .pid (BitVec.not_le.mp hlt)

/-- In every reachable state each process has one stack of its own, there
are as many free stacks as free PCBs, and a `fork` that does not run out
of PIDs fails only when every PCB is in use. -/
theorem stacks_conserved (h0 : init image mm pages = .ok k₀) (hrun : Steps step k₀ tr k) :
    (∀ p, (k.pcbs p).state ≠ .free → ∃ s, (k.pcbs p).stack = some s ∧ s ∉ k.freeStacks
      ∧ ∀ q, (k.pcbs q).state ≠ .free → (k.pcbs q).stack = some s → q = p)
    ∧ (k.freeStacks.Nodup ∧ (k.on .free).Nodup ∧ k.freeStacks.length = (k.on .free).length
      ∧ ∀ p, p ∈ k.on .free ↔ (k.pcbs p).state = .free)
    ∧ ∀ frame keys, frame.regs.eax = 3 → ∃ k', step k (.interrupt frame (.syscall keys)) = .ok k'
      ∧ (k'.pcbs k.current).context.regs.eax ≠ Status.noStacks.word
      ∧ ((k'.pcbs k.current).context.regs.eax = Status.noPcbs.word →
        ∀ p, (k.pcbs p).state ≠ .free)
      ∧ ForkReturns k (k'.pcbs k.current).context.regs.eax := by
  have g := reachable_good h0 hrun
  have hlen := length_free g (reachable_stocked h0 hrun)
  refine ⟨fun p hp => ?_, ⟨g.placed.stackNodup, g.placed.nodup .free, hlen, fun p => g.mem_free⟩,
    fun frame keys heax => ?_⟩
  · have hmode : (k.family.members p).mode ≠ .free := fun hc => hp (mode_eq_free.mp hc)
    obtain ⟨s, hs, hnot⟩ := g.family.owns p hmode
    refine ⟨s, hs, hnot, fun q hq hsq => ?_⟩
    exact g.family.ownsInj q p (fun hc => hq (mode_eq_free.mp hc)) hmode (hsq.trans hs.symm)
  · have hstk : (isrSave k frame).on .free ≠ [] → (isrSave k frame).freeStacks ≠ [] := by
      intro hne hc
      have hzero : (k.on .free).length = 0 := by rw [← hlen]; exact congrArg List.length hc
      exact hne (List.eq_nil_of_length_eq_zero hzero)
    obtain ⟨k', hk', hret⟩ := sysFork_returns (g.isrSave frame) hstk
    have hret' : ForkReturns k (k'.pcbs k.current).context.regs.eax := by
      rw [isrSave_current] at hret
      generalize (k'.pcbs k.current).context.regs.eax = v at hret
      cases hret with
      | pid h => exact .pid h
      | noMoreProcs h => exact .noMoreProcs h
      | noPcbs h => exact .noPcbs fun p => isrSave_state k frame p ▸ h p
    refine ⟨isrRestore k', ?_, hret'.code.1, hret'.code.2, hret'⟩
    rw [step_syscall k heax rfl]
    exact congrArg (fun x => x >>= fun k' => .ok (isrRestore k')) hk'

/-- `init` has a child, which has a stack of its own; the next `fork`
finds a PCB and a stack. -/
theorem stacks_conserved_fork : ∃ k₀ tr k, init someImage lowPageUsed 0 = .ok k₀
    ∧ Steps step k₀ tr k ∧ (k.pcbs 1).stack = some 1 ∧ 1 ∉ k.freeStacks
    ∧ k.freeStacks.length = 26 ∧ (k.on .free).length = 26
    ∧ ∃ k', step k (call 3 0 0 0) = .ok k'
      ∧ ForkReturns k (k'.pcbs k.current).context.regs.eax := by
  obtain ⟨k₀, tr, k, h0, hrun, -, ht⟩ := run_of_test [call 3 0 0 0]
    (fun k => decide ((k.pcbs 1).state ≠ .free ∧ (k.pcbs 1).stack = some 1
      ∧ (k.on .free).length = 26)) (by decide +kernel)
  obtain ⟨hst, hstk, hlen⟩ := of_decide_eq_true ht
  obtain ⟨hown, ⟨-, -, heq, -⟩, hfork⟩ := stacks_conserved h0 hrun
  obtain ⟨s, hs, hnot, -⟩ := hown 1 hst
  obtain rfl := Option.some.inj (hstk.symm.trans hs)
  obtain ⟨k', hk', -, -, hret⟩ := hfork (callFrame 3 0 0 0) [] rfl
  exact ⟨k₀, tr, k, h0, hrun, hstk, hnot, heq.trans hlen, hlen, k', hk', hret⟩

/-! ## The node pool -/

/-- The kernel with `m` more queue nodes. -/
def Kernel.grow (k : Kernel) (m : Nat) : Kernel :=
  { k with queues := { k.queues with nodes := k.queues.nodes + m } }

section Grow

variable {m : Nat} {p : PcbId}

@[simp] theorem grow_pcbs : (k.grow m).pcbs = k.pcbs := rfl

@[simp] theorem grow_current : (k.grow m).current = k.current := rfl

@[simp] theorem grow_size (q : QueueId) : (k.grow m).queues.size q = k.queues.size q := rfl

theorem grow_setPcb (k : Kernel) (m : Nat) (p : PcbId) (f : Pcb → Pcb) :
    (k.grow m).setPcb p f = (k.setPcb p f).grow m := rfl

theorem enque_grow (hn : k.queues.nodes ≠ 0) (q : PQueue) :
    (k.grow m).enque q p = ((k.enque q p).1, (k.enque q p).2.grow m) := by
  have hn' : k.queues.nodes + m ≠ 0 := by omega
  simp only [Kernel.enque, Kernel.grow, QPool.enque, hn, hn', ↓reduceIte]
  rw [Nat.sub_add_comm (Nat.pos_of_ne_zero hn)]
  rfl

theorem deque_grow (k : Kernel) (m : Nat) (q : PQueue) : (k.grow m).deque q
    = ((k.deque q).1, (k.deque q).2.1, (k.deque q).2.2.grow m) := by
  simp only [Kernel.deque, Kernel.grow, QPool.deque]
  split
  · rfl
  · rw [Nat.add_right_comm]

theorem remove_grow (k : Kernel) (m : Nat) (q : PQueue) (p : PcbId) : (k.grow m).remove q p
    = ((k.remove q p).1, (k.remove q p).2.grow m) := by
  by_cases hp : p ∈ k.queues.items (.pcbs q)
  · simp only [Kernel.remove, Kernel.grow, QPool.remove, hp, ↓reduceIte]
    rw [Nat.add_right_comm]
  · simp only [Kernel.remove, Kernel.grow, QPool.remove, hp, ↓reduceIte]

theorem schedule_grow (hn : k.queues.nodes ≠ 0) :
    schedule (k.grow m) p = (schedule k p).map (·.grow m) := by
  simp only [schedule, grow_setPcb, grow_pcbs]
  have hn' : (k.setPcb p Pcb.makeReady).queues.nodes ≠ 0 := hn
  generalize k.setPcb p Pcb.makeReady = k₁ at hn'
  rw [enque_grow hn']
  rcases k₁.enque (.ready (Fin.ofNat nPrios (k₁.pcbs p).prio.toNat)) p with ⟨st, k₂⟩
  cases st <;> rfl

theorem dispatch_grow (k : Kernel) (m : Nat) :
    dispatch (k.grow m) = (dispatch k).map (·.grow m) := by
  have hsize : ∀ prio, (k.grow m).queues.size (.pcbs (.ready prio))
      = k.queues.size (.pcbs (.ready prio)) := fun _ => rfl
  rw [dispatch, dispatch]
  simp only [hsize]
  cases (List.finRange nPrios).find? fun prio =>
      decide (0 < k.queues.size (.pcbs (.ready prio))) with
  | none => rfl
  | some prio =>
      simp only [deque_grow]
      rcases k.deque (.ready prio) with ⟨st, x, k₂⟩
      cases st with
      | success => cases x <;> rfl
      | _ => rfl

theorem pcbAlloc_grow (k : Kernel) (m : Nat) :
    pcbAlloc (k.grow m) = (pcbAlloc k).map fun x => (x.1, x.2.grow m) := by
  by_cases hsz : k.queues.size (.pcbs .free) < 1
  · simp only [pcbAlloc, grow_size, hsz, ↓reduceIte]
    rfl
  · simp only [pcbAlloc, grow_size, hsz, ↓reduceIte, deque_grow]
    rcases k.deque .free with ⟨st, x, k₂⟩
    cases st with
    | success => cases x <;> rfl
    | _ => rfl

theorem stkAlloc_grow (k : Kernel) (m : Nat) :
    stkAlloc (k.grow m) = (stkAlloc k).map fun x => (x.1, x.2.grow m) := by
  by_cases hsz : k.queues.size .freeStacks < 1
  · simp only [stkAlloc, grow_size, hsz, ↓reduceIte]
    rfl
  · simp only [stkAlloc, grow_size, hsz, ↓reduceIte, QPool.deque]
    have hitems : (k.grow m).queues.items .freeStacks = k.queues.items .freeStacks := rfl
    rw [hitems]
    cases k.queues.items .freeStacks with
    | nil => rfl
    | cons s l =>
        simp only [Kernel.grow, Except.map]
        rw [Nat.add_right_comm]

theorem deque_nodes {q : PQueue} {x : PcbId} (h : k.deque q = (.success, some x, k')) :
    k'.queues.nodes = k.queues.nodes + 1 := by
  simp only [Kernel.deque, QPool.deque] at h
  split at h <;> cases h
  rfl

theorem pcbAlloc_nodes {x : Option PcbId} (h : pcbAlloc k = .ok (x, k')) :
    k'.queues.nodes = k.queues.nodes + x.toList.length := by
  rcases pcbAlloc_cases h with ⟨rfl, rfl⟩ | ⟨p, k₁, rfl, hd, rfl⟩
  · rfl
  · have hnodes : k₁.queues.nodes = _ := deque_nodes hd
    exact hnodes

theorem stkAlloc_nodes {x : Option StackId} (h : stkAlloc k = .ok (x, k')) :
    k.queues.nodes ≤ k'.queues.nodes := by
  rcases stkAlloc_cases h with ⟨-, rfl⟩ | ⟨s, l, -, -, rfl⟩
  · exact le_refl _
  · exact Nat.le_succ _

theorem stkDealloc_grow (hn : k.queues.nodes ≠ 0) (stack : Option StackId) :
    stkDealloc (k.grow m) stack = (stkDealloc k stack).grow m := by
  cases stack with
  | none => rfl
  | some s =>
      have hn' : k.queues.nodes + m ≠ 0 := by omega
      simp only [stkDealloc, Kernel.grow, QPool.enque, hn, hn', ↓reduceIte]
      rw [Nat.sub_add_comm (Nat.pos_of_ne_zero hn)]

theorem pcbDealloc_grow (hn : k.queues.nodes ≠ 0) :
    pcbDealloc (k.grow m) p = (pcbDealloc k p).grow m := by
  have hn' : (k.setPcb p Pcb.makeFree).queues.nodes ≠ 0 := hn
  simp only [pcbDealloc, grow_setPcb, enque_grow hn']

theorem stkDealloc_nodes (k : Kernel) (stack : Option StackId) :
    k.queues.nodes ≤ (stkDealloc k stack).queues.nodes + 1 := by
  cases stack with
  | none => exact Nat.le_succ _
  | some s =>
      simp only [stkDealloc, QPool.enque]
      split
      · exact Nat.le_succ _
      · simp only
        omega

theorem pcbDealloc_nodes (k : Kernel) (p : PcbId) :
    k.queues.nodes ≤ (pcbDealloc k p).queues.nodes + 1 := by
  by_cases hn : k.queues.nodes = 0
  · simp only [pcbDealloc, Kernel.enque, QPool.enque, Kernel.setPcb, hn, ↓reduceIte]
    exact Nat.zero_le _
  · simp only [pcbDealloc, Kernel.enque, QPool.enque, Kernel.setPcb, hn, ↓reduceIte]
    omega

theorem pcbCleanup_grow (hn : 2 ≤ k.queues.nodes) :
    pcbCleanup (k.grow m) p = (pcbCleanup k p).grow m
      ∧ k.queues.nodes ≤ (pcbCleanup k p).queues.nodes + 2 := by
  have h1 := stkDealloc_nodes k (k.pcbs p).stack
  have h2 := pcbDealloc_nodes (stkDealloc k (k.pcbs p).stack) p
  refine ⟨?_, by rw [pcbCleanup]; omega⟩
  rw [pcbCleanup, grow_pcbs, stkDealloc_grow (by omega), pcbDealloc_grow (by omega), pcbCleanup]

theorem pcbFindChildOf_grow (k : Kernel) (m : Nat) (ppid : Word) :
    pcbFindChildOf (k.grow m) ppid = (pcbFindChildOf k ppid).map fun x => (x.1, x.2.grow m) := by
  have hsearch : ∀ target start, pcbFindChildOf.search (k.grow m) target start
      = (pcbFindChildOf.search k target start).map fun x => (x.1, x.2.grow m) := by
    intro target start
    have hfind : findChildFrom (k.grow m) target start = findChildFrom k target start := rfl
    rw [pcbFindChildOf.search, pcbFindChildOf.search, hfind]
    cases findChildFrom k target start <;> rfl
  have hcurr : (k.grow m).childCurr = k.childCurr := rfl
  have htgt : (k.grow m).childTarget = k.childTarget := rfl
  rw [pcbFindChildOf, pcbFindChildOf, hcurr, htgt]
  cases k.childCurr with
  | none =>
      by_cases h : ppid = -1
      · simp only [h, ↓reduceIte]
        rfl
      · simp only [h, ↓reduceIte, hsearch]
  | some c =>
      by_cases h : ppid = -1
      · simp only [h, ne_eq, not_true_eq_false, ↓reduceIte, hsearch]
      · simp only [h, ne_eq, not_false_eq_true, ↓reduceIte, hsearch]

theorem pcbFindChildOf_queues {ppid : Word} {x : Option PcbId}
    (h : pcbFindChildOf k ppid = .ok (x, k')) : k'.queues = k.queues := by
  obtain ⟨curr, tgt, rfl⟩ := pcbFindChildOf_same h
  rfl

theorem reparentLoop_grow (m : Nat) : ∀ (fuel : Nat) (k : Kernel) (x : Option PcbId),
    reparentLoop fuel (k.grow m) x = (reparentLoop fuel k x).map (·.grow m)
  | _, _, none => by
      simp only [reparentLoop]
      rfl
  | 0, _, some _ => rfl
  | fuel + 1, k, some whom =>
      bind_map_of (pcbFindChildOf_grow (adopt k whom) m (-1)) fun y _ =>
        reparentLoop_grow m fuel y.2 y.1

theorem reparentLoop_queues : ∀ (fuel : Nat) {k : Kernel} {x : Option PcbId},
    reparentLoop fuel k x = .ok k' → k'.queues = k.queues
  | _, k, none, h => by
      simp only [reparentLoop, Except.ok.injEq] at h
      rw [h]
  | 0, _, some _, h => by cases h
  | fuel + 1, k, some whom, h => by
      obtain ⟨y, hy, h⟩ := bind_eq_ok.mp h
      have hq : y.2.queues = (adopt k whom).queues := pcbFindChildOf_queues hy
      exact (reparentLoop_queues fuel h).trans hq

theorem reparent_grow (k : Kernel) (m : Nat) (p : PcbId) :
    reparent (k.grow m) p = (reparent k p).map (·.grow m) := by
  by_cases hc : 0 < (k.pcbs p).children
  · simp only [reparent, grow_pcbs, hc, ↓reduceIte]
    refine bind_map_of (pcbFindChildOf_grow k m _) fun y _ => ?_
    refine bind_map_of (reparentLoop_grow m _ _ _) fun z _ => ?_
    rfl
  · simp only [reparent, grow_pcbs, hc, ↓reduceIte]
    rfl

theorem reparent_queues (h : reparent k p = .ok k') : k'.queues = k.queues := by
  rw [reparent] at h
  split at h
  · obtain ⟨y, hy, h⟩ := bind_eq_ok.mp h
    obtain ⟨z, hz, h⟩ := bind_eq_ok.mp h
    rw [← Except.ok.inj h]
    exact (reparentLoop_queues _ hz).trans (pcbFindChildOf_queues hy)
  · rw [Except.ok.inj h]

theorem remove_nodes {q : PQueue} (h : k.remove q p = (.success, k')) :
    k'.queues.nodes = k.queues.nodes + 1 := by
  by_cases hp : p ∈ k.queues.items (.pcbs q)
  · simp only [Kernel.remove, QPool.remove, hp, ↓reduceIte, Prod.mk.injEq, true_and] at h
    rw [← h]
  · simp only [Kernel.remove, QPool.remove, hp, ↓reduceIte, Prod.mk.injEq] at h
    cases h.1

theorem lay_grow (hn : 2 ≤ k.queues.nodes) :
    lay (k.grow m) p = (lay k p).map (·.grow m) := by
  have hfind : pcbFind (k.grow m) (k.pcbs p).ppid = pcbFind k (k.pcbs p).ppid := rfl
  rw [lay, lay, grow_pcbs, hfind]
  cases pcbFind k (k.pcbs p).ppid with
  | none => rfl
  | some parent =>
      by_cases hw : (k.pcbs parent).state = .waiting
      · simp only [hw, ↓reduceIte, remove_grow]
        cases hr : k.remove .waiting parent with
        | mk st k₁ =>
            cases st with
            | success =>
                have hk₁ := remove_nodes hr
                have hd : 2 ≤ (deliver k₁ parent p).queues.nodes := by
                  change 2 ≤ k₁.queues.nodes
                  omega
                obtain ⟨hc, hle⟩ := pcbCleanup_grow (m := m) (p := p) hd
                have hd' : (deliver k₁ parent p).queues.nodes = k₁.queues.nodes := rfl
                change schedule (pcbCleanup ((deliver k₁ parent p).grow m) p) parent = _
                rw [hc]
                exact schedule_grow (by omega)
            | _ => rfl
      · simp only [hw, ↓reduceIte]
        rw [enque_grow (by omega)]
        rcases k.enque .zombie p with ⟨st, k₁⟩
        cases st <;> rfl

theorem zombify_grow (hn : 2 ≤ k.queues.nodes) :
    zombify (k.grow m) p = (zombify k p).map (·.grow m) := by
  refine bind_map_of (reparent_grow k m p) fun k₁ hk₁ => lay_grow ?_
  rw [reparent_queues hk₁]
  exact hn

/-! ### Handlers -/

theorem sysExit_grow (hn : 2 ≤ k.queues.nodes) :
    sysExit (k.grow m) p = (sysExit k p).map (·.grow m) :=
  bind_map_of (zombify_grow (k := k.setPcb p fun x =>
    { x with exitstatus := k.arg p 1, state := .zombie }) hn) fun k₁ _ => dispatch_grow k₁ m

theorem pageFaultIsr_grow (hn : 2 ≤ k.queues.nodes) :
    pageFaultIsr (k.grow m) = (pageFaultIsr k).map (·.grow m) :=
  bind_map_of (zombify_grow (k := k.setPcb k.current fun x =>
    { x with state := .killed, exitstatus := exitKilled }) hn) fun k₁ _ => dispatch_grow k₁ m

theorem readDone_grow (hn : 2 ≤ k.queues.nodes) (n : Nat) :
    readDone (k.grow m) p n = (readDone k p n).map (·.grow m) := by
  by_cases h : 0 < n
  · simp only [readDone, h, ↓reduceIte]
    rfl
  · simp only [readDone, h, ↓reduceIte]
    rw [enque_grow (by omega)]
    rcases k.enque .reading p with ⟨st, k₁⟩
    cases st with
    | success => exact dispatch_grow (k₁.setPcb k₁.current fun x => { x with state := .blocked }) m
    | _ => rfl

theorem sysRead_grow (keys : List Byte) (hn : 2 ≤ k.queues.nodes) :
    sysRead keys (k.grow m) p = (sysRead keys k p).map (·.grow m) := by
  have harg : ∀ i, (k.grow m).arg p i = k.arg p i := fun _ => rfl
  simp only [sysRead, harg]
  by_cases h0 : k.arg p 1 = 0
  · simp only [h0, ↓reduceIte]
    have hc : (k.grow m).console = k.console := rfl
    rw [hc]
    by_cases h1 : cInputQueue k.console < 1
    · simp only [h1, ↓reduceIte]
      rfl
    · simp only [h1, ↓reduceIte]
      rw [show (k.grow m).mm.mem = k.mm.mem from rfl]
      have hgets : cGets k.console keys k.mm.mem (k.arg p 2) (k.arg p 3)
          = (cGets k.console keys k.mm.mem (k.arg p 2) (k.arg p 3)).map id := by
        cases cGets k.console keys k.mm.mem (k.arg p 2) (k.arg p 3) <;> rfl
      refine bind_map_of hgets fun x _ => ?_
      exact readDone_grow (k := { k with
        console := x.2.1, mm := { k.mm with mem := x.2.2 } }) hn x.1
  · simp only [h0, ↓reduceIte]
    by_cases h1 : k.arg p 1 = 1
    · simp only [h1, ↓reduceIte]
      exact readDone_grow (k := { k with
        sio := (sioReads k.sio k.mm.mem (k.arg p 2) (k.arg p 3).toInt).2.1
        mm := { k.mm with
          mem := (sioReads k.sio k.mm.mem (k.arg p 2) (k.arg p 3).toInt).2.2 } }) hn _
    · simp only [h1, ↓reduceIte]
      rfl

theorem sysWrite_grow (k : Kernel) (m : Nat) (p : PcbId) :
    sysWrite (k.grow m) p = (sysWrite k p).map (·.grow m) := by
  have harg : ∀ i, (k.grow m).arg p i = k.arg p i := fun _ => rfl
  simp only [sysWrite, harg]
  by_cases h0 : k.arg p 1 = 0
  · simp only [h0, ↓reduceIte]
    rfl
  · simp only [h0, ↓reduceIte]
    by_cases h1 : k.arg p 1 = 1
    · simp only [h1, ↓reduceIte]
      rfl
    · simp only [h1, ↓reduceIte]
      rfl

theorem sysSleep_grow (hn : 2 ≤ k.queues.nodes) :
    sysSleep (k.grow m) p = (sysSleep k p).map (·.grow m) := by
  have harg : (k.grow m).arg p 1 = k.arg p 1 := rfl
  have hnow : (k.grow m).now = k.now := rfl
  rw [sysSleep, sysSleep, harg, hnow]
  by_cases h0 : k.arg p 1 = 0
  · simp only [h0, ↓reduceIte]
    exact bind_map_of (schedule_grow (by omega)) fun k₁ _ => dispatch_grow k₁ m
  · simp only [h0, ↓reduceIte, grow_setPcb]
    have hn' : (k.setPcb p fun x => { x with
        wakeup := k.now + k.arg p 1, state := .sleeping }).queues.nodes ≠ 0 := by
      change k.queues.nodes ≠ 0
      omega
    rw [enque_grow hn']
    rcases (k.setPcb p fun x => { x with
      wakeup := k.now + k.arg p 1, state := .sleeping }).enque .sleeping p with ⟨st, k₁⟩
    cases st with
    | success => exact dispatch_grow k₁ m
    | _ => rfl

theorem finishKill_grow {v : PcbId} (hn : 2 ≤ k.queues.nodes) :
    finishKill (k.grow m) p v = (finishKill k p v).map (·.grow m) := by
  refine bind_map_of (zombify_grow (k := (k.setPcb v fun x =>
    { x with state := .killed, exitstatus := exitKilled }).setRet p Status.success.word) hn)
    fun k₁ _ => ?_
  by_cases hv : v = k₁.current
  · simp only [grow_current, ← hv, ↓reduceIte]
    exact dispatch_grow k₁ m
  · simp only [grow_current, hv, ↓reduceIte]
    rfl

theorem killFrom_grow {v : PcbId} (hn : 2 ≤ k.queues.nodes) (q : PQueue) :
    killFrom (k.grow m) p v q = (killFrom k p v q).map (·.grow m) := by
  simp only [killFrom, remove_grow]
  cases hr : k.remove q v with
  | mk st k₁ =>
      cases st with
      | success =>
          have := remove_nodes hr
          exact finishKill_grow (k := k₁) (by omega)
      | _ => rfl

theorem sysKill_grow (hn : 2 ≤ k.queues.nodes) :
    sysKill (k.grow m) p = (sysKill k p).map (·.grow m) := by
  have hfind : pcbFind (k.grow m) (((k.grow m).arg p 1).setWidth 16)
      = pcbFind k ((k.arg p 1).setWidth 16) := rfl
  rw [sysKill, sysKill, hfind]
  cases pcbFind k ((k.arg p 1).setWidth 16) with
  | none => rfl
  | some v =>
      simp only [grow_pcbs]
      cases (k.pcbs v).state with
      | waiting => exact killFrom_grow hn _
      | sleeping => exact killFrom_grow hn _
      | blocked => exact killFrom_grow hn _
      | ready => exact killFrom_grow hn _
      | running => exact finishKill_grow hn
      | _ => rfl

theorem zombieLoop_grow (m : Nat) : ∀ (fuel : Nat) (k : Kernel) (x : Option PcbId),
    zombieLoop fuel (k.grow m) x = (zombieLoop fuel k x).map fun x => (x.1, x.2.grow m)
  | _, _, none => by
      simp only [zombieLoop]
      rfl
  | 0, _, some _ => rfl
  | fuel + 1, k, some child => by
      by_cases hz : (k.pcbs child).state = .zombie
      · simp only [zombieLoop, grow_pcbs, hz, ↓reduceIte]
        rfl
      · simp only [zombieLoop, grow_pcbs, hz, ↓reduceIte]
        exact bind_map_of (pcbFindChildOf_grow k m (-1)) fun y _ => zombieLoop_grow m fuel y.2 y.1

theorem zombieLoop_queues : ∀ (fuel : Nat) {k : Kernel} {x : Option PcbId}
    {y : Option PcbId × Kernel}, zombieLoop fuel k x = .ok y → y.2.queues = k.queues
  | _, k, none, y, h => by
      simp only [zombieLoop, Except.ok.injEq] at h
      rw [← h]
  | 0, _, some _, _, h => by cases h
  | fuel + 1, k, some child, y, h => by
      rw [zombieLoop] at h
      split at h
      · rw [← Except.ok.inj h]
      · obtain ⟨z, hz, h⟩ := bind_eq_ok.mp h
        have hq : z.2.queues = k.queues := pcbFindChildOf_queues hz
        exact (zombieLoop_queues fuel h).trans hq

theorem sysWait_grow (hn : 2 ≤ k.queues.nodes) :
    sysWait (k.grow m) p = (sysWait k p).map (·.grow m) := by
  by_cases hc : (k.pcbs p).children = 0
  · simp only [sysWait, grow_pcbs, hc, ↓reduceIte]
    rfl
  simp only [sysWait, grow_pcbs, hc, ↓reduceIte]
  refine bind_map_of (pcbFindChildOf_grow k m _) fun y hy => ?_
  refine bind_map_of (zombieLoop_grow m _ _ _) fun z hz => ?_
  have hq : z.2.queues = k.queues := (zombieLoop_queues _ hz).trans (pcbFindChildOf_queues hy)
  obtain ⟨z, k₁⟩ := z
  have hn₁ : 2 ≤ k₁.queues.nodes := by
    rw [show k₁.queues = k.queues from hq]
    exact hn
  cases z with
  | some child =>
      simp only [remove_grow]
      cases hr : k₁.remove .zombie child with
      | mk st k₂ =>
          cases st with
          | success =>
              have hk₂ := remove_nodes hr
              have hd : 2 ≤ (deliver (k₂.setPcb p fun x =>
                  { x with children := x.children - 1 }) p child).queues.nodes := by
                change 2 ≤ k₂.queues.nodes
                omega
              exact congrArg Except.ok (pcbCleanup_grow (m := m) (p := child) hd).1
          | _ => rfl
  | none =>
      simp only [grow_setPcb]
      have hn' : (k₁.setPcb p fun x => { x with state := .waiting }).queues.nodes ≠ 0 := by
        change k₁.queues.nodes ≠ 0
        omega
      rw [enque_grow hn']
      rcases (k₁.setPcb p fun x => { x with state := .waiting }).enque .waiting p with ⟨st, k₂⟩
      cases st with
      | success => exact dispatch_grow k₂ m
      | _ => rfl

theorem sysFork_grow (k : Kernel) (m : Nat) (p : PcbId) :
    sysFork (k.grow m) p = (sysFork k p).map (·.grow m) := by
  have hnext : (k.grow m).nextPid = k.nextPid := rfl
  rw [sysFork, sysFork, hnext]
  by_cases hle : 65000#16 ≤ k.nextPid
  · simp only [hle, ↓reduceIte]
    rfl
  simp only [hle, ↓reduceIte]
  refine bind_map_of (pcbAlloc_grow k m) fun x hx => ?_
  obtain ⟨new, k₁⟩ := x
  cases new with
  | none => rfl
  | some new =>
      have hn₁ : k₁.queues.nodes ≠ 0 := by
        have : k₁.queues.nodes = k.queues.nodes + 1 := pcbAlloc_nodes hx
        omega
      refine bind_map_of (stkAlloc_grow k₁ m) fun y hy => ?_
      obtain ⟨stk, k₂⟩ := y
      have hn₂ : k₁.queues.nodes ≤ k₂.queues.nodes := stkAlloc_nodes hy
      cases stk with
      | none =>
          have hn' : (k₂.setRet p Status.noStacks.word).queues.nodes ≠ 0 := by
            change k₂.queues.nodes ≠ 0
            omega
          exact congrArg Except.ok (pcbDealloc_grow (p := new) (m := m) hn')
      | some stk =>
          have hn' : (birth k₂ p new stk).queues.nodes ≠ 0 := by
            change k₂.queues.nodes ≠ 0
            omega
          exact schedule_grow (p := new) (m := m) hn'

theorem sysExec_grow (k : Kernel) (m : Nat) (p : PcbId) :
    sysExec (k.grow m) p = (sysExec k p).map (·.grow m) := by
  rw [sysExec, sysExec]
  have hspace : execSpace (k.grow m).mm ((k.grow m).arg p 3)
      = (execSpace k.mm (k.arg p 3)).map id := by
    rw [show (k.grow m).mm = k.mm from rfl, show (k.grow m).arg p 3 = k.arg p 3 from rfl]
    cases execSpace k.mm (k.arg p 3) <;> rfl
  refine bind_map_of hspace fun x _ => ?_
  rfl

theorem sysMmap_grow (k : Kernel) (m : Nat) (p : PcbId) :
    sysMmap (k.grow m) p = (sysMmap k p).map (·.grow m) := by
  rw [sysMmap, sysMmap]
  have hmap : kMmap (k.grow m).mm ((k.grow m).pcbs p).memory ((k.grow m).arg p 1)
      ((k.grow m).arg p 2) ((k.grow m).arg p 3)
      = (kMmap k.mm (k.pcbs p).memory (k.arg p 1) (k.arg p 2) (k.arg p 3)).map id := by
    change kMmap k.mm (k.pcbs p).memory (k.arg p 1) (k.arg p 2) (k.arg p 3) = _
    cases kMmap k.mm (k.pcbs p).memory (k.arg p 1) (k.arg p 2) (k.arg p 3) <;> rfl
  refine bind_map_of hmap fun x _ => ?_
  rfl

theorem sysIsr_grow (keys : List Byte) (hn : 2 ≤ k.queues.nodes) :
    sysIsr keys (k.grow m) = (sysIsr keys k).map (·.grow m) := by
  rw [sysIsr, sysIsr, grow_current, grow_pcbs]
  by_cases hcode : nSyscalls ≤ (k.pcbs k.current).context.regs.eax
  · simp only [hcode, ↓reduceIte]
    exact sysExit_grow (k := k.setArg k.current 1 exitBadCode) hn
  · simp only [hcode, ↓reduceIte]
    have hlt : (k.pcbs k.current).context.regs.eax.toNat < 13 := Nat.lt_of_not_le hcode
    generalize (k.pcbs k.current).context.regs.eax.toNat = n at hlt
    interval_cases n
    · exact sysExit_grow hn
    · exact sysRead_grow keys hn
    · exact sysWrite_grow ..
    · exact sysFork_grow ..
    · exact sysExec_grow ..
    · exact sysKill_grow hn
    · exact sysWait_grow hn
    · exact sysSleep_grow hn
    · rfl
    · rfl
    · rfl
    · exact sysMmap_grow ..
    · rfl

theorem schedule_nodes (h : schedule k p = .ok k') : k.queues.nodes = k'.queues.nodes + 1 := by
  simp only [schedule, Kernel.enque, QPool.enque, Kernel.setPcb] at h
  by_cases hn : k.queues.nodes = 0
  · simp only [hn, ↓reduceIte] at h
    cases h
  · simp only [hn, ↓reduceIte] at h
    rw [← Except.ok.inj h]
    simp only
    omega

theorem wakeLoop_grow (m : Nat) : ∀ (fuel : Nat) (k : Kernel),
    wakeLoop fuel (k.grow m) = (wakeLoop fuel k).map (·.grow m)
  | 0, _ => rfl
  | fuel + 1, k => by
      have hpeek : (k.grow m).queues.peek (.pcbs .sleeping) = k.queues.peek (.pcbs .sleeping) := rfl
      have hnow : (k.grow m).now = k.now := rfl
      rw [wakeLoop, wakeLoop, hpeek, hnow]
      rcases k.queues.peek (.pcbs .sleeping) with ⟨st, x⟩
      cases st with
      | success =>
          cases x with
          | none => rfl
          | some x =>
              by_cases hle : (k.pcbs x).wakeup ≤ k.now
              · simp only [grow_pcbs, hle, ↓reduceIte, deque_grow]
                cases hd : k.deque .sleeping with
                | mk st y =>
                    obtain ⟨y, k₁⟩ := y
                    cases st with
                    | success =>
                        cases y with
                        | none => rfl
                        | some y =>
                            have := deque_nodes hd
                            exact bind_map_of (schedule_grow (k := k₁) (by omega)) fun k₂ _ =>
                              wakeLoop_grow m fuel k₂
                    | _ => rfl
              · simp only [grow_pcbs, hle, ↓reduceIte]
                rfl
      | _ => rfl

theorem wakeLoop_nodes : ∀ (fuel : Nat) {k : Kernel}, wakeLoop fuel k = .ok k' →
    k'.queues.nodes = k.queues.nodes
  | 0, _, h => by cases h
  | fuel + 1, k, h => by
      rcases wakeLoop_round h with rfl | ⟨p, k₁, k₂, hd, hs, h⟩
      · rfl
      · have h1 := deque_nodes hd
        have h2 := schedule_nodes hs
        have h3 := wakeLoop_nodes fuel h
        omega

theorem clkIsr_grow (hn : 2 ≤ k.queues.nodes) :
    clkIsr (k.grow m) = (clkIsr k).map (·.grow m) := by
  rw [clkIsr, clkIsr]
  refine bind_map_of (wakeLoop_grow m _ { k with
    pinwheel := if k.pinwheel + 1 = 100 then 0 else k.pinwheel + 1, now := k.now + 1 })
    fun k₁ hk₁ => ?_
  have hn₁ := wakeLoop_nodes _ hk₁
  change k₁.queues.nodes = k.queues.nodes at hn₁
  simp only [grow_current, grow_setPcb, grow_pcbs]
  have hn₂ : (k₁.setPcb k₁.current
      fun x => { x with qTicks := x.qTicks - 1 }).queues.nodes ≠ 0 := by
    change k₁.queues.nodes ≠ 0
    omega
  by_cases hq : ((k₁.setPcb k₁.current fun x =>
      { x with qTicks := x.qTicks - 1 }).pcbs k₁.current).qTicks < 1
  · simp only [hq, ↓reduceIte]
    exact bind_map_of (schedule_grow hn₂) fun k₃ _ => dispatch_grow k₃ m
  · simp only [hq, ↓reduceIte]
    rfl

theorem sioEvent_grow (k : Kernel) (m : Nat) (e : SioEvent) :
    sioEvent (k.grow m) e = (sioEvent k e).map (·.grow m) := by
  cases e with
  | rx ch =>
      by_cases hsz : 0 < k.queues.size (.pcbs .reading)
      · simp only [sioEvent, grow_size, hsz, ↓reduceIte, deque_grow]
        cases hd : k.deque .reading with
        | mk st y =>
            obtain ⟨y, k₁⟩ := y
            cases st with
            | success =>
                cases y with
                | none => rfl
                | some y =>
                    have := deque_nodes hd
                    exact schedule_grow
                      (k := k₁.setRet y ((if ch = 13 then 10 else ch).setWidth 32))
                      (by change k₁.queues.nodes ≠ 0; omega)
            | _ => rfl
      · simp only [sioEvent, grow_size, hsz, ↓reduceIte]
        rfl
  | _ => rfl

theorem sioIsr_grow (m : Nat) : ∀ (pending : List SioEvent) (k : Kernel),
    sioIsr pending (k.grow m) = (sioIsr pending k).map (·.grow m)
  | [], _ => rfl
  | e :: pending, k => by
      rw [sioIsr, sioIsr, List.foldlM_cons, List.foldlM_cons]
      exact bind_map_of (sioEvent_grow k m e) fun k₁ _ => sioIsr_grow m pending k₁

/-- More queue nodes make no difference to any event. -/
theorem step_grow (hn : 2 ≤ k.queues.nodes) (m : Nat) (e : Event) :
    step (k.grow m) e = (step k e).map (·.grow m) := by
  cases e with
  | store a b => rfl
  | interrupt frame cause =>
      have hsave : isrSave (k.grow m) frame = (isrSave k frame).grow m := rfl
      have hn' : 2 ≤ (isrSave k frame).queues.nodes := hn
      rw [step, step, hsave]
      refine bind_map_of (g := (·.grow m)) ?_ fun k₁ _ => ?_
      · cases cause with
        | syscall keys => exact sysIsr_grow keys hn'
        | clock => exact clkIsr_grow hn'
        | serial pending => exact sioIsr_grow m pending _
        | keyboard code => rfl
        | pageFault => exact pageFaultIsr_grow hn'
      · rfl

end Grow

/-- The panics of the kernel for a queue that does not take an entry. -/
def enquePanics : List (String × String) :=
  [("_schedule", "can't enque ready PCB"), ("_zombify", "enque zombie failed"),
   ("_sys_sleep", "can't enque sleeper"), ("_sys_wait", "can't enque waiting parent")]

/-- In every reachable state five queue nodes are free. No event of any
run finds the pool empty: with any number of nodes more, it would do the
same. So nothing panics for want of a node, and every PCB and every stack
that is not in use is on its free list. -/
theorem qnodes_suffice (h0 : init image mm pages = .ok k₀) (hrun : Steps step k₀ tr k) :
    5 ≤ k.queues.nodes
    ∧ (∀ e m, step (k.grow m) e = (step k e).map (·.grow m))
    ∧ (∀ e, ∀ x ∈ enquePanics, step k e ≠ .error (.kpanic x.1 x.2))
    ∧ (∀ p, (k.pcbs p).state = .free → p ∈ k.on .free)
    ∧ ∀ s, (∀ p, (k.pcbs p).state ≠ .free → (k.pcbs p).stack ≠ some s) → s ∈ k.freeStacks := by
  have g := reachable_good h0 hrun
  have hn := g.placed.nodes
  refine ⟨hn, fun e m => step_grow (by omega) m e, fun e x hx he => ?_, fun p => g.mem_free.mpr,
    fun s hs => ?_⟩
  · have hexp := g.expected he
    simp only [enquePanics, List.mem_cons, List.not_mem_nil, or_false] at hx
    rcases hx with rfl | rfl | rfl | rfl <;> simp [Fault.Expected] at hexp
  · rcases reachable_stocked h0 hrun s with h | ⟨p, hp, hown⟩
    · exact h
    · exact absurd hown (hs p fun hc => hp (mode_eq_free.mpr hc))

/-- A child exits while its parent waits for it: both entries of
`_pcb_cleanup` and the one of `_schedule` are made. -/
theorem qnodes_suffice_cleanup : ∃ k₀ tr k, init someImage lowPageUsed 0 = .ok k₀
    ∧ Steps step k₀ tr k ∧ (k.pcbs 1).state = .free ∧ 1 ∈ k.on .free ∧ 1 ∈ k.freeStacks
    ∧ 5 ≤ k.queues.nodes := by
  obtain ⟨k₀, tr, k, h0, hrun, -, ht⟩ := run_of_test
    [call 3 0 0 0, call 6 0x8000 0x8004 0, call 0 42 0 0]
    (fun k => decide ((k.pcbs 1).state = .free
      ∧ ∀ p, (k.pcbs p).state ≠ .free → (k.pcbs p).stack ≠ some 1)) (by decide +kernel)
  obtain ⟨hfree, hnone⟩ := of_decide_eq_true ht
  obtain ⟨hn, -, -, hpcb, hstk⟩ := qnodes_suffice h0 hrun
  exact ⟨k₀, tr, k, h0, hrun, hfree, hpcb 1 hfree, hstk 1 hnone, hn⟩

end SpKernel
