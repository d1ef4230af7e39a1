import SpKernel.Runs

/-!
# Counting children

The `children` counter of a process is an upper bound of the number of
its children (`Family.Inv.counted`), not that number: the child of a
process that already has children starts with its parent's counter, and a
child that is handed to a waiting parent is not taken off the parent's
counter. Where neither happens, the counters are exact.

`Exact` says so of a family, and `Act.Tidy` is the condition on an act
under which it is kept (`Exact.act`): a birth is of a member without
children, and nobody dies whose parent waits. `KeepsCount` is that
condition on an event of the kernel, read off its state and its
arguments. `ends_of_explains` and `forks_of_explains` connect the two.

`children_counted` is the result about runs whose events all meet the
condition: every counter is the number of the children, and the running
process, if it has none, has its `wait` refused at once (`WaitRefused`).
`children_miscounted` has the two shortest runs after which this is not
so. In the first the second child of `init` inherits a counter of 1, and
its `wait` blocks although it has no child; in the second a child is
handed to its waiting parent and stays on the counter.
-/

namespace SpKernel

open Lib

namespace Family

variable {f : Family}

/-- Every live member's counter is the number of its children. -/
def Exact (f : Family) : Prop :=
  ∀ p, (f.members p).mode.Live → (f.members p).children.toNat = (f.kidsOf p).card

theorem Exact.fork {p new : PcbId} {stk : StackId} (hx : f.Exact) (h : f.Inv)
    (hen : (Act.fork p new stk).Enabled f) (hc : (f.members p).children = 0) :
    (f.fork p new stk).Exact := by
  obtain ⟨hp, hnew, -, -⟩ := hen
  have hne : new ≠ p := ne_of_mode hp hnew (by decide)
  intro x hlive
  rcases eq_or_ne x p with rfl | hxp
  · have hout : new ∉ f.kidsOf x := fun hk => (mem_kidsOf.mp hk).2.1 hnew
    rw [kidsOf_fork_parent hp hnew, Finset.card_insert_of_notMem hout, ← hx x (.inl hp),
      h.fork_children hp]
  · rcases eq_or_ne x new with rfl | hxn
    · rw [kidsOf_fork_child h hp hnew, fork_members, if_neg hxp, if_pos rfl, Member.born_children,
        hc]
      rfl
    · rw [fork_members, if_neg hxp, if_neg hxn] at hlive ⊢
      rw [kidsOf_fork_other h hp hnew hlive.ne_free hxp, hx x hlive]

theorem reap_members {p z : PcbId} (hne : z ≠ p) (x : PcbId) : (f.reap p z).members x
    = if x = z then (f.members z).gone
      else if x = p then (f.members p).setChildren ((f.members p).children - 1)
      else f.members x := by
  rw [reap, handOver_members, members_set, members_set, if_neg hne]

theorem reap_self {p z : PcbId} (hne : z ≠ p) : ((f.reap p z).members z).mode = .free := by
  rw [reap_members hne, if_pos rfl]
  rfl

theorem reap_freeStacks {p z : PcbId} (hne : z ≠ p) :
    (f.reap p z).freeStacks = f.freeStacks ++ (f.members z).stack.toList := by
  have hz : (f.set p ((f.members p).setChildren ((f.members p).children - 1))).members z
      = f.members z := by
    rw [members_set, if_neg hne]
  simp only [reap, handOver, release, hz]
  rfl

theorem kidsOf_reap {p z x : PcbId} (hne : z ≠ p) (hx : x ≠ z) :
    (f.reap p z).kidsOf x = (f.kidsOf x).erase z := by
  have hppid : ∀ q, q ≠ z → ((f.reap p z).members q).ppid = (f.members q).ppid
      ∧ ((f.reap p z).members q).mode = (f.members q).mode
      ∧ ((f.reap p z).members q).pid = (f.members q).pid := by
    intro q hq
    rw [reap_members hne, if_neg hq]
    split
    · rename_i he
      rw [he]
      exact ⟨rfl, rfl, rfl⟩
    · exact ⟨rfl, rfl, rfl⟩
  ext q
  rw [Finset.mem_erase, mem_kidsOf, mem_kidsOf, (hppid x hx).2.2]
  rcases eq_or_ne q z with rfl | hq
  · rw [reap_members hne, if_pos rfl]
    simp
  · rw [(hppid q hq).1, (hppid q hq).2.1]
    simp [hq]

theorem Exact.reap {p z : PcbId} (hx : f.Exact) (h : f.Inv) (hen : (Act.reap p z).Enabled f) :
    (f.reap p z).Exact := by
  obtain ⟨hp, hc, hz, he⟩ := hen
  have hne : z ≠ p := ne_of_mode hp hz (by decide)
  intro x hlive
  have hxz : x ≠ z := by
    rintro rfl
    rw [reap_members hne, if_pos rfl] at hlive
    exact hlive.ne_free rfl
  rw [kidsOf_reap hne hxz]
  rw [reap_members hne, if_neg hxz] at hlive ⊢
  rcases eq_or_ne x p with rfl | hxp
  · have hmem : z ∈ f.kidsOf x := mem_kidsOf.mpr ⟨hne, by simp [hz], he⟩
    have hpos := Finset.card_pos.mpr ⟨z, hmem⟩
    have hlt := (f.members x).children.isLt
    rw [← hx x (.inl hp)] at hpos
    rw [Finset.card_erase_of_mem hmem, ← hx x (.inl hp), if_pos rfl, Member.setChildren_children,
      BitVec.toNat_sub, show (1 : Half).toNat = 1 from rfl]
    omega
  · rw [if_neg hxp] at hlive ⊢
    have hout : z ∉ f.kidsOf x := by
      intro hk
      have hpid := (mem_kidsOf.mp hk).2.2
      exact hxp (h.pidInj x p hlive.ne_free (by simp [hp]) (hpid.symm.trans he))
    rw [Finset.erase_eq_of_notMem hout, hx x hlive]

theorem Exact.orphan {v : PcbId} {m : Mode} {status : Word} (hx : f.Exact) (h : f.Inv)
    (hv : (f.members v).mode.Live) (hm : m.Dead) : (f.orphan v m status).Exact := by
  intro x hlive
  rw [orphan_mode] at hlive
  split at hlive
  · exact absurd hlive hm.not_live
  rename_i hxv
  rcases eq_or_ne x f.init with rfl | hxi
  · rw [h.orphan_init_children hv hm (Ne.symm hxv), h.card_kidsOf_orphan_init hv hm (Ne.symm hxv),
      hx f.init hlive]
  · rw [h.kidsOf_orphan hv hm hlive.ne_free hxv hxi, orphan_children, if_neg hxv, if_neg hxi,
      hx x hlive]

end Family

/-- When an act keeps the counters exact. -/
def Act.Tidy (f : Family) : Act → Prop
  | .fork p _ _ => (f.members p).children = 0
  | .terminate v _ _ => ∀ q, q ≠ v → (f.members q).mode = .waiting →
      (f.members q).pid ≠ (f.members v).ppid
  | _ => True

namespace Family

variable {f : Family}

/-- A member whose parent does not wait stays in the family when it dies. -/
theorem Inv.terminate_kept {v : PcbId} {m : Mode} {status : Word} (h : f.Inv)
    (hen : (Act.terminate v m status).Enabled f) (ht : (Act.terminate v m status).Tidy f) :
    f.terminate v m status = f.orphan v m status := by
  obtain ⟨q, -, hpid, ⟨hl, -⟩ | ⟨-, hw, hne, hi⟩⟩ := h.terminate_cases hen
  · exact hl
  · rw [orphan_mode, if_neg hne] at hw
    have hppid : ((f.orphan v m status).members v).ppid = (f.members v).ppid := by
      rw [orphan_ppid, if_neg fun he => hi (h.notSelf v hen.1.ne_free he)]
    rw [orphan_pid, hppid] at hpid
    exact absurd hpid (ht q hne hw)

theorem Exact.act (hx : f.Exact) (h : f.Inv) {a : Act} (hen : a.Enabled f) (ht : a.Tidy f) :
    (a.apply f).Exact := by
  cases a with
  | quiet => exact hx
  | fork p new stk => exact hx.fork h hen ht
  | block p =>
      intro x hlive
      have hmem : ∀ q, ((f.block p).members q).children = (f.members q).children
          ∧ ((f.block p).members q).pid = (f.members q).pid
          ∧ ((f.block p).members q).ppid = (f.members q).ppid
          ∧ (((f.block p).members q).mode = .free ↔ (f.members q).mode = .free)
          ∧ (((f.block p).members q).mode.Live → (f.members q).mode.Live) := by
        intro q
        rw [block, members_set]
        split
        · rename_i he
          rw [he]
          exact ⟨rfl, rfl, rfl, by simp [hen.1], fun _ => .inl hen.1⟩
        · exact ⟨rfl, rfl, rfl, Iff.rfl, id⟩
      change ((f.block p).members x).children.toNat = ((f.block p).kidsOf x).card
      rw [(hmem x).1, kidsOf_congr (fun q => (hmem q).2.2.2.1) (fun q => (hmem q).2.2.1)
        (hmem x).2.1]
      exact hx x ((hmem x).2.2.2.2 hlive)
  | reap p z => exact hx.reap h hen
  | terminate v m status =>
      rw [Act.apply, h.terminate_kept hen ht]
      exact hx.orphan h hen.1 hen.2

end Family

/-! ## In the kernel -/

variable {image : Image} {mm : MemMgr} {pages : Nat} {k₀ k : Kernel} {tr : List (Kernel × Event)}

/-- Neither free nor dead. -/
def Pcb.Live (x : Pcb) : Prop := x.state ≠ .free ∧ x.state ≠ .killed ∧ x.state ≠ .zombie

instance (x : Pcb) : Decidable x.Live := inferInstanceAs (Decidable (_ ∧ _))

theorem mode_live {x : Pcb} : x.state.mode.Live ↔ x.Live := by
  rw [Mode.Live, Pcb.Live]
  cases x.state <;> simp [PState.mode]

/-- The allocated PCBs other than `p` whose `ppid` is the `pid` of `p`. -/
def Kernel.childrenOf (k : Kernel) (p : PcbId) : Finset PcbId :=
  Finset.univ.filter fun q =>
    q ≠ p ∧ (k.pcbs q).state ≠ .free ∧ (k.pcbs q).ppid = (k.pcbs p).pid

theorem kidsOf_family (k : Kernel) (p : PcbId) : k.family.kidsOf p = k.childrenOf p := by
  ext q
  simp [Family.mem_kidsOf, Kernel.childrenOf, mode_eq_free]

theorem childrenOf_eq_empty {p : PcbId} (h : ∀ q, q ≠ p → (k.pcbs q).ppid ≠ (k.pcbs p).pid) :
    k.childrenOf p = ∅ := by
  rw [Finset.eq_empty_iff_forall_notMem]
  intro q hq
  obtain ⟨hne, -, he⟩ := (Finset.mem_filter.mp hq).2
  exact h q hne he

/-- The processes that end in an event. -/
inductive Ends (k : Kernel) : Event → PcbId → Prop
  | exit {frame keys} : frame.regs.eax = 0 →
      Ends k (.interrupt frame (.syscall keys)) k.current
  | badCode {frame keys} : nSyscalls ≤ frame.regs.eax →
      Ends k (.interrupt frame (.syscall keys)) k.current
  | kill {frame keys v} : frame.regs.eax = 5 → (k.pcbs v).Live →
      (k.pcbs v).pid = (frame.args 1).setWidth 16 →
      Ends k (.interrupt frame (.syscall keys)) v
  | pageFault {frame} : Ends k (.interrupt frame .pageFault) k.current

/-- The event is a `fork` for which there are a PID, a PCB and a stack. -/
def Forks (k : Kernel) (e : Event) : Prop :=
  ∃ frame keys, e = .interrupt frame (.syscall keys) ∧ frame.regs.eax = 3
    ∧ k.nextPid < 65000#16 ∧ k.on .free ≠ [] ∧ k.freeStacks ≠ []

theorem ends_of_explains {e : Event} {v : PcbId} {m : Mode} {status : Word}
    (h : Explains k.family k.current e (.terminate v m status))
    (hen : (Act.terminate v m status).Enabled k.family) : Ends k e v := by
  cases h with
  | exit he => exact .exit he
  | badCode he => exact .badCode he
  | kill he hv => exact .kill he (mode_live.mp hen.1) hv
  | pageFault => exact .pageFault

theorem forks_of_explains {e : Event} {p new : PcbId} {stk : StackId} (g : Good k)
    (h : Explains k.family k.current e (.fork p new stk))
    (hen : (Act.fork p new stk).Enabled k.family) : Forks k e ∧ p = k.current := by
  obtain ⟨-, hnew, hstk, hpid⟩ := hen
  have hfree : new ∈ k.on .free := by
    have : (k.pcbs new).state = .free := mode_eq_free.mp hnew
    exact (g.placed.mem new .free).mpr ⟨id, by simp [home, this]⟩
  have hs : k.freeStacks ≠ [] := by
    intro hc
    rw [Kernel.family_freeStacks, hc] at hstk
    cases hstk
  cases h with
  | fork he => exact ⟨⟨_, _, rfl, he, hpid, List.ne_nil_of_mem hfree, hs⟩, rfl⟩

/-- The event creates no child of a process that has children already,
and ends no process whose parent, another process, waits. -/
structure KeepsCount (k : Kernel) (e : Event) : Prop where
  fork : Forks k e → (k.pcbs k.current).children = 0
  ends : ∀ v, Ends k e v → ∀ q, q ≠ v → (k.pcbs q).state = .waiting →
    (k.pcbs q).pid ≠ (k.pcbs v).ppid

theorem KeepsCount.exact {k' : Kernel} {e : Event} (hc : KeepsCount k e) (g : Good k)
    (hx : k.family.Exact) (h : step k e = .ok k') : k'.family.Exact := by
  have hsim := step_sim g e
  rw [h] at hsim
  obtain ⟨-, a, ha, hen, hf⟩ := hsim
  have htidy : a.Tidy k.family := by
    cases a with
    | quiet => trivial
    | block p => trivial
    | reap p z => trivial
    | fork p new stk =>
        obtain ⟨hfork, rfl⟩ := forks_of_explains g ha hen
        exact hc.fork hfork
    | terminate v m status =>
        intro q hqv hq
        exact hc.ends v (ends_of_explains ha hen) q hqv (mode_eq_waiting.mp hq)
  rw [hf]
  exact hx.act g.family hen htidy

theorem first_exact (p : PcbId) (stk : StackId) (rest : List StackId) :
    (Family.first p stk rest).Exact := by
  intro x hlive
  obtain rfl := Family.first_only hlive.ne_free
  rw [Family.kidsOf_first, Family.first_self]
  rfl

theorem step_wait (k : Kernel) {frame : Frame} (keys : List Byte) (h : frame.regs.eax = 6) :
    step k (.interrupt frame (.syscall keys)) = (do
      let k' ← sysWait (isrSave k frame) k.current
      .ok (isrRestore k')) :=
  step_syscall k h rfl

/-- The `children` counter of every live process is the number of its
children. -/
def ChildrenCounted (k : Kernel) : Prop :=
  ∀ p, (k.pcbs p).Live → (k.pcbs p).children.toNat = (k.childrenOf p).card

/-- A `wait` of the running process, if it has no child, returns at once
and says so. -/
def WaitRefused (k : Kernel) : Prop :=
  ∀ frame keys, frame.regs.eax = 6 → k.childrenOf k.current = ∅ →
    ∃ k', step k (.interrupt frame (.syscall keys)) = .ok k' ∧ k'.current = k.current
      ∧ (k'.pcbs k.current).state = .running
      ∧ (k'.pcbs k.current).context.regs.eax = Status.noChild.word

theorem ChildrenCounted.waitRefused (g : Good k) (h : ChildrenCounted k) : WaitRefused k := by
  intro frame keys heax hnone
  have hlive : (k.pcbs k.current).Live := by simp [Pcb.Live, g.running]
  have hzero : (k.pcbs k.current).children = 0 := by
    refine BitVec.eq_of_toNat_eq ?_
    rw [h k.current hlive, hnone]
    rfl
  have g' := g.isrSave frame
  have hc : (isrSave k frame).current = k.current := rfl
  have hzero' : ((isrSave k frame).pcbs k.current).children = 0 := by
    have := congrArg (fun f => (f.members k.current).children) (isrSave_family k frame)
    exact this.trans hzero
  have hwait : sysWait (isrSave k frame) k.current
      = .ok ((isrSave k frame).setRet k.current Status.noChild.word) := by
    rw [sysWait, if_pos hzero']
  refine ⟨isrRestore ((isrSave k frame).setRet k.current Status.noChild.word), ?_, rfl, ?_, ?_⟩
  · rw [step_wait k keys heax, hwait]
    rfl
  · change (((isrSave k frame).setRet k.current Status.noChild.word).pcbs k.current).state = _
    rw [Kernel.setRet, setPcb_self]
    exact g'.running
  · exact congrArg (fun x : Pcb => x.context.regs.eax) (setPcb_self (isrSave k frame) k.current
      fun x => { x with context.regs.eax := Status.noChild.word })

/-- As long as only processes without children fork, and none ends while
its parent waits, the counters are exact in every state of a run. -/
theorem children_counted (h0 : init image mm pages = .ok k₀) (hrun : Steps step k₀ tr k)
    (hkeep : ∀ x ∈ tr, KeepsCount x.1 x.2) : ChildrenCounted k ∧ WaitRefused k := by
  have hx : Good k ∧ k.family.Exact := by
    refine hrun.inv_of (P := fun k => Good k ∧ k.family.Exact) (C := KeepsCount)
      (fun s e s' hs hc h => ?_) ?_ hkeep
    · exact ⟨hs.1.step h, hc.exact hs.1 hs.2 h⟩
    · obtain ⟨g, p, stk, rest, hf⟩ := init_spec h0
      exact ⟨g, hf ▸ first_exact p stk rest⟩
  have hcount : ChildrenCounted k := by
    intro p hp
    rw [← kidsOf_family]
    exact hx.2 p (mode_live.mpr hp)
  exact ⟨hcount, hcount.waitRefused hx.1⟩

/-- A call that ends nobody, and forks only without children. -/
theorem keepsCount_call {code arg₁ arg₂ arg₃ : Word} (hexit : code ≠ 0) (hkill : code ≠ 5)
    (hcode : code < nSyscalls) (hfork : code = 3 → (k.pcbs k.current).children = 0) :
    KeepsCount k (call code arg₁ arg₂ arg₃) := by
  refine ⟨fun ⟨frame, keys, he, heax, _⟩ => ?_, fun v hv => ?_⟩
  · obtain ⟨rfl, -⟩ := Event.interrupt.inj he
    exact hfork heax
  · cases hv with
    | exit h => exact absurd h hexit
    | badCode h => exact absurd h (BitVec.not_le.mpr hcode)
    | kill h => exact absurd h hkill

/-- `init` forks its first child, and while `init` sleeps the child forks one of
its own. -/
theorem children_counted_forks : ∃ k₀ tr k, init someImage lowPageUsed 0 = .ok k₀
    ∧ Steps step k₀ tr k ∧ (∀ x ∈ tr, KeepsCount x.1 x.2)
    ∧ (k.pcbs 0).children = 1 ∧ (k.childrenOf 0).card = 1
    ∧ (k.pcbs 1).children = 1 ∧ (k.childrenOf 1).card = 1 := by
  obtain ⟨k₀, h0, ht⟩ := init_of_test (fun k₀ => decide ((k₀.pcbs k₀.current).children = 0)
    && okAnd (step k₀ (call 3 0 0 0)) fun k₁ => okAnd (step k₁ (call 7 10 0 0)) fun k₂ =>
      decide ((k₂.pcbs k₂.current).children = 0) && okAnd (step k₂ (call 3 0 0 0)) fun k =>
        decide (((k.pcbs 0).Live ∧ (k.pcbs 1).Live)
          ∧ (k.pcbs 0).children = 1 ∧ (k.pcbs 1).children = 1)) (by decide +kernel)
  rw [Bool.and_eq_true, decide_eq_true_eq] at ht
  obtain ⟨hnone, ht⟩ := ht
  obtain ⟨k₁, h1, ht⟩ := of_okAnd ht
  obtain ⟨k₂, h2, ht⟩ := of_okAnd ht
  rw [Bool.and_eq_true, decide_eq_true_eq] at ht
  obtain ⟨hnone₂, ht⟩ := ht
  obtain ⟨k, h3, ht⟩ := of_okAnd ht
  obtain ⟨⟨hlive, hlive'⟩, hone, hone'⟩ := of_decide_eq_true ht
  have hrun : Steps step k₀ ([] ++ [(k₀, call 3 0 0 0)] ++ [(k₁, call 7 10 0 0)]
      ++ [(k₂, call 3 0 0 0)]) k := ((Steps.refl.tail h1).tail h2).tail h3
  have hkeep : ∀ x ∈ [] ++ [(k₀, call 3 0 0 0)] ++ [(k₁, call 7 10 0 0)]
      ++ [(k₂, call 3 0 0 0)], KeepsCount x.1 x.2 := by
    simp only [List.nil_append, List.cons_append, List.forall_mem_cons]
    exact ⟨keepsCount_call (by decide) (by decide) (by decide) fun _ => hnone,
      keepsCount_call (by decide) (by decide) (by decide) fun h => absurd h (by decide),
      keepsCount_call (by decide) (by decide) (by decide) fun _ => hnone₂, nofun⟩
  have hcount := (children_counted h0 hrun hkeep).1
  refine ⟨k₀, _, k, h0, hrun, hkeep, hone, ?_, hone', ?_⟩
  · rw [← hcount 0 hlive, hone]
    rfl
  · rw [← hcount 1 hlive', hone']
    rfl

/-- Two children of `init`: the second one starts with a counter of 1,
and its `wait` blocks although it has no child. A child that is handed
to its waiting parent stays on the parent's counter. -/
theorem children_miscounted :
    (∃ k₀ tr k, init someImage lowPageUsed 0 = .ok k₀ ∧ Steps step k₀ tr k
      ∧ tr.map Prod.snd = [call 3 0 0 0, call 3 0 0 0, call 7 0 0 0, call 7 0 0 0]
      ∧ ¬ChildrenCounted k ∧ ¬WaitRefused k)
    ∧ ∃ k₀ tr k, init someImage lowPageUsed 0 = .ok k₀ ∧ Steps step k₀ tr k
      ∧ tr.map Prod.snd = [call 3 0 0 0, call 6 0 0 0, call 0 0 0 0] ∧ ¬ChildrenCounted k := by
  refine ⟨?_, ?_⟩
  · obtain ⟨k₀, tr, k, h0, hrun, hes, ht⟩ := run_of_test
      [call 3 0 0 0, call 3 0 0 0, call 7 0 0 0, call 7 0 0 0]
      (fun k => decide ((k.pcbs 2).Live ∧ (k.pcbs 2).children = 1 ∧ k.current = 2
          ∧ ∀ q, q ≠ 2 → (k.pcbs q).ppid ≠ (k.pcbs 2).pid)
        && okAnd (step k (call 6 0 0 0)) fun k' => decide ((k'.pcbs 2).state = .waiting))
      (by decide +kernel)
    rw [Bool.and_eq_true] at ht
    obtain ⟨hlive, hone, hcur, hnone⟩ := of_decide_eq_true ht.1
    obtain ⟨k', hwait, hst⟩ := of_okAnd ht.2
    have hempty : k.childrenOf 2 = ∅ := childrenOf_eq_empty hnone
    refine ⟨k₀, tr, k, h0, hrun, hes, fun hc => ?_, fun hw => ?_⟩
    · have := hc 2 hlive
      rw [hone, hempty] at this
      cases this
    · obtain ⟨k'', hk'', -, hrunning, -⟩ := hw (callFrame 6 0 0 0) [] rfl (hcur.symm ▸ hempty)
      obtain rfl := Except.ok.inj (hwait.symm.trans hk'')
      rw [hcur, of_decide_eq_true hst] at hrunning
      cases hrunning
  · obtain ⟨k₀, tr, k, h0, hrun, hes, ht⟩ := run_of_test
      [call 3 0 0 0, call 6 0 0 0, call 0 0 0 0]
      (fun k => decide ((k.pcbs 0).Live ∧ (k.pcbs 0).children = 1
        ∧ ∀ q, q ≠ 0 → (k.pcbs q).ppid ≠ (k.pcbs 0).pid))
      (by decide +kernel)
    obtain ⟨hlive, hone, hnone⟩ := of_decide_eq_true ht
    refine ⟨k₀, tr, k, h0, hrun, hes, fun hc => ?_⟩
    have := hc 0 hlive
    rw [hone, childrenOf_eq_empty hnone] at this
    cases this

end SpKernel
