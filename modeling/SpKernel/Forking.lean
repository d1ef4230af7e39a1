import SpKernel.Contexts
import SpKernel.StatusCall

/-!
# What `fork` returns

The PID of the child goes to the parent as a `pid_t`, which is a signed
16-bit integer, while `_sys_fork` counts `_next_pid` up to 65000: from
32768 on the parent of a new process gets a negative number, which
callers such as `spawn` pass on as a failure. `fork_tells_iff` says when
the result tells success from failure.

`sysFork_born` is the specification of `_sys_fork` where it succeeds:
with a PID, a PCB and a stack to give, the child is `Born`, a copy of its
parent on the ready queue with a stack of its own, 0 in its `EAX` and the
PID in the parent's. A free PCB is enough, as there is a stack for every
one (`stack_for_free`). Where it fails nothing else is done
(`step_fork_fails`).

That such a PID does come up takes a run of more than 32000 forks.
`pid_comes_up` has one for every PID: `init` forks, waits, and its child
exits, and it is alone again with the counter one further on
(`Alone.round`). The steps between are `HasChild`, the state after the
fork, and `Awaits`, the one in which the child runs. `fork_hides_child`
takes the run up to the first PID whose parent is told a negative number.
-/

namespace SpKernel

open Lib

variable {k k' k₀ : Kernel} {image : Image} {mm : MemMgr} {pages : Nat}
  {tr : List (Kernel × Event)} {frame : Frame} {keys : List Byte} {p new : PcbId} {stk : StackId}

/-- The result of the call of the running process of `k`, as a `pid_t`. -/
def forkResult (k k' : Kernel) : Int :=
  ((k'.pcbs k.current).context.regs.eax.setWidth 16 : Half).toInt

/-- A PCB that was free is in use. -/
def Born (k k' : Kernel) (new : PcbId) : Prop :=
  (k.pcbs new).state = .free ∧ (k'.pcbs new).state ≠ .free

/-- The result of `fork` tells success from failure. -/
structure ForkTells (k : Kernel) (frame : Frame) (k' : Kernel) : Prop where
  sign : 0 < forkResult k k' ↔ ∃ new, Born k k' new
  pid : ∀ new, Born k k' new → (k'.pcbs new).pid.toInt = forkResult k k'
  /-- when the child is resumed for the first time it sees 0 -/
  child : ∀ new, Born k k' new → ∀ tr k'', Steps step k' tr k'' →
    (∀ x ∈ tr, (x.1.pcbs new).state = .ready) → (k''.pcbs new).context.regs.eax = 0
  /-- a failed call changes nothing but its result -/
  failure : (∀ new, ¬Born k k' new) → forkResult k k' < 0 ∧ ∃ v, k' = answered k frame v

theorem setWidth_signExtend (pid : Half) : (pid.signExtend 32).setWidth 16 = pid := by
  refine BitVec.eq_of_getLsbD_eq fun i hi => ?_
  have hi' : i < 32 := by omega
  rw [BitVec.getLsbD_setWidth, BitVec.getLsbD_signExtend]
  simp [hi, hi']

/-! ## A new process -/

theorem birth_pcbs (hne : new ≠ p) (x : PcbId) : (birth k p new stk).pcbs x
    = if x = p then { k.pcbs p with
        context.regs.eax := k.nextPid.signExtend 32
        children := (k.pcbs p).children + 1 }
      else if x = new then forkPcb (k.pcbs p) k.nextPid stk
      else k.pcbs x := by
  simp only [birth, Kernel.setRet, Kernel.setPcb, Function.update_apply]
  rcases eq_or_ne x p with rfl | hx
  · simp [hne.symm]
  · simp [hx]

/-- In `k'` the running process of `k` has one more child, `new`. -/
structure HasChild (k k' : Kernel) (new : PcbId) : Prop where
  pid : (k'.pcbs new).pid = k.nextPid
  zero : (k'.pcbs new).context.regs.eax = 0
  ready : (k'.pcbs new).state = .ready
  result : (k'.pcbs k.current).context.regs.eax = k.nextPid.signExtend 32
  children : (k'.pcbs k.current).children = (k.pcbs k.current).children + 1
  others : ∀ x, x ≠ new → (k'.pcbs x).state = (k.pcbs x).state
  current : k'.current = k.current
  nextPid : k'.nextPid = k.nextPid + 1
  initPcb : k'.initPcb = k.initPcb

/-- With a PID, a PCB and a stack to give, `_sys_fork` gives them. -/
theorem sysFork_born {l : List PcbId} {rest : List StackId} (g : Good k)
    (hlt : ¬65000#16 ≤ k.nextPid) (hfree : k.on .free = new :: l)
    (hstk : k.freeStacks = stk :: rest) :
    ∃ k', sysFork k k.current = .ok k' ∧ HasChild k k' new
      ∧ k'.pcbs new = (forkPcb (k.pcbs k.current) k.nextPid stk).makeReady := by
  obtain ⟨Q, hnew, hpl, hQ⟩ := pcbAlloc_cons g.placed hfree
  rw [LawfulSingleton.insert_empty_eq] at hpl
  have hst : (k.pcbs new).state = .free := g.mem_free.mp (hfree ▸ List.mem_cons_self ..)
  have hne : new ≠ k.current := by
    rintro rfl
    exact absurd (g.running.symm.trans hst) (by simp)
  have h1 := hpl.setOff (Set.mem_singleton new) fun x => { x with state := .new }
  have hother : ∀ x, x ≠ new → ({ k with queues := Q }.setPcb new fun x =>
      { x with state := .new }).pcbs x = k.pcbs x := fun x hx => setPcb_other _ _ hx
  have hnext : ({ k with queues := Q }.setPcb new fun x => { x with state := .new }).nextPid
      = k.nextPid := rfl
  have hnow : ({ k with queues := Q }.setPcb new fun x => { x with state := .new }).current
      = k.current := rfl
  have hinit : ({ k with queues := Q }.setPcb new fun x => { x with state := .new }).initPcb
      = k.initPcb := rfl
  have hfs : ({ k with queues := Q }.setPcb new fun x => { x with state := .new }).freeStacks
      = k.freeStacks := hQ
  generalize ({ k with queues := Q }.setPcb new fun x => { x with state := .new }) = k₁
    at hnew h1 hother hnext hnow hinit hfs
  obtain ⟨Q₂, hsome, h2, -⟩ := stkAlloc_cons h1 (hfs.trans hstk)
  have h3 := h2.birth k.current stk
  obtain ⟨k', hk', -, hfam, hcur'⟩ := schedule_spec h3 (Set.mem_singleton new)
  have hcur := hother k.current hne.symm
  have hpcb : k'.pcbs new = (forkPcb (k.pcbs k.current) k.nextPid stk).makeReady := by
    rw [schedule_pcbs hk', if_pos rfl, birth_pcbs hne, if_neg hne, if_pos rfl, hcur, hnext]
  have hparent : k'.pcbs k.current = { k.pcbs k.current with
      context.regs.eax := k.nextPid.signExtend 32
      children := (k.pcbs k.current).children + 1 } := by
    rw [schedule_pcbs hk', if_neg hne.symm, birth_pcbs hne, if_pos rfl, hnext, hcur]
  refine ⟨k', ?_, ⟨congrArg Pcb.pid hpcb, congrArg (fun x : Pcb => x.context.regs.eax) hpcb,
    congrArg Pcb.state hpcb, congrArg (fun x : Pcb => x.context.regs.eax) hparent,
    congrArg Pcb.children hparent, fun x hx => ?_, hcur'.trans hnow, ?_,
    (congrArg Family.init hfam).trans hinit⟩, hpcb⟩
  · rw [sysFork, if_neg hlt]
    simp only [hnew, ok_bind, hsome]
    exact hk'
  · rw [schedule_pcbs hk', if_neg hx, birth_pcbs hne, if_neg hx]
    split
    · rename_i he
      rw [he, hcur]
    · rw [hother x hx]
  · rw [← hnext]
    exact congrArg Family.nextPid hfam

/-! ## The call -/

theorem stack_for_free (h0 : init image mm pages = .ok k₀) (hrun : Steps step k₀ tr k)
    {l : List PcbId} (hfree : k.on .free = new :: l) : ∃ stk rest, k.freeStacks = stk :: rest := by
  have hlen := length_free (reachable_good h0 hrun) (reachable_stocked h0 hrun)
  rw [hfree, List.length_cons] at hlen
  exact List.exists_cons_of_length_eq_add_one hlen

theorem step_fork (k : Kernel) (heax : frame.regs.eax = 3) :
    step k (.interrupt frame (.syscall keys)) = (do
      let k' ← sysFork (isrSave k frame) k.current
      .ok (isrRestore k')) :=
  step_syscall k heax rfl

theorem not_born_answered {v : Word} : ¬Born k (answered k frame v) new := by
  rintro ⟨hfree, hused⟩
  refine hused (Eq.trans ?_ ((isrSave_state k frame new).trans hfree))
  exact setRet_state (isrSave k frame) k.current v new

theorem step_fork_fails (keys : List Byte) (g : Good k) (heax : frame.regs.eax = 3)
    (h : 65000 ≤ k.nextPid.toNat ∨ ∀ p, (k.pcbs p).state ≠ .free) :
    ∃ v, step k (.interrupt frame (.syscall keys)) = .ok (answered k frame v)
      ∧ (v.setWidth 16 : Half).toInt < 0 := by
  by_cases hmax : 65000#16 ≤ k.nextPid
  · refine ⟨Status.noMoreProcs.word, ?_, by decide⟩
    rw [step_fork k heax, sysFork, if_pos (show 65000#16 ≤ (isrSave k frame).nextPid from hmax)]
    rfl
  · have hall := h.resolve_left hmax
    have hnil : (isrSave k frame).on .free = [] := by
      rw [List.eq_nil_iff_forall_not_mem]
      intro p hp
      have := (g.isrSave frame).mem_free.mp hp
      rw [isrSave_state] at this
      exact hall p this
    refine ⟨Status.noPcbs.word, ?_, by decide⟩
    rw [step_fork k heax, sysFork, if_neg (show ¬65000#16 ≤ (isrSave k frame).nextPid from hmax),
      pcbAlloc_nil hnil]
    rfl

/-- A call that succeeds makes one process, with the next PID and with 0
as the result of the call. -/
theorem step_fork_born (keys : List Byte) (h0 : init image mm pages = .ok k₀)
    (hrun : Steps step k₀ tr k)
    (heax : frame.regs.eax = 3) (hlt : k.nextPid.toNat < 65000) (hfree : (k.pcbs p).state = .free) :
    ∃ k' new, step k (.interrupt frame (.syscall keys)) = .ok k' ∧ (k.pcbs new).state = .free
      ∧ HasChild k k' new ∧ ∃ stk ∈ k.freeStacks, k'.pcbs new
        = (forkPcb ((isrSave k frame).pcbs k.current) k.nextPid stk).makeReady := by
  have g := reachable_good h0 hrun
  obtain ⟨new, l, hon⟩ := List.exists_cons_of_ne_nil (List.ne_nil_of_mem (g.mem_free.mpr hfree))
  obtain ⟨stk, rest, hstk⟩ := stack_for_free h0 hrun hon
  have hnot : ¬65000#16 ≤ (isrSave k frame).nextPid := Nat.not_le.mpr hlt
  obtain ⟨k', hk', h, hpcb⟩ := sysFork_born (g.isrSave frame) hnot hon hstk
  have hstate : (k.pcbs new).state = .free := g.mem_free.mp (hon ▸ List.mem_cons_self ..)
  refine ⟨isrRestore k', new, ?_, hstate, ⟨h.pid, h.zero, h.ready, h.result, ?_, fun x hx => ?_,
    h.current, h.nextPid, h.initPcb⟩, stk, hstk ▸ List.mem_cons_self .., hpcb⟩
  · rw [step_fork k heax]
    exact congrArg (fun x => x >>= fun k' => .ok (isrRestore k')) hk'
  · exact h.children.trans (congrArg (fun x => x + 1)
      (isrSave_field (f := Pcb.children) (fun _ _ => rfl) k frame k.current))
  · exact (h.others x hx).trans (isrSave_state k frame x)

namespace HasChild

theorem born (h : HasChild k k' new) (hfree : (k.pcbs new).state = .free) : Born k k' new := by
  refine ⟨hfree, ?_⟩
  rw [h.ready]
  exact fun he => by cases he

theorem only (h : HasChild k k' new) {x : PcbId} (hx : Born k k' x) : x = new := by
  by_contra hne
  exact hx.2 ((h.others x hne).trans hx.1)

theorem forkResult_eq (h : HasChild k k' new) : forkResult k k' = k.nextPid.toInt := by
  unfold forkResult
  rw [h.result, setWidth_signExtend]

end HasChild

/-- The result of `fork` tells success from failure exactly if the next PID
is below 32768, or the call fails because there are no more PIDs or no free
PCB. -/
theorem fork_tells_iff (h0 : init image mm pages = .ok k₀) (hrun : Steps step k₀ tr k)
    (heax : frame.regs.eax = 3) :
    (∃ k', step k (.interrupt frame (.syscall keys)) = .ok k' ∧ ForkTells k frame k')
    ↔ k.nextPid.toNat < 32768 ∨ 65000 ≤ k.nextPid.toNat ∨ ∀ p, (k.pcbs p).state ≠ .free := by
  have g := reachable_good h0 hrun
  by_cases hfail : 65000 ≤ k.nextPid.toNat ∨ ∀ p, (k.pcbs p).state ≠ .free
  · refine iff_of_true ?_ (.inr hfail)
    obtain ⟨v, hk', hneg⟩ := step_fork_fails keys g heax hfail
    have hres : forkResult k (answered k frame v) < 0 := by
      unfold forkResult
      rwa [answered_eax]
    have hno : ∀ new, ¬Born k (answered k frame v) new := fun _ => not_born_answered
    refine ⟨_, hk', ⟨?_, fun new h => absurd h (hno new), fun new h => absurd h (hno new),
      fun _ => ⟨hres, v, rfl⟩⟩⟩
    exact iff_of_false (by omega) fun ⟨new, h⟩ => hno new h
  · rw [or_iff_left hfail]
    obtain ⟨hmax, hall⟩ := not_or.mp hfail
    obtain ⟨p, hp⟩ := not_forall.mp hall
    obtain ⟨k', new, hk', hnew, h, -⟩ :=
      step_fork_born keys h0 hrun heax (Nat.lt_of_not_le hmax) (not_not.mp hp)
    have hborn := h.born hnew
    have hsign : k.nextPid.toNat < 32768 ↔ 0 < forkResult k k' := by
      have hmin : 100 ≤ k.nextPid.toNat := g.family.nextPid.1
      have hlt := k.nextPid.isLt
      rw [h.forkResult_eq, BitVec.toInt_eq_toNat_cond]
      split
      · omega
      · omega
    rw [hsign]
    constructor
    · rintro ⟨k₁, hk₁, htells⟩
      obtain rfl := Except.ok.inj (hk'.symm.trans hk₁)
      exact htells.sign.mpr ⟨new, hborn⟩
    · intro hpos
      refine ⟨k', hk', ⟨iff_of_true hpos ⟨new, hborn⟩, fun x hx => ?_,
        fun x hx tr' k'' hrun' hr => ?_, fun hno => absurd hborn (hno new)⟩⟩
      · rw [h.only hx, h.pid, h.forkResult_eq]
      · obtain rfl := h.only hx
        have hkept : Kept x k' k'' := ready_context (g.step hk') hrun' hr
        exact (congrArg (fun f : Frame => f.regs.eax) hkept).trans h.zero

/-- The first call of the first process. -/
theorem fork_tells_first : ∃ k₀ tr k, init someImage lowPageUsed 0 = .ok k₀ ∧ Steps step k₀ tr k
    ∧ ∃ k', step k (call 3 0 0 0) = .ok k' ∧ ForkTells k (callFrame 3 0 0 0) k' := by
  obtain ⟨k₀, tr, k, h0, hrun, -, ht⟩ := run_of_test []
    (fun k => decide (k.nextPid.toNat < 32768)) (by decide +kernel)
  exact ⟨k₀, tr, k, h0, hrun, (fork_tells_iff h0 hrun rfl).mpr (.inl (of_decide_eq_true ht))⟩

/-! ## Every PID is given out

`init` forks, waits for the child, and the child exits. That takes three
calls and leaves `init` alone again, with the next PID to give.
-/

/-- All processes but the running one are gone. -/
def Alone (k : Kernel) : Prop := ∀ x, x ≠ k.current → (k.pcbs x).state = .free

/-- The running process waits for its one child, `c`. -/
structure Awaits (k : Kernel) (p c : PcbId) : Prop where
  child : k.current = c
  init : k.initPcb = p
  ne : p ≠ c
  waiting : (k.pcbs p).state = .waiting
  free : ∀ x, x ≠ p → x ≠ c → (k.pcbs x).state = .free

/-- Somebody is woken when a process is laid to rest, or all stays as it is. -/
theorem lay_wakes (h : lay k p = .ok k') :
    (∃ r, (k'.pcbs r).state = .ready) ∨ k'.pcbs = k.pcbs := by
  obtain ⟨q, ⟨-, k₁, -, hs⟩ | ⟨-, he⟩⟩ := lay_cases h
  · exact .inl ⟨q, by rw [schedule_pcbs hs, if_pos rfl]; rfl⟩
  · exact .inr (enque_pcbs he)

theorem zombify_wakes (hpid : (k.pcbs p).pid ≠ -1) (h : zombify k p = .ok k') :
    (∃ r, (k'.pcbs r).state = .ready) ∨ ∀ x, (k'.pcbs x).state = (k.pcbs x).state := by
  obtain ⟨k₁, hk₁, h⟩ := bind_eq_ok.mp h
  refine (lay_wakes h).imp id fun hp x => ?_
  rw [hp]
  obtain ⟨curr, tgt, ppid, children, rfl⟩ := reparent_kin hpid hk₁
  rfl

theorem step_exit (k : Kernel) (keys : List Byte) (heax : frame.regs.eax = 0) :
    step k (.interrupt frame (.syscall keys)) = (do
      let k' ← sysExit (isrSave k frame) k.current
      .ok (isrRestore k')) :=
  step_syscall k heax rfl

theorem Alone.fork (ha : Alone k) (h0 : init image mm pages = .ok k₀)
    (hrun : Steps step k₀ tr k) (hlt : k.nextPid.toNat < 65000) :
    ∃ k' c, step k (call 3 0 0 0) = .ok k' ∧ HasChild k k' c ∧ c ≠ k.current
      ∧ ∀ x, x ≠ k.current → x ≠ c → (k'.pcbs x).state = .free := by
  have g := reachable_good h0 hrun
  obtain ⟨x, hx⟩ := exists_ne k.current
  obtain ⟨k', c, hk', hc, h, -⟩ := step_fork_born [] h0 hrun
    (show (callFrame 3 0 0 0).regs.eax = 3 from rfl) hlt (ha x hx)
  refine ⟨k', c, hk', h, ?_, fun y hy hyc => (h.others y hyc).trans (ha y hy)⟩
  rintro rfl
  exact absurd (g.running.symm.trans hc) (by decide)

/-- The only process of `k` that is ready gets the CPU. -/
theorem dispatch_only {c : PcbId} (h : Placed k ∅ none) (hc : (k.pcbs c).state = .ready)
    (honly : ∀ x, (k.pcbs x).state = .ready → x = c) :
    ∃ k', dispatch k = .ok k' ∧ k'.current = c ∧ (∀ x, x ≠ c → k'.pcbs x = k.pcbs x)
      ∧ k'.nextPid = k.nextPid ∧ k'.initPcb = k.initPcb := by
  obtain ⟨k', hk'⟩ := dispatch_ok h hc
  obtain ⟨prio, p, hd⟩ := dispatch_eq hk'
  have hmem : p ∈ k.on (.ready prio) := hd.front ▸ List.mem_cons_self ..
  obtain rfl := honly p (home_eq_ready ((h.mem p _).mp hmem).2)
  have hfam := dispatch_spec h
  rw [hk'] at hfam
  refine ⟨k', hk', hd.current, fun x hx => ?_, congrArg Family.nextPid hfam.2,
    congrArg Family.init hfam.2⟩
  rw [hd.pcbs, if_neg hx]

theorem HasChild.wait (h : HasChild k k' new) (g : Good k) (g' : Good k')
    (hinit : k.initPcb = k.current) (hne : new ≠ k.current)
    (hfree : ∀ x, x ≠ k.current → x ≠ new → (k'.pcbs x).state = .free) :
    ∃ k'', step k' (call 6 0 0 0) = .ok k'' ∧ Awaits k'' k.current new
      ∧ k''.nextPid = k'.nextPid := by
  have gs := g'.isrSave (callFrame 6 0 0 0)
  have hstate := isrSave_state k' (callFrame 6 0 0 0)
  have hchildren : ((isrSave k' (callFrame 6 0 0 0)).pcbs k'.current).children ≠ 0 := by
    have hle := g.family.children_le (p := k.current) (by rw [g.active]; decide)
    have hmax := g.family.nextPid.2
    have hsucc := Family.toNat_succ (x := (k.pcbs k.current).children)
      (by simp only [Kernel.family_members, Pcb.member_children] at hle; omega)
    rw [isrSave_field (f := Pcb.children) (fun _ _ => rfl), h.current, h.children]
    intro h0
    rw [h0] at hsucc
    exact absurd hsucc (by simp)
  have hcases : ∀ x, (k'.pcbs x).state = .ready ∧ x = new ∨ (k'.pcbs x).state = .free
      ∨ (k'.pcbs x).state = .running ∧ x = k.current := by
    intro x
    by_cases hx : x = k.current
    · exact .inr (.inr ⟨by rw [hx, ← h.current]; exact g'.running, hx⟩)
    · by_cases hxn : x = new
      · exact .inl ⟨hxn ▸ h.ready, hxn⟩
      · exact .inr (.inl (hfree x hx hxn))
  rcases sysWait_cases gs with ⟨h0, -⟩ | ⟨-, z, k₁, -, hz⟩ | ⟨-, -, k₁, hw, hpl, hfam, hrest⟩
  · exact absurd h0 hchildren
  · have hzs := (hstate z).symm.trans hz.zombie
    rcases hcases z with ⟨hs, -⟩ | hs | ⟨hs, -⟩ <;> cases hs.symm.trans hzs
  · have hothers : ∀ x, x ≠ k.current → (k₁.pcbs x).state = (k'.pcbs x).state := fun x hx => by
      rw [hrest x (h.current ▸ hx)]
      exact hstate x
    have hwaits : (k₁.pcbs k.current).state = .waiting := by
      refine mode_eq_waiting.mp ?_
      have := congrArg (fun f => (f.members k.current).mode) hfam
      rw [Family.block, Family.members_set] at this
      exact this.trans (congrArg Member.mode (if_pos h.current.symm))
    obtain ⟨k'', hd, hcur, hpcbs, hnext, hinit'⟩ := dispatch_only hpl (c := new)
      ((hothers new hne).trans h.ready) fun x hx => by
        by_cases hxc : x = k.current
        · rw [hxc, hwaits] at hx
          cases hx
        · rw [hothers x hxc] at hx
          rcases hcases x with ⟨-, he⟩ | hs | ⟨-, he⟩
          · exact he
          · cases hs.symm.trans hx
          · exact absurd he hxc
    refine ⟨isrRestore k'', ?_, ⟨hcur, ?_, hne.symm, ?_, fun x hx hxn => ?_⟩, ?_⟩
    · refine (step_wait k' [] (show (callFrame 6 0 0 0).regs.eax = 6 from rfl)).trans ?_
      exact congrArg (fun x => x >>= fun k' => .ok (isrRestore k')) (hw.trans hd)
    · exact hinit'.trans ((congrArg Family.init hfam).trans (h.initPcb.trans hinit))
    · exact (congrArg Pcb.state (hpcbs _ hne.symm)).trans hwaits
    · exact (congrArg Pcb.state (hpcbs x hxn)).trans ((hothers x hx).trans (hfree x hx hxn))
    · exact hnext.trans (congrArg Family.nextPid hfam)

theorem Awaits.isrSave {c : PcbId} (h : Awaits k p c) (frame : Frame) :
    Awaits (isrSave k frame) p c :=
  ⟨h.child, h.init, h.ne, (isrSave_state k frame p).trans h.waiting,
    fun x hx hxc => (isrSave_state k frame x).trans (h.free x hx hxc)⟩

/-- The only child of `init`, which waits for it, is gone when it dies. -/
theorem Family.Inv.terminate_only {f : Family} {c : PcbId} {m : Mode} {status : Word} (h : f.Inv)
    (hen : (Act.terminate c m status).Enabled f) (hne : f.init ≠ c)
    (hw : (f.members f.init).mode = .waiting)
    (hfree : ∀ x, x ≠ f.init → x ≠ c → (f.members x).mode = .free) :
    ((f.terminate c m status).members f.init).mode = .active
      ∧ (∀ x, x ≠ f.init → ((f.terminate c m status).members x).mode = .free)
      ∧ (f.terminate c m status).nextPid = f.nextPid := by
  obtain ⟨q, hq, hpid, hcases⟩ := h.terminate_cases hen
  have horph : (f.orphan c m status).Inv := h.orphan hen.1 hen.2
  have hqcases : q = f.init ∨ q = c := by
    by_contra hcon
    obtain ⟨hqi, hqc⟩ := not_or.mp hcon
    rw [Family.orphan_mode, if_neg hqc] at hq
    exact hq (hfree q hqi hqc)
  have hmode : ((f.orphan c m status).members f.init).mode = .waiting := by
    rw [Family.orphan_mode, if_neg hne]
    exact hw
  rcases hcases with ⟨-, hnot⟩ | ⟨heq, -, hqc, -⟩
  · rcases hqcases with rfl | rfl
    · exact absurd hmode hnot
    · exact absurd (horph.notSelf q hq hpid.symm).symm hne
  · obtain rfl := hqcases.resolve_right hqc
    rw [heq]
    refine ⟨?_, fun x hx => ?_, rfl⟩
    · rw [Family.wake_members _ hqc, if_pos rfl]
      rfl
    · rw [Family.wake_members _ hqc, if_neg hx]
      split
      · rfl
      · rename_i hxc
        rw [Family.orphan_mode, if_neg hxc]
        exact hfree x hx hxc

theorem Awaits.sysExit {c : PcbId} (h : Awaits k p c) (g : Good k) :
    ∃ k', sysExit k k.current = .ok k' ∧ Alone k' ∧ k'.nextPid = k.nextPid := by
  obtain ⟨k₁, hk₁, hpl, hfam⟩ := g.zombify (m := .zombie)
    (f := fun x => { x with exitstatus := k.arg k.current 1, state := .zombie }) (.inr rfl)
    fun _ => rfl
  have hen : (Act.terminate k.current .zombie (k.arg k.current 1)).Enabled k.family :=
    ⟨.inl g.active, .inr rfl⟩
  obtain ⟨hinit, hfree, hnext⟩ := g.family.terminate_only hen
    (by rw [Kernel.family_init, h.init, h.child]; exact h.ne)
    (by rw [Kernel.family_init, h.init]; exact mode_eq_waiting.mpr h.waiting)
    (fun x hx hxc => mode_eq_free.mpr (h.free x (h.init ▸ hx) (h.child ▸ hxc)))
  rw [Kernel.family_init, h.init] at hinit hfree
  have hset : k₁.family = k.family.terminate k.current .zombie (k.arg k.current 1) := hfam
  rw [← hset] at hinit hfree hnext
  have honly : ∀ x, x ≠ p → (k₁.pcbs x).state = .free := fun x hx => mode_eq_free.mp (hfree x hx)
  have hr : (k₁.pcbs p).state = .ready := by
    have hpid := g.family.pid_ne_free (p := k.current) (by rw [g.active]; decide)
    have hself := setPcb_self k k.current
      fun x => { x with exitstatus := k.arg k.current 1, state := .zombie }
    rcases zombify_wakes (hself ▸ hpid) hk₁ with ⟨r, hr⟩ | hsame
    · by_cases hrp : r = p
      · exact hrp ▸ hr
      · cases (honly r hrp).symm.trans hr
    · have hwaits := (hsame p).trans ((congrArg Pcb.state (setPcb_other k _
        (h.child ▸ h.ne))).trans h.waiting)
      cases (mode_eq_waiting.mpr hwaits).symm.trans hinit
  obtain ⟨k', hk', hcur, hpcbs, hnext', -⟩ := dispatch_only hpl hr fun x hx => by
    by_contra hxp
    cases (honly x hxp).symm.trans hx
  refine ⟨k', ?_, fun x hx => ?_, hnext'.trans hnext⟩
  · simp only [SpKernel.sysExit, hk₁, ok_bind, hk']
  · rw [hcur] at hx
    exact (congrArg Pcb.state (hpcbs x hx)).trans (honly x hx)

/-- The child exits, and the parent has its status and is alone. -/
theorem Awaits.exit {c : PcbId} (h : Awaits k p c) (g : Good k) :
    ∃ k', step k (call 0 0 0 0) = .ok k' ∧ Alone k' ∧ k'.nextPid = k.nextPid := by
  obtain ⟨k', hk', halone, hnext⟩ := (h.isrSave (callFrame 0 0 0 0)).sysExit
    (g.isrSave (callFrame 0 0 0 0))
  refine ⟨isrRestore k', ?_, halone, hnext⟩
  refine (step_exit k [] (show (callFrame 0 0 0 0).regs.eax = 0 from rfl)).trans ?_
  exact congrArg (fun x => x >>= fun k' => .ok (isrRestore k')) hk'

theorem Alone.round (ha : Alone k) (h0 : init image mm pages = .ok k₀)
    (hrun : Steps step k₀ tr k) (hlt : k.nextPid.toNat < 65000) :
    ∃ tr' k', Steps step k₀ tr' k' ∧ Alone k' ∧ k'.nextPid.toNat = k.nextPid.toNat + 1 := by
  have g := reachable_good h0 hrun
  have hinit : k.initPcb = k.current := by
    by_contra hne
    exact g.family.initMode (mode_eq_free.mpr (ha _ hne))
  obtain ⟨k₁, c, h1, hchild, hne, hfree⟩ := ha.fork h0 hrun hlt
  have hrun1 := hrun.tail h1
  obtain ⟨k₂, h2, hw, hn2⟩ := hchild.wait g (reachable_good h0 hrun1) hinit hne hfree
  have hrun2 := hrun1.tail h2
  obtain ⟨k₃, h3, halone, hn3⟩ := hw.exit (reachable_good h0 hrun2)
  refine ⟨_, k₃, hrun2.tail h3, halone, ?_⟩
  rw [hn3, hn2, hchild.nextPid, Family.toNat_succ (by omega)]

theorem pid_comes_up (h0 : init image mm pages = .ok k₀) : ∀ n, n ≤ 64900 →
    ∃ tr k, Steps step k₀ tr k ∧ Alone k ∧ k.nextPid.toNat = 100 + n
  | 0, _ => by
      obtain ⟨g, p, hf⟩ := init_first h0
      have hmode : ∀ x, x ≠ p → (k₀.pcbs x).state = .free := fun x hx => by
        refine mode_eq_free.mp ?_
        have := congrArg (fun f : Family => (f.members x).mode) hf
        rw [Family.first_members, if_neg hx] at this
        exact this
      have hcur : k₀.current = p := by
        by_contra hne
        cases (hmode _ hne).symm.trans g.running
      refine ⟨[], k₀, .refl, fun x hx => hmode x (hcur ▸ hx), ?_⟩
      exact congrArg (fun f : Family => f.nextPid.toNat) hf
  | n + 1, hn => by
      obtain ⟨tr, k, hrun, ha, hnext⟩ := pid_comes_up h0 n (by omega)
      obtain ⟨tr', k', hrun', ha', hnext'⟩ := ha.round h0 hrun (by omega)
      exact ⟨tr', k', hrun', ha', by omega⟩

/-- After 32668 processes `fork` makes one more, and tells the parent that
it failed. -/
theorem fork_hides_child : ∃ k₀ tr k, init someImage lowPageUsed 0 = .ok k₀ ∧ Steps step k₀ tr k
    ∧ ∃ k', step k (call 3 0 0 0) = .ok k' ∧ (∃ new, Born k k' new) ∧ forkResult k k' = -32768
      ∧ ¬ForkTells k (callFrame 3 0 0 0) k' := by
  obtain ⟨k₀, h0, -⟩ := init_of_test (fun _ => true) (by decide +kernel)
  obtain ⟨tr, k, hrun, ha, hnext⟩ := pid_comes_up h0 32668 (by omega)
  obtain ⟨x, hx⟩ := exists_ne k.current
  obtain ⟨k', c, hk', hc, h, -⟩ := step_fork_born [] h0 hrun
    (show (callFrame 3 0 0 0).regs.eax = 3 from rfl) (by omega) (ha x hx)
  have hres : forkResult k k' = -32768 := by
    rw [h.forkResult_eq, BitVec.toInt_eq_toNat_cond, hnext]
    rfl
  refine ⟨k₀, tr, k, h0, hrun, k', hk', ⟨c, h.born hc⟩, hres, fun htells => ?_⟩
  have := htells.sign.mpr ⟨c, h.born hc⟩
  omega

end SpKernel
