import SpKernel.RoundRobin

/-!
# The context of a process that waits to run

Handlers store into the saved contexts of the running process, of a
parent they wake from `wait`, of a process they wake from `read` and of
the PCB a `fork` fills. A process on a ready queue is none of these, so
the context it is resumed with is the one it had when it got there:
`step_context`, and for a whole run `ready_context`.

`Kept k k' p` says that `p` was on a ready queue, still is, and has the
same context; `WaitsToRun` is what is known of such a process, above all
that it is on no other queue (`not_on`), which is where a handler would
have to find it. There is one lemma for each function of the kernel. They
differ in how the function's own target is known to be another process:
it is the current one, or it comes from a queue of those who wait, or it
was free.

`ForkStack` and `UserMemory` use the result for the frames of a child and
for the results of a system call whose caller did not go on at once.
-/

namespace SpKernel

open Lib

variable {b k k' : Kernel} {c p : PcbId} {q : PQueue}

/-- The saved context of `c` is the one it has in `b`. -/
def Kept (c : PcbId) (b k : Kernel) : Prop := (k.pcbs c).context = (b.pcbs c).context

/-- In `b`, `c` waits to run. -/
structure WaitsToRun (b : Kernel) (c : PcbId) : Prop where
  good : Good b
  ready : (b.pcbs c).state = .ready

namespace WaitsToRun

theorem ne_current (h : WaitsToRun b c) : c ≠ b.current := by
  rintro rfl
  have := h.good.running.symm.trans h.ready
  cases this

theorem not_on (h : WaitsToRun b c) (hq : ∀ prio, q ≠ .ready prio) : c ∉ b.on q := by
  intro hc
  have hhome := ((h.good.placed.mem c q).mp hc).2
  unfold home at hhome
  rw [h.ready] at hhome
  exact hq _ (Option.some.inj hhome).symm

theorem isrSave (h : WaitsToRun b c) (frame : Frame) : WaitsToRun (SpKernel.isrSave b frame) c :=
  ⟨h.good.isrSave frame, (isrSave_state b frame c).trans h.ready⟩

end WaitsToRun

/-! ## Operations -/

theorem enque_pcbs {st : Status} (h : k.enque q p = (st, k')) : k'.pcbs = k.pcbs := by
  rcases enque_eq h with rfl | ⟨n, rfl⟩
  · rfl
  · rfl

namespace Kept

theorem refl (c : PcbId) (b : Kernel) : Kept c b b := rfl

theorem of_pcbs (h : Kept c b k) (hp : k'.pcbs = k.pcbs) : Kept c b k' := by
  unfold Kept
  rw [hp]
  exact h

theorem setPcb (h : Kept c b k) (p : PcbId) {f : Pcb → Pcb}
    (hf : (f (k.pcbs p)).context = (k.pcbs p).context) : Kept c b (k.setPcb p f) := by
  unfold Kept
  rcases eq_or_ne c p with rfl | hne
  · rw [setPcb_self, hf]
    exact h
  · rw [setPcb_other _ _ hne]
    exact h

theorem setOther (h : Kept c b k) (hne : c ≠ p) (f : Pcb → Pcb) : Kept c b (k.setPcb p f) := by
  unfold Kept
  rw [setPcb_other _ _ hne]
  exact h

theorem setRet (h : Kept c b k) (hne : c ≠ p) (v : Word) : Kept c b (k.setRet p v) :=
  h.setOther hne _

theorem enque {st : Status} (h : Kept c b k) (he : k.enque q p = (st, k')) : Kept c b k' :=
  h.of_pcbs (enque_pcbs he)

theorem deque {st : Status} {x : PcbId} (h : Kept c b k) (he : k.deque q = (st, some x, k')) :
    Kept c b k' := by
  obtain ⟨n, l, -, rfl⟩ := deque_eq he
  exact h

theorem remove (h : Kept c b k) (he : k.remove q p = (.success, k')) : Kept c b k' := by
  obtain ⟨-, n, rfl⟩ := remove_eq he
  exact h

theorem schedule (h : Kept c b k) (hk : SpKernel.schedule k p = .ok k') : Kept c b k' := by
  unfold Kept
  rw [schedule_pcbs hk]
  split
  · rename_i he
    exact he ▸ h
  · exact h

theorem dispatch (h : Kept c b k) (hk : SpKernel.dispatch k = .ok k') : Kept c b k' := by
  obtain ⟨prio, p, hd⟩ := dispatch_eq hk
  unfold Kept
  rw [hd.pcbs]
  split
  · rename_i he
    exact he ▸ h
  · exact h

theorem stkDealloc (h : Kept c b k) (stack : Option StackId) :
    Kept c b (SpKernel.stkDealloc k stack) := by
  cases stack with
  | none => exact h
  | some s => exact h

theorem pcbDealloc (h : Kept c b k) (p : PcbId) : Kept c b (SpKernel.pcbDealloc k p) :=
  Kept.enque (k := k.setPcb p Pcb.makeFree) (h.setPcb p rfl) rfl

theorem pcbCleanup (h : Kept c b k) (p : PcbId) : Kept c b (SpKernel.pcbCleanup k p) :=
  (h.stkDealloc _).pcbDealloc p

theorem deliver (h : Kept c b k) {parent : PcbId} (hne : c ≠ parent) (child : PcbId) :
    Kept c b (SpKernel.deliver k parent child) :=
  (h.setRet hne Status.success.word).of_pcbs rfl

theorem birth {new : PcbId} (h : Kept c b k) (hnew : c ≠ new) (hp : c ≠ p) (stk : StackId) :
    Kept c b (SpKernel.birth k p new stk) := by
  have h₁ := h.setOther hnew fun _ => forkPcb (k.pcbs p) k.nextPid stk
  have h₂ : Kept c b { k.setPcb new (fun _ => forkPcb (k.pcbs p) k.nextPid stk) with
      nextPid := k.nextPid + 1 } := h₁.of_pcbs rfl
  exact (h₂.setRet hp (k.nextPid.signExtend 32)).setOther hp fun x =>
    { x with children := x.children + 1 }

theorem pcbFindChildOf {ppid : Word} {x : Option PcbId} (h : Kept c b k)
    (hk : SpKernel.pcbFindChildOf k ppid = .ok (x, k')) : Kept c b k' := by
  obtain ⟨curr, tgt, rfl⟩ := pcbFindChildOf_same hk
  exact h

theorem adopt (h : Kept c b k) (whom : PcbId) : Kept c b (SpKernel.adopt k whom) :=
  (h.setPcb whom (f := fun x => { x with ppid := pidInit }) rfl).setPcb k.initPcb
    (f := fun x => { x with children := x.children + 1 }) rfl

theorem reparentLoop : ∀ (fuel : Nat) {k : Kernel} {x : Option PcbId}, Kept c b k →
    SpKernel.reparentLoop fuel k x = .ok k' → Kept c b k'
  | _, k, none, h, hk => by
      simp only [SpKernel.reparentLoop, Except.ok.injEq] at hk
      exact hk ▸ h
  | 0, _, some _, _, hk => by cases hk
  | fuel + 1, k, some whom, h, hk => by
      obtain ⟨y, hy, hk⟩ := bind_eq_ok.mp hk
      exact Kept.reparentLoop fuel ((h.adopt whom).pcbFindChildOf hy) hk

theorem reparent (h : Kept c b k) (hk : SpKernel.reparent k p = .ok k') : Kept c b k' := by
  unfold SpKernel.reparent at hk
  split at hk
  · obtain ⟨y, hy, hk⟩ := bind_eq_ok.mp hk
    obtain ⟨z, hz, hk⟩ := bind_eq_ok.mp hk
    rw [← Except.ok.inj hk]
    exact (Kept.reparentLoop _ (h.pcbFindChildOf hy) hz).setPcb p rfl
  · exact Except.ok.inj hk ▸ h

theorem lay (h : Kept c b k) (hw : c ∉ k.on .waiting) (hk : SpKernel.lay k p = .ok k') :
    Kept c b k' := by
  unfold SpKernel.lay at hk
  split at hk
  · cases hk
  · rename_i parent hfind
    split at hk
    · split at hk
      · rename_i k₁ he
        have hne : c ≠ parent := by
          rintro rfl
          exact hw (remove_eq he).1
        exact (((h.remove he).deliver hne p).pcbCleanup p).schedule hk
      · cases hk
    · split at hk
      · rename_i k₁ he
        rw [← Except.ok.inj hk]
        exact h.enque he
      · cases hk

theorem zombify (h : Kept c b k) (hw : c ∉ k.on .waiting) (hk : SpKernel.zombify k p = .ok k') :
    Kept c b k' := by
  obtain ⟨k₁, hk₁, hk⟩ := bind_eq_ok.mp hk
  refine (h.reparent hk₁).lay ?_ hk
  rwa [Kernel.on, reparent_queues hk₁]

end Kept

/-! ## Handlers -/

namespace WaitsToRun

theorem ret (h : WaitsToRun b c) (v : Word) : Kept c b (b.setRet b.current v) :=
  (Kept.refl c b).setOther h.ne_current _

theorem readDone {n : Nat} (h : WaitsToRun b c) (hb : Kept c b k)
    (hk : readDone k b.current n = .ok k') : Kept c b k' := by
  unfold SpKernel.readDone at hk
  split at hk
  · exact Except.ok.inj hk ▸ hb.setOther h.ne_current _
  · split at hk
    · rename_i k₁ he
      exact ((hb.enque he).setPcb k₁.current rfl).dispatch hk
    · rename_i k₁ _ he
      exact Except.ok.inj hk ▸ (hb.enque he).setOther h.ne_current _

theorem sysRead {keys : List Byte} (h : WaitsToRun b c)
    (hk : sysRead keys b b.current = .ok k') : Kept c b k' := by
  simp only [SpKernel.sysRead] at hk
  split at hk
  · split at hk
    · exact Except.ok.inj hk ▸ h.ret _
    · obtain ⟨⟨n, con, m⟩, -, hk⟩ := bind_eq_ok.mp hk
      refine h.readDone ?_ hk
      exact (Kept.refl c b).of_pcbs rfl
  · split at hk
    · refine h.readDone ?_ hk
      exact (Kept.refl c b).of_pcbs rfl
    · exact Except.ok.inj hk ▸ h.ret _

theorem sysWrite (h : WaitsToRun b c) (hk : sysWrite b b.current = .ok k') : Kept c b k' := by
  simp only [SpKernel.sysWrite] at hk
  split at hk
  · exact Except.ok.inj hk ▸ h.ret _
  · split at hk
    · exact Except.ok.inj hk ▸ (h.ret _).of_pcbs rfl
    · exact Except.ok.inj hk ▸ h.ret _

theorem sysExit (h : WaitsToRun b c) (hk : sysExit b b.current = .ok k') : Kept c b k' := by
  obtain ⟨k₁, hk₁, hk⟩ := bind_eq_ok.mp hk
  have hb := (Kept.refl c b).setPcb b.current (f := fun x =>
    { x with exitstatus := b.arg b.current 1, state := .zombie }) rfl
  exact (hb.zombify (h.not_on (by simp)) hk₁).dispatch hk

theorem pageFaultIsr (h : WaitsToRun b c) (hk : pageFaultIsr b = .ok k') : Kept c b k' := by
  obtain ⟨k₁, hk₁, hk⟩ := bind_eq_ok.mp hk
  have hb := (Kept.refl c b).setPcb b.current (f := fun x =>
    { x with state := .killed, exitstatus := exitKilled }) rfl
  exact (hb.zombify (h.not_on (by simp)) hk₁).dispatch hk

theorem sysSleep (h : WaitsToRun b c) (hk : sysSleep b b.current = .ok k') : Kept c b k' := by
  simp only [SpKernel.sysSleep] at hk
  split at hk
  · obtain ⟨k₁, hk₁, hk⟩ := bind_eq_ok.mp hk
    exact ((Kept.refl c b).schedule hk₁).dispatch hk
  · split at hk
    · rename_i k₂ he
      exact (((Kept.refl c b).setOther h.ne_current _).enque he).dispatch hk
    · cases hk

theorem finishKill {victim : PcbId} (h : WaitsToRun b c) (hb : Kept c b k)
    (hw : c ∉ k.on .waiting) (hk : finishKill k b.current victim = .ok k') : Kept c b k' := by
  obtain ⟨k₁, hk₁, hk⟩ := bind_eq_ok.mp hk
  have hret := (hb.setPcb victim (f := fun x =>
    { x with state := .killed, exitstatus := exitKilled }) rfl).setOther h.ne_current
      fun x => { x with context.regs.eax := Status.success.word }
  have h₁ := hret.zombify hw hk₁
  split at hk
  · exact h₁.dispatch hk
  · exact Except.ok.inj hk ▸ h₁

theorem killFrom {victim : PcbId} (h : WaitsToRun b c)
    (hk : killFrom b b.current victim q = .ok k') : Kept c b k' := by
  unfold SpKernel.killFrom at hk
  split at hk
  · rename_i k₁ he
    refine h.finishKill ((Kept.refl c b).remove he) ?_ hk
    obtain ⟨-, n, rfl⟩ := remove_eq he
    rw [on_update]
    split
    · rename_i hq
      exact fun hc => h.not_on (q := q) (by rw [← hq]; simp) (List.mem_of_mem_erase hc)
    · exact h.not_on (by simp)
  · cases hk

theorem sysKill (h : WaitsToRun b c) (hk : sysKill b b.current = .ok k') : Kept c b k' := by
  unfold SpKernel.sysKill at hk
  split at hk
  · exact Except.ok.inj hk ▸ h.ret _
  · split at hk
    · exact h.killFrom hk
    · exact h.killFrom hk
    · exact h.killFrom hk
    · exact h.killFrom hk
    · exact h.finishKill (.refl c b) (h.not_on (by simp)) hk
    · exact Except.ok.inj hk ▸ h.ret _
    · exact Except.ok.inj hk ▸ h.ret _
    · cases hk
    · cases hk
    · cases hk

theorem zombieLoop : ∀ (fuel : Nat) {k : Kernel} {x z : Option PcbId}, Kept c b k →
    SpKernel.zombieLoop fuel k x = .ok (z, k') → Kept c b k'
  | _, k, none, z, h, hk => by
      simp only [SpKernel.zombieLoop, Except.ok.injEq, Prod.mk.injEq] at hk
      exact hk.2 ▸ h
  | 0, _, some _, _, _, hk => by cases hk
  | fuel + 1, k, some child, z, h, hk => by
      unfold SpKernel.zombieLoop at hk
      split at hk
      · obtain ⟨-, rfl⟩ := Prod.mk.inj (Except.ok.inj hk)
        exact h
      · obtain ⟨⟨next, k₁⟩, hk₁, hk⟩ := bind_eq_ok.mp hk
        exact WaitsToRun.zombieLoop fuel (h.pcbFindChildOf hk₁) hk

theorem sysWait (h : WaitsToRun b c) (hk : sysWait b b.current = .ok k') : Kept c b k' := by
  unfold SpKernel.sysWait at hk
  split at hk
  · exact Except.ok.inj hk ▸ h.ret _
  · obtain ⟨⟨x, k₁⟩, hk₁, hk⟩ := bind_eq_ok.mp hk
    obtain ⟨⟨z, k₂⟩, hk₂, hk⟩ := bind_eq_ok.mp hk
    have h₂ : Kept c b k₂ := zombieLoop _ ((Kept.refl c b).pcbFindChildOf hk₁) hk₂
    cases z with
    | some child =>
        dsimp only at hk
        split at hk
        · rename_i k₃ he
          rw [← Except.ok.inj hk]
          have h₃ := (h₂.remove he).setPcb b.current (f := fun x =>
            { x with children := x.children - 1 }) rfl
          exact (h₃.deliver h.ne_current child).pcbCleanup child
        · cases hk
    | none =>
        dsimp only at hk
        split at hk
        · rename_i k₃ he
          exact ((h₂.setOther h.ne_current _).enque he).dispatch hk
        · cases hk

theorem pcbAlloc {x : Option PcbId} (hk : pcbAlloc b = .ok (x, k')) : Kept c b k' := by
  unfold SpKernel.pcbAlloc at hk
  split at hk
  · cases hk
    exact .refl c b
  · split at hk
    · rename_i p k₁ hd
      cases hk
      exact ((Kept.refl c b).deque hd).setPcb p rfl
    · cases hk

theorem stkAlloc {x : Option StackId} (hb : Kept c b k) (hk : stkAlloc k = .ok (x, k')) :
    Kept c b k' := by
  unfold SpKernel.stkAlloc at hk
  split at hk
  · cases hk
    exact hb
  · split at hk
    · cases hk
      exact hb
    · cases hk

theorem sysFork (h : WaitsToRun b c) (hk : sysFork b b.current = .ok k') : Kept c b k' := by
  unfold SpKernel.sysFork at hk
  split at hk
  · exact Except.ok.inj hk ▸ h.ret _
  · obtain ⟨⟨new, k₁⟩, hk₁, hk⟩ := bind_eq_ok.mp hk
    have h₁ : Kept c b k₁ := pcbAlloc hk₁
    cases new with
    | none => exact Except.ok.inj hk ▸ h₁.setOther h.ne_current _
    | some new =>
        obtain ⟨⟨stk, k₂⟩, hk₂, hk⟩ := bind_eq_ok.mp hk
        have h₂ : Kept c b k₂ := stkAlloc h₁ hk₂
        cases stk with
        | none => exact Except.ok.inj hk ▸ (h₂.setOther h.ne_current _).pcbDealloc new
        | some stk =>
            have hne : c ≠ new := by
              rintro rfl
              exact h.not_on (by simp) (pcbAlloc_free hk₁)
            exact Kept.schedule (h₂.birth hne h.ne_current stk) hk

theorem sysExec (h : WaitsToRun b c) (hk : sysExec b b.current = .ok k') : Kept c b k' := by
  obtain ⟨⟨memory, mm⟩, -, hk⟩ := bind_eq_ok.mp hk
  rw [← Except.ok.inj hk]
  have h₁ := (Kept.refl c b).setOther h.ne_current fun x =>
    { x with
      prio := b.arg b.current 3
      context := stkSetup b.image (b.arg b.current 1) (b.arg b.current 2) }
  exact Kept.setOther (h₁.of_pcbs rfl) h.ne_current fun x => { x with memory := memory }

theorem sysMmap (h : WaitsToRun b c) (hk : sysMmap b b.current = .ok k') : Kept c b k' := by
  obtain ⟨⟨r, st, mm⟩, -, hk⟩ := bind_eq_ok.mp hk
  exact Except.ok.inj hk ▸ (h.ret st.word).of_pcbs rfl

theorem wakeLoop : ∀ (fuel : Nat) {k : Kernel}, Kept c b k →
    SpKernel.wakeLoop fuel k = .ok k' → Kept c b k'
  | 0, _, _, hk => by cases hk
  | fuel + 1, k, h, hk => by
      unfold SpKernel.wakeLoop at hk
      split at hk
      · split at hk
        · split at hk
          · rename_i k₁ he
            obtain ⟨k₂, hk₂, hk⟩ := bind_eq_ok.mp hk
            exact WaitsToRun.wakeLoop fuel ((h.deque he).schedule hk₂) hk
          · cases hk
        · exact Except.ok.inj hk ▸ h
      · exact Except.ok.inj hk ▸ h

theorem clkIsr (hk : clkIsr b = .ok k') : Kept c b k' := by
  obtain ⟨k₁, hk₁, hk⟩ := bind_eq_ok.mp hk
  have h₁ : Kept c b k₁ := by
    refine wakeLoop _ ?_ hk₁
    exact (Kept.refl c b).of_pcbs rfl
  have h₂ := h₁.setPcb k₁.current (f := fun x => { x with qTicks := x.qTicks - 1 }) rfl
  simp only at hk
  split at hk
  · obtain ⟨k₃, hk₃, hk⟩ := bind_eq_ok.mp hk
    exact (h₂.schedule hk₃).dispatch hk
  · exact Except.ok.inj hk ▸ h₂

theorem sioIsr (h : WaitsToRun b c) : ∀ (pending : List SioEvent) {k : Kernel}, Kept c b k →
    Served b k → k.on .reading ⊆ b.on .reading → sioIsr pending k = .ok k' → Kept c b k'
  | [], k, hb, _, _, hk => Except.ok.inj hk ▸ hb
  | e :: pending, k, hb, hs, hr, hk => by
      rw [SpKernel.sioIsr, List.foldlM_cons] at hk
      obtain ⟨k₁, hk₁, hk⟩ := bind_eq_ok.mp hk
      obtain ⟨hs₁, hr₁⟩ := sioEvent_served h.good hs hr hk₁
      refine h.sioIsr pending ?_ hs₁ hr₁ hk
      cases e with
      | lineStatus => exact Except.ok.inj hk₁ ▸ hb
      | rxTimeout ch => exact Except.ok.inj hk₁ ▸ hb
      | modemStatus => exact Except.ok.inj hk₁ ▸ hb
      | tx => exact Except.ok.inj hk₁ ▸ hb
      | unknown => cases hk₁
      | rx ch =>
          rcases sioEvent_rx hk₁ with ⟨-, rfl⟩ | ⟨p, l, k₂, hq, hd, hsch⟩
          · exact hb
          · have hne : c ≠ p := by
              rintro rfl
              exact h.not_on (by simp) (hr (hq ▸ List.mem_cons_self ..))
            exact ((hb.deque hd).setOther hne _).schedule hsch

theorem sysIsr {keys : List Byte} (h : WaitsToRun b c) (hk : sysIsr keys b = .ok k') :
    Kept c b k' := by
  simp only [SpKernel.sysIsr] at hk
  split at hk
  · have h' : WaitsToRun (b.setArg b.current 1 exitBadCode) c :=
      ⟨h.good.setArg b.current 1 exitBadCode, (setPcb_state b b.current rfl c).trans h.ready⟩
    have hset : Kept c b (b.setArg b.current 1 exitBadCode) :=
      (Kept.refl c b).setOther h.ne_current _
    exact (h'.sysExit hk).trans hset
  · have hlt : (b.pcbs b.current).context.regs.eax.toNat < 13 := Nat.lt_of_not_le ‹_›
    generalize (b.pcbs b.current).context.regs.eax.toNat = n at hk hlt
    interval_cases n
    · exact h.sysExit hk
    · exact h.sysRead hk
    · exact h.sysWrite hk
    · exact h.sysFork hk
    · exact h.sysExec hk
    · exact h.sysKill hk
    · exact h.sysWait hk
    · exact h.sysSleep hk
    · exact Except.ok.inj hk ▸ h.ret _
    · exact Except.ok.inj hk ▸ h.ret _
    · exact Except.ok.inj hk ▸ h.ret _
    · exact h.sysMmap hk
    · cases hk

theorem handle {cause : Cause} (h : WaitsToRun b c) (hk : handle b cause = .ok k') :
    Kept c b k' := by
  cases cause with
  | syscall keys => exact h.sysIsr hk
  | clock => exact clkIsr hk
  | serial pending => exact h.sioIsr pending (.refl c b) (.refl b) (fun _ hx => hx) hk
  | keyboard code => exact Except.ok.inj hk ▸ .refl c b
  | pageFault => exact h.pageFaultIsr hk

end WaitsToRun

/-! ## Runs -/

/-- No event changes the context of a process on a ready queue. -/
theorem step_context {e : Event} (h : WaitsToRun k c) (hst : step k e = .ok k') : Kept c k k' := by
  cases e with
  | store a b => exact Except.ok.inj hst ▸ .refl c k
  | interrupt frame cause =>
      obtain ⟨k₁, hk₁, hst⟩ := bind_eq_ok.mp hst
      rw [← Except.ok.inj hst]
      have hsave : Kept c k (isrSave k frame) :=
        congrArg Pcb.context (isrSave_other k frame h.ne_current)
      exact ((h.isrSave frame).handle hk₁).trans hsave

/-- The context in which a process is resumed is the one with which it
became ready. -/
theorem ready_context {tr : List (Kernel × Event)} (g : Good k) (hrun : Steps step k tr k')
    (hready : ∀ x ∈ tr, (x.1.pcbs c).state = .ready) : Kept c k k' := by
  have h : Good k' ∧ Kept c k k' :=
    hrun.inv_of (P := fun k' => Good k' ∧ Kept c k k') (C := fun k' _ => (k'.pcbs c).state = .ready)
      (fun _ _ _ hp hc hst => ⟨hp.1.step hst, (step_context ⟨hp.1, hc⟩ hst).trans hp.2⟩)
      ⟨g, .refl c k⟩ hready
  exact h.2

end SpKernel
