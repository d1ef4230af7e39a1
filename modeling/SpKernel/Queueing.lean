import SpKernel.Conservation
import SpKernel.Operations
import SpKernel.Reading
import SpKernel.Lib.Order

/-!
# What an event does to the queues

The scheduling results are about the order of entries, so this module
says what becomes of the lists themselves. `schedule_eq` and
`dispatch_eq` invert the two operations that move PCBs: `_schedule`
appends its PCB to the queue of its priority, capped to the number of
queues (`Pcb.level`), and `_dispatch` takes the first entry of the first
queue that has one, as `Dispatched` says with all that it sets.

`Still k k'` is what most of the kernel leaves alone: the sleeping queue,
the wake-up times of those on it, and the clock. Only the clock interrupt
and `sleep` change these, and both are the subject of `Sleepers`. There
is one lemma for each of the other functions; those about a function that
changes fields of a PCB need to know that this PCB does not sleep
(`Good.not_on`, `Good.current_not_on`).
-/

namespace SpKernel

open Function (update update_self update_of_ne)
open Lib

variable {b k k' : Kernel} {p : PcbId} {q : PQueue}

/-! ## Operations -/

/-- The ready queue `_schedule` puts a process on. -/
def Pcb.level (x : Pcb) : Fin nPrios := Fin.ofNat nPrios x.makeReady.prio.toNat

theorem schedule_eq (h : schedule k p = .ok k') : ∃ n, k' = { k.setPcb p Pcb.makeReady with
    queues := ⟨n, update k.queues.items (.pcbs (.ready (k.pcbs p).level))
      (k.on (.ready (k.pcbs p).level) ++ [p])⟩ } := by
  have hl : Fin.ofNat nPrios ((k.setPcb p Pcb.makeReady).pcbs p).prio.toNat = (k.pcbs p).level := by
    rw [setPcb_self]
    rfl
  simp only [schedule, hl] at h
  by_cases hn : (k.setPcb p Pcb.makeReady).queues.nodes = 0
  · simp only [Kernel.enque, QPool.enque, hn, ↓reduceIte] at h
    cases h
  · simp only [Kernel.enque, QPool.enque, hn, ↓reduceIte] at h
    exact ⟨_, (Except.ok.inj h).symm⟩

theorem schedule_ready (h : schedule k p = .ok k') (q : PQueue) :
    k'.on q = if q = .ready (k.pcbs p).level then k.on q ++ [p] else k.on q := by
  obtain ⟨n, rfl⟩ := schedule_eq h
  refine (on_update (k.setPcb p Pcb.makeReady) _ q _ n).trans ?_
  split
  · rename_i he
    rw [he]
  · rfl

theorem schedule_pcbs (h : schedule k p = .ok k') (x : PcbId) :
    k'.pcbs x = if x = p then (k.pcbs p).makeReady else k.pcbs x := by
  obtain ⟨n, rfl⟩ := schedule_eq h
  exact Function.update_apply ..

theorem schedule_now (h : schedule k p = .ok k') : k'.now = k.now := by
  obtain ⟨n, rfl⟩ := schedule_eq h
  rfl

/-- `_dispatch` has taken `p`, the first on `_ready[prio]`. -/
structure Dispatched (k : Kernel) (prio : Fin nPrios) (p : PcbId) (k' : Kernel) : Prop where
  front : k.on (.ready prio) = p :: k'.on (.ready prio)
  best : ∀ prio' < prio, k.on (.ready prio') = []
  others : ∀ q ≠ .ready prio, k'.on q = k.on q
  current : k'.current = p
  pcbs : ∀ x, k'.pcbs x = if x = p then (k.pcbs p).makeRunning else k.pcbs x
  now : k'.now = k.now

/-- The search for a process goes through the levels in order. -/
theorem ready_nil_of_find {prio prio' : Fin nPrios} (hf : (List.finRange nPrios).find? (fun prio =>
    decide (0 < k.queues.size (.pcbs (.ready prio)))) = some prio) (hlt : prio' < prio) :
    k.on (.ready prio') = [] := by
  obtain ⟨-, l₁, l₂, hl, hno⟩ := List.find?_eq_some_iff_append.mp hf
  have hsorted : (List.finRange nPrios).Pairwise (· < ·) := List.pairwise_lt_finRange nPrios
  have hmem : prio' ∈ l₁ := by
    have hin := List.mem_finRange prio'
    rw [hl] at hin hsorted
    rcases List.mem_append.mp hin with hin | hin
    · exact hin
    · rcases List.mem_cons.mp hin with rfl | hin
      · exact absurd hlt (lt_irrefl _)
      · have := (List.pairwise_cons.mp (List.pairwise_append.mp hsorted).2.1).1 prio' hin
        exact absurd hlt (not_lt_of_gt this)
  by_contra hne
  have hpos : 0 < k.queues.size (.pcbs (.ready prio')) := List.length_pos_iff.mpr hne
  have := hno prio' hmem
  rw [decide_eq_true hpos] at this
  cases this

theorem dispatch_eq (h : dispatch k = .ok k') : ∃ prio p, Dispatched k prio p k' := by
  obtain ⟨prio, p, k₁, hf, hd, rfl⟩ := dispatch_deque h
  obtain ⟨n, l, hq, rfl⟩ := deque_eq hd
  refine ⟨prio, p, ?_, fun prio' hlt => ready_nil_of_find hf hlt, fun q hne => ?_, rfl,
    fun x => Function.update_apply .., rfl⟩
  · rw [hq]
    exact congrArg (p :: ·) ((on_update k _ _ l n).trans (if_pos rfl)).symm
  · exact (on_update k _ q l n).trans (if_neg hne)

/-! ## The sleepers -/

/-- The sleepers, their wake-up times and the clock are as before. -/
structure Still (k k' : Kernel) : Prop where
  sleeping : k'.on .sleeping = k.on .sleeping
  wakeup : ∀ x ∈ k.on .sleeping, (k'.pcbs x).wakeup = (k.pcbs x).wakeup
  now : k'.now = k.now

namespace Still

theorem refl (k : Kernel) : Still k k := ⟨rfl, fun _ _ => rfl, rfl⟩

theorem trans {k₁ k₂ k₃ : Kernel} (h : Still k₁ k₂) (h' : Still k₂ k₃) : Still k₁ k₃ :=
  ⟨h'.sleeping.trans h.sleeping,
    fun x hx => (h'.wakeup x (h.sleeping ▸ hx)).trans (h.wakeup x hx), h'.now.trans h.now⟩

theorem of_eq (hp : k'.pcbs = k.pcbs) (hq : k'.queues = k.queues) (hn : k'.now = k.now) :
    Still k k' :=
  ⟨by rw [Kernel.on, hq, Kernel.on], fun x _ => by rw [hp], hn⟩

theorem of_start {k₁ : Kernel} (h : Still k₁ k') (hp : k₁.pcbs = k.pcbs)
    (hq : k₁.queues = k.queues) (hn : k₁.now = k.now) : Still k k' :=
  (of_eq hp hq hn).trans h

theorem setPcb (h : Still k k') (p : PcbId) {f : Pcb → Pcb}
    (hf : (f (k'.pcbs p)).wakeup = (k'.pcbs p).wakeup) : Still k (k'.setPcb p f) := by
  refine h.trans ⟨rfl, fun x _ => ?_, rfl⟩
  rcases eq_or_ne x p with rfl | hx
  · rw [setPcb_self, hf]
  · rw [setPcb_other _ _ hx]

theorem setRet (h : Still k k') (p : PcbId) (v : Word) : Still k (k'.setRet p v) :=
  h.setPcb p rfl

/-- A PCB that is not on the sleeping queue may change in any way. -/
theorem setOther {f : Pcb → Pcb} (hp : p ∉ k.on .sleeping) : Still k (k.setPcb p f) :=
  ⟨rfl, fun _ hx => congrArg Pcb.wakeup (setPcb_other _ _ fun he => hp (he ▸ hx)), rfl⟩

theorem queues {l : List PcbId} (k : Kernel) (n : Nat) (hq : q ≠ .sleeping) :
    Still k { k with queues := ⟨n, update k.queues.items (.pcbs q) l⟩ } :=
  ⟨(on_update k q .sleeping l n).trans (if_neg hq.symm), fun _ _ => rfl, rfl⟩

theorem setStacks {l : List StackId} (k : Kernel) (n : Nat) :
    Still k { k with queues := ⟨n, update k.queues.items .freeStacks l⟩ } := by
  refine ⟨?_, fun _ _ => rfl, rfl⟩
  have hne : QueueId.pcbs .sleeping ≠ .freeStacks := by simp
  simp only [Kernel.on, update_of_ne hne]

end Still

theorem enque_still {st : Status} (h : k.enque q p = (st, k')) (hq : q ≠ .sleeping) :
    Still k k' := by
  rcases enque_eq h with rfl | ⟨n, rfl⟩
  · exact .refl k'
  · exact .queues k n hq

theorem remove_still (h : k.remove q p = (.success, k')) (hq : q ≠ .sleeping) : Still k k' := by
  obtain ⟨-, n, rfl⟩ := remove_eq h
  exact .queues k n hq

theorem deque_still {st : Status} {x : PcbId} (h : k.deque q = (st, some x, k'))
    (hq : q ≠ .sleeping) : Still k k' := by
  obtain ⟨n, l, -, rfl⟩ := deque_eq h
  exact .queues k n hq

theorem schedule_still (h : schedule k p = .ok k') : Still k k' := by
  obtain ⟨n, rfl⟩ := schedule_eq h
  exact ((Still.refl k).setPcb p rfl).trans (.queues (k.setPcb p Pcb.makeReady) n (by simp))

theorem dispatch_still (h : dispatch k = .ok k') : Still k k' := by
  obtain ⟨prio, p, hd⟩ := dispatch_eq h
  refine ⟨hd.others .sleeping (by simp), fun x _ => ?_, hd.now⟩
  rw [hd.pcbs]
  split
  · rename_i he
    rw [he]
    rfl
  · rfl

theorem stkDealloc_still (k : Kernel) (stack : Option StackId) : Still k (stkDealloc k stack) := by
  cases stack with
  | none => exact .refl k
  | some s =>
      simp only [stkDealloc, QPool.enque]
      split
      · exact .refl k
      · exact .setStacks k _

theorem pcbDealloc_still (k : Kernel) (p : PcbId) : Still k (pcbDealloc k p) :=
  ((Still.refl k).setPcb p rfl).trans (enque_still rfl (by simp))

theorem pcbCleanup_still (k : Kernel) (p : PcbId) : Still k (pcbCleanup k p) :=
  (stkDealloc_still k _).trans (pcbDealloc_still _ p)

theorem deliver_still (k : Kernel) (parent child : PcbId) : Still k (deliver k parent child) :=
  ((Still.refl k).setRet parent Status.success.word).trans (.of_eq rfl rfl rfl)

theorem pcbFindChildOf_still {ppid : Word} {x : Option PcbId}
    (h : pcbFindChildOf k ppid = .ok (x, k')) : Still k k' := by
  obtain ⟨curr, tgt, rfl⟩ := pcbFindChildOf_same h
  exact .of_eq rfl rfl rfl

theorem adopt_still (k : Kernel) (whom : PcbId) : Still k (adopt k whom) :=
  ((Still.refl k).setPcb whom (f := fun x => { x with ppid := pidInit }) rfl).setPcb k.initPcb
    (f := fun x => { x with children := x.children + 1 }) rfl

theorem reparentLoop_still : ∀ (fuel : Nat) {k : Kernel} {x : Option PcbId},
    reparentLoop fuel k x = .ok k' → Still k k'
  | _, k, none, h => by
      simp only [reparentLoop, Except.ok.injEq] at h
      exact h ▸ .refl k
  | 0, _, some _, h => by cases h
  | fuel + 1, k, some whom, h => by
      obtain ⟨y, hy, h⟩ := bind_eq_ok.mp h
      have hfind : Still (adopt k whom) y.2 := pcbFindChildOf_still hy
      exact ((adopt_still k whom).trans hfind).trans (reparentLoop_still fuel h)

theorem reparent_still (h : reparent k p = .ok k') : Still k k' := by
  rw [reparent] at h
  split at h
  · obtain ⟨y, hy, h⟩ := bind_eq_ok.mp h
    obtain ⟨z, hz, h⟩ := bind_eq_ok.mp h
    have hfind : Still k y.2 := pcbFindChildOf_still hy
    rw [← Except.ok.inj h]
    exact (hfind.trans (reparentLoop_still _ hz)).setPcb p rfl
  · exact Except.ok.inj h ▸ .refl k

theorem lay_still (h : lay k p = .ok k') : Still k k' := by
  obtain ⟨q, ⟨-, k₁, he, hs⟩ | ⟨-, he⟩⟩ := lay_cases h
  · have h₁ := remove_still he (by simp)
    have h₂ := h₁.trans (deliver_still k₁ q p)
    exact (h₂.trans (pcbCleanup_still _ p)).trans (schedule_still hs)
  · exact enque_still he (by simp)

theorem zombify_still (h : zombify k p = .ok k') : Still k k' := by
  obtain ⟨k₁, hk₁, h⟩ := bind_eq_ok.mp h
  exact (reparent_still hk₁).trans (lay_still h)

/-! ### Handlers -/

theorem sysExit_still (h : sysExit k p = .ok k') : Still k k' := by
  obtain ⟨k₁, hk₁, h⟩ := bind_eq_ok.mp h
  exact (((Still.refl k).setPcb p rfl).trans (zombify_still hk₁)).trans (dispatch_still h)

theorem pageFaultIsr_still (h : pageFaultIsr k = .ok k') : Still k k' := by
  obtain ⟨k₁, hk₁, h⟩ := bind_eq_ok.mp h
  exact (((Still.refl k).setPcb k.current rfl).trans (zombify_still hk₁)).trans (dispatch_still h)

theorem readDone_still {n : Nat} (h : readDone k p n = .ok k') : Still k k' := by
  rw [readDone] at h
  split at h
  · exact Except.ok.inj h ▸ (Still.refl k).setRet p _
  · split at h
    · rename_i k₁ he
      exact ((enque_still he (by simp)).setPcb k₁.current rfl).trans (dispatch_still h)
    · rename_i k₁ _ he
      rw [← Except.ok.inj h]
      exact (enque_still he (by simp)).setRet p _

theorem sysRead_still {keys : List Byte} (h : sysRead keys k p = .ok k') : Still k k' := by
  simp only [sysRead] at h
  split at h
  · split at h
    · exact Except.ok.inj h ▸ (Still.refl k).setRet p _
    · obtain ⟨⟨n, c, m⟩, -, h⟩ := bind_eq_ok.mp h
      exact (readDone_still h).of_start rfl rfl rfl
  · split at h
    · exact (readDone_still h).of_start rfl rfl rfl
    · exact Except.ok.inj h ▸ (Still.refl k).setRet p _

theorem sysWrite_still (h : sysWrite k p = .ok k') : Still k k' := by
  simp only [sysWrite] at h
  split at h
  · exact Except.ok.inj h ▸ (Still.refl k).setRet p _
  · split at h
    · rw [← Except.ok.inj h]
      refine Still.setRet ?_ p _
      exact .of_eq rfl rfl rfl
    · exact Except.ok.inj h ▸ (Still.refl k).setRet p _

theorem finishKill_still {v : PcbId} (h : finishKill k p v = .ok k') : Still k k' := by
  obtain ⟨k₁, hk₁, h⟩ := bind_eq_ok.mp h
  have h₁ := (((Still.refl k).setPcb v rfl).setRet p _).trans (zombify_still hk₁)
  split at h
  · exact h₁.trans (dispatch_still h)
  · exact Except.ok.inj h ▸ h₁

theorem zombieLoop_still : ∀ (fuel : Nat) {k : Kernel} {x : Option PcbId}
    {y : Option PcbId × Kernel}, zombieLoop fuel k x = .ok y → Still k y.2
  | _, k, none, y, h => by
      simp only [zombieLoop, Except.ok.injEq] at h
      exact h ▸ .refl k
  | 0, _, some _, _, h => by cases h
  | fuel + 1, k, some child, y, h => by
      rw [zombieLoop] at h
      split at h
      · exact Except.ok.inj h ▸ .refl k
      · obtain ⟨z, hz, h⟩ := bind_eq_ok.mp h
        have hfind : Still k z.2 := pcbFindChildOf_still hz
        exact hfind.trans (zombieLoop_still fuel h)

theorem sysWait_still (h : sysWait k p = .ok k') : Still k k' := by
  rw [sysWait] at h
  split at h
  · exact Except.ok.inj h ▸ (Still.refl k).setRet p _
  · obtain ⟨⟨x, k₁⟩, hk₁, h⟩ := bind_eq_ok.mp h
    obtain ⟨⟨z, k₂⟩, hk₂, h⟩ := bind_eq_ok.mp h
    have h₂ : Still k k₂ := (pcbFindChildOf_still hk₁).trans (zombieLoop_still _ hk₂)
    cases z with
    | some child =>
        dsimp only at h
        split at h
        · rename_i k₃ he
          have h₃ := h₂.trans (remove_still he (by simp))
          rw [← Except.ok.inj h]
          exact ((h₃.setPcb p rfl).trans (deliver_still _ p child)).trans
            (pcbCleanup_still _ child)
        · cases h
    | none =>
        dsimp only at h
        split at h
        · rename_i k₃ he
          have h₃ := (h₂.setPcb p rfl).trans (enque_still he (by simp))
          exact h₃.trans (dispatch_still h)
        · cases h

theorem pcbAlloc_still {x : Option PcbId} (h : pcbAlloc k = .ok (x, k')) : Still k k' := by
  rcases pcbAlloc_cases h with ⟨-, rfl⟩ | ⟨p, k₁, -, hd, rfl⟩
  · exact .refl k'
  · exact (deque_still hd (by simp)).setPcb p rfl

theorem stkAlloc_still {x : Option StackId} (h : stkAlloc k = .ok (x, k')) : Still k k' := by
  rcases stkAlloc_cases h with ⟨-, rfl⟩ | ⟨s, l, -, -, rfl⟩
  · exact .refl k'
  · exact .setStacks k _

/-- The PCB a `fork` gets was free, so not on the sleeping queue. -/
theorem pcbAlloc_free {new : PcbId} (h : pcbAlloc k = .ok (some new, k')) : new ∈ k.on .free := by
  rcases pcbAlloc_cases h with ⟨hx, -⟩ | ⟨p, k₁, hx, hd, -⟩
  · cases hx
  · obtain rfl := Option.some.inj hx
    obtain ⟨n, l, hq, -⟩ := deque_eq hd
    exact hq ▸ List.mem_cons_self ..

theorem Good.not_on (g : Good k) (hp : p ∈ k.on q) {q' : PQueue} (hne : q' ≠ q) :
    p ∉ k.on q' := by
  intro hc
  have h1 := ((g.placed.mem p q).mp hp).2
  have h2 := ((g.placed.mem p q').mp hc).2
  exact hne (Option.some.inj (h2.symm.trans h1))

theorem Good.current_not_on (g : Good k) (q : PQueue) : k.current ∉ k.on q := by
  intro hc
  have := ((g.placed.mem _ _).mp hc).2
  simp [home, g.running] at this

theorem birth_still {new : PcbId} {stk : StackId} (hnew : new ∉ k.on .sleeping) :
    Still k (birth k p new stk) := by
  have h₁ : Still k (k.setPcb new fun _ => forkPcb (k.pcbs p) k.nextPid stk) :=
    Still.setOther hnew
  have h₂ : Still k { k.setPcb new (fun _ => forkPcb (k.pcbs p) k.nextPid stk) with
      nextPid := k.nextPid + 1 } := h₁.trans (.of_eq rfl rfl rfl)
  exact (h₂.setRet p (k.nextPid.signExtend 32)).setPcb p
    (f := fun x => { x with children := x.children + 1 }) rfl

theorem sysFork_still (g : Good k) (h : sysFork k p = .ok k') : Still k k' := by
  rw [sysFork] at h
  split at h
  · exact Except.ok.inj h ▸ (Still.refl k).setRet p _
  · obtain ⟨⟨new, k₁⟩, hk₁, h⟩ := bind_eq_ok.mp h
    have h₁ := pcbAlloc_still hk₁
    cases new with
    | none => exact Except.ok.inj h ▸ h₁.setRet p _
    | some new =>
        obtain ⟨⟨stk, k₂⟩, hk₂, h⟩ := bind_eq_ok.mp h
        have h₂ : Still k k₂ := h₁.trans (stkAlloc_still hk₂)
        cases stk with
        | none =>
            exact Except.ok.inj h ▸ (h₂.setRet p _).trans (pcbDealloc_still _ new)
        | some stk =>
            have hnew : new ∉ k₂.on .sleeping := by
              rw [h₂.sleeping]
              exact g.not_on (pcbAlloc_free hk₁) (by simp)
            have h : schedule (birth k₂ p new stk) new = .ok k' := h
            exact (h₂.trans (birth_still hnew)).trans (schedule_still h)

theorem sysExec_still (h : sysExec k p = .ok k') : Still k k' := by
  obtain ⟨⟨memory, mm⟩, hk, h⟩ := bind_eq_ok.mp h
  rw [← Except.ok.inj h]
  have h₁ := (Still.refl k).setPcb p (f := fun x => { x with
    prio := k.arg p 3, context := stkSetup k.image (k.arg p 1) (k.arg p 2) }) rfl
  refine Still.setPcb ?_ p rfl
  exact h₁.trans (.of_eq rfl rfl rfl)

theorem sysMmap_still (h : sysMmap k p = .ok k') : Still k k' := by
  obtain ⟨⟨r, st, mm⟩, hk, h⟩ := bind_eq_ok.mp h
  rw [← Except.ok.inj h]
  refine Still.setRet ?_ p _
  exact .of_eq rfl rfl rfl

theorem sioEvent_still {e : SioEvent} (h : sioEvent k e = .ok k') : Still k k' := by
  cases e with
  | lineStatus => exact Except.ok.inj h ▸ .refl k
  | rxTimeout ch => exact Except.ok.inj h ▸ .refl k
  | modemStatus => exact Except.ok.inj h ▸ .refl k
  | tx => exact Except.ok.inj h ▸ .of_eq rfl rfl rfl
  | unknown => cases h
  | rx ch =>
      rcases sioEvent_rx h with ⟨-, rfl⟩ | ⟨p, l, k₁, -, he, hk⟩
      · exact .of_eq rfl rfl rfl
      · exact ((deque_still he (by simp)).setRet p _).trans (schedule_still hk)

theorem sioIsr_still : ∀ (pending : List SioEvent) {k : Kernel},
    sioIsr pending k = .ok k' → Still k k'
  | [], k, h => Except.ok.inj h ▸ .refl k
  | e :: pending, k, h => by
      rw [sioIsr, List.foldlM_cons] at h
      obtain ⟨k₁, hk₁, h⟩ := bind_eq_ok.mp h
      exact (sioEvent_still hk₁).trans (sioIsr_still pending h)

end SpKernel
