import SpKernel.Simulation

/-!
# What the operations of the kernel do

One lemma for each operation that takes a PCB or a stack off a queue or
puts one on, and for the parts of `_zombify`: the state it leaves in
terms of the state it found. What other modules say about these
operations (who is on which queue, which stacks are free, how many nodes
are in use, what a process has for a context) follows from that, and no
other module unfolds them.

- `deque_eq`, `remove_eq` and `enque_eq` are about a queue of PCBs: the
  call is an error only where the source panics, and what it leaves
  differs from what it found in one list and the number of free nodes.
- `wakeLoop_round` is one round of the loop of `_clk_isr`, and
  `dispatch_deque` says from which queue `_dispatch` takes the process.
- `pcbAlloc_cases` and `stkAlloc_cases` are the two outcomes of an
  allocation. Which PCB is handed out does not depend on the fields of
  the others.
- `reparent_kin` says that handing on the children changes parents and
  counters and nothing else, and `lay_cases` has the three ways in which
  a dead process is laid to rest.
-/

namespace SpKernel

open Function (update)
open Lib

variable {k k' : Kernel} {p : PcbId} {q : PQueue}

theorem setRet_eax (k : Kernel) (p : PcbId) (v : Word) :
    ((k.setRet p v).pcbs p).context.regs.eax = v := by
  rw [Kernel.setRet, setPcb_self]

/-! ## Queues of PCBs -/

theorem deque_eq {st : Status} {x : PcbId} (h : k.deque q = (st, some x, k')) :
    ∃ n l, k.on q = x :: l ∧ k' = { k with queues := ⟨n, update k.queues.items (.pcbs q) l⟩ } := by
  cases hq : k.on q with
  | nil =>
      have hq' : k.queues.items (.pcbs q) = [] := hq
      simp [Kernel.deque, QPool.deque, hq'] at h
  | cons y l =>
      have hq' : k.queues.items (.pcbs q) = y :: l := hq
      simp only [Kernel.deque, QPool.deque, hq', Prod.mk.injEq, Option.some.injEq] at h
      exact ⟨_, l, by rw [h.2.1], h.2.2.symm⟩

theorem remove_eq (h : k.remove q p = (.success, k')) :
    p ∈ k.on q ∧ ∃ n, k' = { k with
      queues := ⟨n, update k.queues.items (.pcbs q) ((k.on q).erase p)⟩ } := by
  by_cases hp : p ∈ k.queues.items (.pcbs q)
  · simp only [Kernel.remove, QPool.remove, hp, ↓reduceIte, Prod.mk.injEq, true_and] at h
    exact ⟨hp, _, h.symm⟩
  · simp only [Kernel.remove, QPool.remove, hp, ↓reduceIte, Prod.mk.injEq] at h
    cases h.1

theorem enque_eq {st : Status} (h : k.enque q p = (st, k')) : k' = k ∨ ∃ n, k' = { k with
    queues := ⟨n, update k.queues.items (.pcbs q) (insertItem (k.order q) p (k.on q))⟩ } := by
  by_cases hn : k.queues.nodes = 0
  · simp only [Kernel.enque, QPool.enque, hn, ↓reduceIte, Prod.mk.injEq] at h
    exact .inl h.2.symm
  · simp only [Kernel.enque, QPool.enque, hn, ↓reduceIte, Prod.mk.injEq] at h
    exact .inr ⟨_, h.2.symm⟩

/-- A round of the loop of `_clk_isr` ends it, or takes a process off the queue and
schedules it. -/
theorem wakeLoop_round {fuel : Nat} (h : wakeLoop (fuel + 1) k = .ok k') :
    k' = k ∨ ∃ p k₁ k₂, k.deque .sleeping = (.success, some p, k₁) ∧ schedule k₁ p = .ok k₂
      ∧ wakeLoop fuel k₂ = .ok k' := by
  rw [wakeLoop] at h
  split at h
  · split at h
    · split at h
      · rename_i p k₁ he
        obtain ⟨k₂, hk₂, h⟩ := bind_eq_ok.mp h
        exact .inr ⟨p, k₁, k₂, he, hk₂, h⟩
      · cases h
    · exact .inl (Except.ok.inj h).symm
  · exact .inl (Except.ok.inj h).symm

/-- `_dispatch` has taken the first of the queue its search has found. -/
theorem dispatch_deque (h : dispatch k = .ok k') : ∃ prio p k₁,
    (List.finRange nPrios).find? (fun prio => decide (0 < k.queues.size (.pcbs (.ready prio))))
      = some prio
    ∧ k.deque (.ready prio) = (.success, some p, k₁)
    ∧ k' = { { k₁ with current := p }.setPcb p Pcb.makeRunning with
        mm := setReturnPde k₁.mm
          (({ k₁ with current := p }.setPcb p Pcb.makeRunning).pcbs p).memory } := by
  rw [dispatch] at h
  split at h
  · cases h
  · rename_i prio hf
    split at h
    · rename_i p k₁ hd
      exact ⟨prio, p, k₁, hf, hd, (Except.ok.inj h).symm⟩
    · cases h

/-! ## Allocation -/

theorem pcbAlloc_cases {x : Option PcbId} (h : pcbAlloc k = .ok (x, k')) :
    (x = none ∧ k' = k) ∨ ∃ p k₁, x = some p ∧ k.deque .free = (.success, some p, k₁)
      ∧ k' = k₁.setPcb p fun x => { x with state := .new } := by
  rw [pcbAlloc] at h
  split at h
  · obtain ⟨rfl, rfl⟩ := Prod.mk.inj (Except.ok.inj h)
    exact .inl ⟨rfl, rfl⟩
  · split at h
    · rename_i p k₁ hd
      obtain ⟨rfl, rfl⟩ := Prod.mk.inj (Except.ok.inj h)
      exact .inr ⟨p, k₁, rfl, hd, rfl⟩
    · cases h

theorem stkAlloc_cases {x : Option StackId} (h : stkAlloc k = .ok (x, k')) :
    (x = none ∧ k' = k) ∨ ∃ s l, x = some s ∧ k.freeStacks = s :: l
      ∧ k' = { k with
        queues := ⟨k.queues.nodes + 1, update k.queues.items .freeStacks l⟩ } := by
  rw [stkAlloc] at h
  split at h
  · obtain ⟨rfl, rfl⟩ := Prod.mk.inj (Except.ok.inj h)
    exact .inl ⟨rfl, rfl⟩
  · split at h
    · rename_i s Q hd
      obtain ⟨rfl, rfl⟩ := Prod.mk.inj (Except.ok.inj h)
      simp only [QPool.deque] at hd
      split at hd
      · cases hd
      · rename_i d l hl
        obtain ⟨-, hd⟩ := Prod.mk.inj hd
        obtain ⟨hs, rfl⟩ := Prod.mk.inj hd
        exact .inr ⟨s, l, rfl, hl.trans (by rw [Option.some.inj hs]), rfl⟩
    · cases h

/-- The search for a child changes its two variables. -/
theorem pcbFindChildOf_same {ppid : Word} {x : Option PcbId}
    (h : pcbFindChildOf k ppid = .ok (x, k')) :
    ∃ curr tgt, k' = { k with childCurr := curr, childTarget := tgt } := by
  have hsearch : ∀ {target start}, pcbFindChildOf.search k target start = .ok (x, k') →
      ∃ curr tgt, k' = { k with childCurr := curr, childTarget := tgt } := by
    intro target start h
    rw [pcbFindChildOf.search] at h
    split at h
    · obtain ⟨-, rfl⟩ := Prod.mk.inj (Except.ok.inj h)
      exact ⟨_, _, rfl⟩
    · obtain ⟨-, rfl⟩ := Prod.mk.inj (Except.ok.inj h)
      exact ⟨_, _, rfl⟩
  rw [pcbFindChildOf] at h
  split at h
  · split at h
    · cases h
    · exact hsearch h
  · split at h
    · exact hsearch h
    · exact hsearch h

/-! ## The end of a process -/

/-- Reparenting changes who is whose child, and how many children. -/
theorem reparent_kin (hpid : (k.pcbs p).pid ≠ -1) (h : reparent k p = .ok k') :
    ∃ curr tgt, ∃ ppid children : PcbId → Half, k' = { k with
      childCurr := curr
      childTarget := tgt
      pcbs := fun x => (k.pcbs x).setKin (ppid x) (children x) } := by
  by_cases hc : 0 < (k.pcbs p).children
  · obtain ⟨curr, tgt, heq⟩ := reparent_pcbs hpid hc
    obtain rfl := Except.ok.inj (heq.symm.trans h)
    exact ⟨curr, tgt, _, _, rfl⟩
  · rw [reparent, if_neg hc] at h
    obtain rfl := Except.ok.inj h
    exact ⟨_, _, fun x => (k.pcbs x).ppid, fun x => (k.pcbs x).children, rfl⟩

/-- A process goes to its waiting parent `q`, or on the zombie queue. -/
theorem lay_cases (h : lay k p = .ok k') : ∃ q,
    ((k.pcbs q).state = .waiting ∧ ∃ k₁, k.remove .waiting q = (.success, k₁)
      ∧ schedule (pcbCleanup (deliver k₁ q p) p) q = .ok k')
    ∨ (k.pcbs q).state ≠ .waiting ∧ k.enque .zombie p = (.success, k') := by
  rw [lay] at h
  split at h
  · cases h
  · rename_i q _
    split at h
    · rename_i hw
      split at h
      · rename_i k₁ he
        exact ⟨q, .inl ⟨hw, k₁, he, h⟩⟩
      · cases h
    · rename_i hw
      split at h
      · rename_i k₁ he
        obtain rfl := Except.ok.inj h
        exact ⟨q, .inr ⟨hw, he⟩⟩
      · cases h

end SpKernel
