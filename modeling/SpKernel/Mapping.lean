import SpKernel.Accounting
import SpKernel.Operations

/-!
# The identity mapping stays

All address spaces share the first page table, the one of the identity
mapping, and `_k_mmap` guards it by its start address only. Its plain
loop counts physical pages, so the virtual location can go around the top
of the address space and come back at page 0 (`GoesAround`). Where no
call does that, the identity mapping never changes (`kMmap_keeps`); the
first call that does it changes it at once (`kMmap_breaks`).

Only `fork`, `exec` and `mmap` have to do with address spaces, and of
these `fork` gives the child the space of its parent. `SameSpaces` is
what all the rest of the kernel has in common, with a lemma for each
function that needs one. `Spaced` is the invariant of a run: the
directories created in it are represented (`Spaces`), and those of all
processes are among them or are the one of the identity mapping.

`identity_kept_iff` is the equivalence for runs: the identity mapping is
kept in all states of a run exactly if no `mmap` of it goes around the
top. The last two sections are about such a run: `Supply` says that a
call finds the pages it needs, from which `exec_ok` and `mmap_ok` follow
for a process that has just called `exec`, and `identity_lost` has the
call that goes around.
-/

namespace SpKernel

open Lib

/-! ## What a mapping does to the shared table -/

/-- From `v` on there is less room than `[p, p + len)` has pages. -/
def GoesAround (v p len : Word) : Prop := 2 ^ 32 < v.toNat + 4096 * pagesUpTo p (p + len)

instance (v p len : Word) : Decidable (GoesAround v p len) := inferInstanceAs (Decidable (_ < _))

theorem pdeIndex_eq_zero {v : Word} : pdeIndex v = 0 ↔ v < secondPde := by
  rw [pdeIndex_eq, BitVec.lt_def, show secondPde.toNat = 2 ^ 22 from rfl]
  omega

/-- A range that does not go around stays where it starts, or above. -/
theorem high_of_range {v a : Word} {n : Nat} (hv : secondPde ≤ v) (hn : v.toNat + 4096 * n ≤ 2 ^ 32)
    (ha : pagesFrom v a < n) : pdeIndex a ≠ 0 := by
  have h1 := v.isLt
  have h2 := a.isLt
  rw [BitVec.le_def, show secondPde.toNat = 2 ^ 22 from rfl] at hv
  rw [pagesFrom, BitVec.toNat_sub] at ha
  rw [pdeIndex_eq]
  omega

/-- The pages up to `done` end where the address space does, or before. -/
theorem pagesUpTo_le {p : Word} (done : Word) (hp : PageAligned p) :
    p.toNat + 4096 * pagesUpTo p done ≤ 2 ^ 32 := by
  have h1 := p.isLt
  have h2 := done.isLt
  unfold PageAligned at hp
  unfold pagesUpTo
  omega

section Calls

variable {mm mm' : MemMgr} {dirs : List Word} {d v p len r : Word} {st : Status}

theorem MappedRange.phys_other {n : Nat} {img : Nat → Word} {d' : Word}
    (hm : MappedRange dirs d v n img mm mm') (hd' : d' ∈ dirs) (hne : d ≠ d')
    (hv : secondPde ≤ v) (hn : v.toNat + 4096 * n ≤ 2 ^ 32) (a : Word) :
    getPhysAddress mm' d' a = getPhysAddress mm d' a := by
  rw [hm.phys d' hd' a, if_neg]
  rintro ⟨hlt, he | h0⟩
  · exact hne he.symm
  · exact high_of_range hv hn hlt h0

/-- A call that does not go around leaves the identity mapping alone. -/
theorem kMmap_keeps (hs : Spaces mm dirs) (hd : d ∈ dirs) (hroot : mm.pageDirectory ∈ dirs)
    (h : kMmap mm d v p len = .ok (r, st, mm'))
    (hw : PageAligned v → PageAligned p → p ≠ 0 → ¬GoesAround v p len) (a : Word) :
    getPhysAddress mm' mm.pageDirectory a = getPhysAddress mm mm.pageDirectory a := by
  rcases kMmap_cases hs hd h with
    ⟨-, rfl, -⟩ | ⟨-, hne, hlow, hv, hp, ⟨hp0, hm⟩ | ⟨-, img, -, hm⟩⟩
  · rfl
  · exact hm.phys_other hroot hne hlow (Nat.le_of_not_lt (hw hv hp hp0)) a
  · -- free pages are counted by the virtual location itself
    exact hm.phys_other hroot hne hlow (pagesUpTo_le _ hv) a

end Calls

/-! ## What leaves the address spaces alone -/

/-- The page tables are as they were, and every PCB has the address space
it had. -/
structure SameSpaces (k k' : Kernel) : Prop where
  tables : ∃ last loaded, k'.mm = { k.mm with lastPde := last, cr3 := loaded }
  memory : ∀ p, (k'.pcbs p).memory = (k.pcbs p).memory
  initPcb : k'.initPcb = k.initPcb

variable {k k' : Kernel} {p : PcbId}

theorem SameSpaces.trans {k₁ k₂ k₃ : Kernel} (h : SameSpaces k₁ k₂) (h' : SameSpaces k₂ k₃) :
    SameSpaces k₁ k₃ := by
  obtain ⟨l, c, hm⟩ := h.tables
  obtain ⟨l', c', hm'⟩ := h'.tables
  refine ⟨⟨l', c', ?_⟩, fun p => (h'.memory p).trans (h.memory p), h'.initPcb.trans h.initPcb⟩
  rw [hm', hm]

theorem SameSpaces.setPcb (h : SameSpaces k k') (p : PcbId) {f : Pcb → Pcb}
    (hf : (f (k'.pcbs p)).memory = (k'.pcbs p).memory) : SameSpaces k (k'.setPcb p f) := by
  refine ⟨h.tables, fun q => ?_, h.initPcb⟩
  rcases eq_or_ne q p with rfl | hq
  · rw [setPcb_self, hf, h.memory]
  · rw [setPcb_other _ _ hq, h.memory]

theorem SameSpaces.setRet (h : SameSpaces k k') (p : PcbId) (v : Word) :
    SameSpaces k (k'.setRet p v) :=
  h.setPcb p rfl

theorem SameSpaces.refl (k : Kernel) : SameSpaces k k := ⟨⟨_, _, rfl⟩, fun _ => rfl, rfl⟩

theorem SameSpaces.queues (h : SameSpaces k k') (Q : QPool QueueId Entry) :
    SameSpaces k { k' with queues := Q } :=
  ⟨h.tables, h.memory, h.initPcb⟩

theorem SameSpaces.load (h : SameSpaces k k') (last loaded : Word) :
    SameSpaces k { k' with mm := { k'.mm with lastPde := last, cr3 := loaded } } := by
  obtain ⟨l, c, hm⟩ := h.tables
  refine ⟨⟨last, loaded, ?_⟩, h.memory, h.initPcb⟩
  rw [hm]

theorem deque_spaces {q : PQueue} {st : Status} {x : Option PcbId}
    (h : k.deque q = (st, x, k')) : SameSpaces k k' := by
  have hk : (k.deque q).2.2 = k' := by rw [h]
  rw [← hk]
  exact (SameSpaces.refl k).queues _

theorem schedule_spaces (h : schedule k p = .ok k') : SameSpaces k k' := by
  obtain ⟨prio, he⟩ := schedule_enque h
  rw [← show _ = k' from congrArg Prod.snd he]
  exact ((SameSpaces.refl k).setPcb p rfl).queues _

theorem dispatch_spaces (h : dispatch k = .ok k') : SameSpaces k k' := by
  obtain ⟨prio, p, k₁, -, he, rfl⟩ := dispatch_deque h
  have h₁ := deque_spaces he
  have h₂ : SameSpaces k { k₁ with current := p } := ⟨h₁.tables, h₁.memory, h₁.initPcb⟩
  exact (h₂.setPcb p (f := Pcb.makeRunning) rfl).load _ _

theorem wakeLoop_spaces : ∀ (fuel : Nat) {k : Kernel}, wakeLoop fuel k = .ok k' → SameSpaces k k'
  | 0, _, h => by cases h
  | fuel + 1, k, h => by
      rcases wakeLoop_round h with rfl | ⟨p, k₁, k₂, he, hk₂, h⟩
      · exact .refl _
      · exact ((deque_spaces he).trans (schedule_spaces hk₂)).trans (wakeLoop_spaces fuel h)

theorem clkIsr_spaces (h : clkIsr k = .ok k') : SameSpaces k k' := by
  obtain ⟨k₁, hwake, h⟩ := bind_eq_ok.mp h
  have h₁ : SameSpaces k k₁ := by
    obtain ⟨ht, hm, hi⟩ := wakeLoop_spaces _ hwake
    exact ⟨ht, hm, hi⟩
  have h₂ := h₁.setPcb k₁.current (f := fun x => { x with qTicks := x.qTicks - 1 }) rfl
  dsimp only at h
  split at h
  · obtain ⟨k₂, hk₂, h⟩ := bind_eq_ok.mp h
    exact (h₂.trans (schedule_spaces hk₂)).trans (dispatch_spaces h)
  · exact Except.ok.inj h ▸ h₂

theorem isrSave_spaces (k : Kernel) (frame : Frame) : SameSpaces k (isrSave k frame) :=
  ((SameSpaces.refl k).load k.mm.cr3 k.mm.pageDirectory).setPcb k.current
    (f := fun x => { x with context := frame }) rfl

theorem isrRestore_spaces (k : Kernel) : SameSpaces k (isrRestore k) :=
  (SameSpaces.refl k).load _ _

theorem pcbAlloc_spaces {x : Option PcbId} (h : pcbAlloc k = .ok (x, k')) :
    SameSpaces k k' ∧ ∀ q, x ≠ some q → k'.pcbs q = k.pcbs q := by
  rcases pcbAlloc_cases h with ⟨rfl, rfl⟩ | ⟨p, k₁, rfl, he, rfl⟩
  · exact ⟨.refl k', fun _ _ => rfl⟩
  · refine ⟨(deque_spaces he).setPcb p rfl, fun q hq => ?_⟩
    obtain ⟨n, l, -, rfl⟩ := deque_eq he
    exact setPcb_other _ _ fun hc => hq (congrArg some hc.symm)

theorem stkAlloc_spaces {x : Option StackId} (h : stkAlloc k = .ok (x, k')) :
    SameSpaces k k' ∧ k'.pcbs = k.pcbs := by
  rcases stkAlloc_cases h with ⟨-, rfl⟩ | ⟨s, l, -, -, rfl⟩
  · exact ⟨.refl k', rfl⟩
  · exact ⟨(SameSpaces.refl k).queues _, rfl⟩

/-! ## Fork, exec and mmap -/

theorem birth_memory (k : Kernel) (p new : PcbId) (stk : StackId) (q : PcbId) :
    ((birth k p new stk).pcbs q).memory
      = if q = new then (k.pcbs p).memory else (k.pcbs q).memory := by
  have h : SameSpaces (k.setPcb new fun _ => forkPcb (k.pcbs p) k.nextPid stk)
      (birth k p new stk) := by
    unfold birth
    refine SameSpaces.setPcb (SameSpaces.setRet ?_ p _) p rfl
    exact ⟨⟨_, _, rfl⟩, fun _ => rfl, rfl⟩
  rw [h.memory q]
  split
  · rename_i hq
    rw [hq, setPcb_self]
    rfl
  · rename_i hq
    rw [setPcb_other _ _ hq]

theorem birth_state (k : Kernel) (p : PcbId) {new q : PcbId} (stk : StackId) (hq : q ≠ new) :
    ((birth k p new stk).pcbs q).state = (k.pcbs q).state := by
  rw [birth, setPcb_state _ p rfl q, setRet_state]
  exact congrArg Pcb.state (setPcb_other k (fun _ => forkPcb (k.pcbs p) k.nextPid stk) hq)

/-- The page tables are as they were, and every process had its address
space before, or has that of `p`. -/
structure Inherits (p : PcbId) (k k' : Kernel) : Prop where
  tables : ∃ last loaded, k'.mm = { k.mm with lastPde := last, cr3 := loaded }
  memory : ∀ q, (k'.pcbs q).state ≠ .free → (k'.pcbs q).memory = (k.pcbs p).memory
    ∨ (k.pcbs q).state ≠ .free ∧ (k'.pcbs q).memory = (k.pcbs q).memory

theorem SameSpaces.inherits (h : SameSpaces k k')
    (hs : ∀ q, (k'.pcbs q).state ≠ .free → (k.pcbs q).state ≠ .free) : Inherits p k k' :=
  ⟨h.tables, fun q hq => .inr ⟨hs q hq, h.memory q⟩⟩

theorem setRet_inherits (k : Kernel) (p : PcbId) (v : Word) : Inherits p k (k.setRet p v) :=
  ((SameSpaces.refl k).setRet p v).inherits fun q hq => by
    rwa [setRet_state] at hq

theorem sysFork_inherits (h : sysFork k p = .ok k') : Inherits p k k' := by
  rw [sysFork] at h
  split at h
  · exact Except.ok.inj h ▸ setRet_inherits k p _
  obtain ⟨⟨new, k₁⟩, hnew, h⟩ := bind_eq_ok.mp h
  obtain ⟨h₁, hother⟩ := pcbAlloc_spaces hnew
  cases new with
  | none =>
      obtain rfl := Except.ok.inj h
      refine (h₁.setRet p _).inherits fun q hq => ?_
      rwa [setRet_state, hother q (Option.some_ne_none q).symm] at hq
  | some new =>
      obtain ⟨⟨stk, k₂⟩, hstk, h⟩ := bind_eq_ok.mp h
      obtain ⟨h₂, hpcbs⟩ := stkAlloc_spaces hstk
      have h₂ := h₁.trans h₂
      have hold : ∀ q, q ≠ new → (k₂.pcbs q).state = (k.pcbs q).state := by
        intro q hq
        rw [hpcbs, hother q fun hc => hq (Option.some.inj hc).symm]
      cases stk with
      | none =>
          obtain rfl := Except.ok.inj h
          have h₃ : SameSpaces k ((k₂.setRet p Status.noStacks.word).setPcb new Pcb.makeFree) :=
            (h₂.setRet p _).setPcb new rfl
          refine (h₃.queues _).inherits fun q hq => ?_
          have hq' : (((k₂.setRet p Status.noStacks.word).setPcb new Pcb.makeFree).pcbs q).state
            ≠ .free := hq
          rcases eq_or_ne q new with rfl | hne
          · rw [setPcb_self] at hq'
            exact absurd rfl hq'
          · rw [setPcb_other _ _ hne, setRet_state, hold q hne] at hq'
            exact hq'
      | some stk =>
          have h : schedule (birth k₂ p new stk) new = .ok k' := h
          have h₃ := schedule_spaces h
          obtain ⟨l, c, hm⟩ := h₂.tables
          obtain ⟨l', c', hm'⟩ := h₃.tables
          refine ⟨⟨l', c', ?_⟩, fun q hq => ?_⟩
          · rw [hm', show (birth k₂ p new stk).mm = k₂.mm from rfl, hm]
          · rw [h₃.memory q, birth_memory]
            rcases eq_or_ne q new with rfl | hne
            · exact .inl (by rw [if_pos rfl, h₂.memory p])
            · rw [schedule_other h hne, birth_state k₂ p stk hne, hold q hne] at hq
              exact .inr ⟨hq, by rw [if_neg hne, h₂.memory q]⟩

theorem sysExec_spaces (h : sysExec k p = .ok k') :
    ∃ d mm', execSpace k.mm (k.arg p 3) = .ok (d, mm') ∧ k'.mm = setReturnPde mm' d
      ∧ k'.current = k.current ∧ ∀ q, (k'.pcbs q).memory = (if q = p then d else (k.pcbs q).memory)
        ∧ (k'.pcbs q).state = (k.pcbs q).state := by
  obtain ⟨⟨d, mm'⟩, hspace, h⟩ := bind_eq_ok.mp h
  obtain rfl := Except.ok.inj h
  refine ⟨d, mm', hspace, rfl, rfl, fun q => ?_⟩
  simp only [Kernel.setPcb, Function.update_apply]
  rcases eq_or_ne q p with rfl | hq
  · simp
  · simp [hq]

theorem sysMmap_spaces (h : sysMmap k p = .ok k') :
    ∃ r st mm', kMmap k.mm (k.pcbs p).memory (k.arg p 1) (k.arg p 2) (k.arg p 3)
        = .ok (r, st, mm') ∧ k'.mm = mm'
      ∧ ∀ q, (k'.pcbs q).memory = (k.pcbs q).memory ∧ (k'.pcbs q).state = (k.pcbs q).state := by
  obtain ⟨⟨r, st, mm'⟩, hmap, h⟩ := bind_eq_ok.mp h
  obtain rfl := Except.ok.inj h
  refine ⟨r, st, mm', hmap, rfl, fun q => ?_⟩
  simp only [Kernel.setRet, Kernel.setPcb, Function.update_apply]
  rcases eq_or_ne q p with rfl | hq
  · simp
  · simp [hq]

/-! ## Runs -/

/-- The calls in question, of any process: the clock may give the
processor to another one at any time. -/
inductive MapCall : Event → Prop
  | fork {frame keys} : frame.regs.eax = 3 → MapCall (.interrupt frame (.syscall keys))
  | exec {frame keys} : frame.regs.eax = 4 → MapCall (.interrupt frame (.syscall keys))
  | mmap {frame keys} : frame.regs.eax = 11 → MapCall (.interrupt frame (.syscall keys))
  | clock {frame} : MapCall (.interrupt frame .clock)

/-- An `mmap` of physical pages of the caller's choice that goes around. -/
inductive Wraps : Event → Prop
  | mmap {frame keys} : frame.regs.eax = 11 → PageAligned (frame.args 1) →
      PageAligned (frame.args 2) → frame.args 2 ≠ 0 →
      GoesAround (frame.args 1) (frame.args 2) (frame.args 3) →
      Wraps (.interrupt frame (.syscall keys))

/-- In this event `new_page_directory` makes the address space `d`. -/
def Creates (k : Kernel) (e : Event) (d : Word) : Prop :=
  ∃ frame keys mm', e = .interrupt frame (.syscall keys) ∧ frame.regs.eax = 4
    ∧ frame.args 3 ≠ 0 ∧ newPageDirectory (isrSave k frame).mm = .ok (d, mm')

/-- The address spaces are among `dirs`, and the identity mapping is as
it should be. -/
structure Spaced (dirs : List Word) (k : Kernel) : Prop where
  spaces : Spaces k.mm dirs
  root : k.mm.pageDirectory ∈ dirs
  memory : ∀ p, (k.pcbs p).state ≠ .free → (k.pcbs p).memory ∈ dirs
  phys : ∀ v, getPhysAddress k.mm k.mm.pageDirectory v = base v

variable {dirs : List Word} {e : Event}

theorem Spaces.load {mm : MemMgr} (hs : Spaces mm dirs) (last loaded : Word) :
    Spaces { mm with lastPde := last, cr3 := loaded } dirs :=
  hs.of_tables ⟨hs.cursor, fun _ hn => hn, rfl, rfl⟩ fun _ _ _ _ => rfl

theorem Spaced.inherits (h : Spaced dirs k) (hi : Inherits p k k') (hp : (k.pcbs p).state ≠ .free) :
    Spaced dirs k' := by
  obtain ⟨⟨last, loaded, hm⟩, hmem⟩ := hi
  refine ⟨hm ▸ h.spaces.load last loaded, hm ▸ h.root, fun q hq => ?_, fun v => ?_⟩
  · rcases hmem q hq with he | ⟨hq', he⟩
    · exact he ▸ h.memory p hp
    · exact he ▸ h.memory q hq'
  · rw [hm]
    exact h.phys v

theorem Spaced.isrSave (h : Spaced dirs k) (g : Good k) (frame : Frame) :
    Spaced dirs (isrSave k frame) := by
  refine h.inherits (p := k.current) ((isrSave_spaces k frame).inherits fun q hq => ?_) ?_
  · rwa [SpKernel.isrSave, setPcb_state _ k.current rfl q] at hq
  · rw [g.running]
    nofun

theorem Spaced.isrRestore (h : Spaced dirs k) : Spaced dirs (isrRestore k) :=
  ⟨h.spaces.load .., h.root, h.memory, h.phys⟩

theorem Spaced.current (h : Spaced dirs k) (g : Good k) : (k.pcbs k.current).memory ∈ dirs :=
  h.memory _ (by rw [g.running]; nofun)

/-- Nothing is created by an event that is not an `exec`. -/
theorem not_creates {frame : Frame} {keys : List Byte} {d : Word} (he : frame.regs.eax ≠ 4) :
    ¬Creates k (.interrupt frame (.syscall keys)) d := by
  rintro ⟨frame', keys', mm', hev, heax, -⟩
  cases hev
  exact he heax

theorem Spaced.exec (h : Spaced dirs k) (hex : sysExec k p = .ok k') :
    ∃ dirs', Spaced dirs' k' ∧ (∀ d ∈ dirs, d ∈ dirs')
      ∧ ∀ d mm', k.arg p 3 ≠ 0 → newPageDirectory k.mm = .ok (d, mm') → d ∈ dirs' := by
  obtain ⟨d, mm', hspace, hmm, -, hpcbs⟩ := sysExec_spaces hex
  rw [execSpace] at hspace
  split at hspace
  · rename_i hprio
    obtain ⟨rfl, rfl⟩ := Prod.mk.inj (Except.ok.inj hspace)
    refine ⟨dirs, ⟨?_, ?_, fun q hq => ?_, fun v => ?_⟩, fun _ hd => hd,
      fun _ _ hc => absurd hprio hc⟩
    · rw [hmm]
      exact h.spaces.load _ _
    · rw [hmm]
      exact h.root
    · rw [(hpcbs q).1]
      split
      · exact h.root
      · rw [(hpcbs q).2] at hq
        exact h.memory q hq
    · rw [hmm]
      exact h.phys v
  · have hn := newPageDirectory_spec h.spaces.cursor hspace
    have hroot : mm'.pageDirectory = k.mm.pageDirectory := hn.grown.pageDirectory
    refine ⟨d :: dirs, ⟨?_, ?_, fun q hq => ?_, fun v => ?_⟩,
      fun _ hd => List.mem_cons_of_mem _ hd, fun d' _ _ hnew => ?_⟩
    · rw [hmm]
      exact (hn.spaces h.spaces).load _ _
    · rw [hmm]
      exact List.mem_cons_of_mem _ (hroot ▸ h.root)
    · rw [(hpcbs q).1]
      split
      · exact List.mem_cons_self ..
      · rw [(hpcbs q).2] at hq
        exact List.mem_cons_of_mem _ (h.memory q hq)
    · rw [hmm]
      change getPhysAddress mm' mm'.pageDirectory v = base v
      rw [hroot, hn.phys_old h.spaces h.root, h.phys]
    · rw [hspace] at hnew
      obtain ⟨rfl, -⟩ := Prod.mk.inj (Except.ok.inj hnew)
      exact List.mem_cons_self ..

theorem Spaced.mmap (h : Spaced dirs k) (hp : (k.pcbs p).state ≠ .free)
    (hmap : sysMmap k p = .ok k')
    (hw : PageAligned (k.arg p 1) → PageAligned (k.arg p 2) → k.arg p 2 ≠ 0 →
      ¬GoesAround (k.arg p 1) (k.arg p 2) (k.arg p 3)) : Spaced dirs k' := by
  obtain ⟨r, st, mm', hk, hmm, hpcbs⟩ := sysMmap_spaces hmap
  have hd := h.memory p hp
  obtain ⟨hg, hs⟩ := kMmap_spaces h.spaces hd hk
  have hkeep := kMmap_keeps h.spaces hd h.root hk hw
  refine ⟨hmm ▸ hs, hmm ▸ hg.pageDirectory ▸ h.root, fun q hq => ?_, fun v => ?_⟩
  · rw [(hpcbs q).2] at hq
    exact (hpcbs q).1 ▸ h.memory q hq
  · rw [hmm, hg.pageDirectory, hkeep, h.phys]

theorem clock_inherits {frame : Frame} (g : Good k)
    (h : step k (.interrupt frame .clock) = .ok k') : Inherits p k k' := by
  have hsim := step_sim g (.interrupt frame .clock)
  rw [h] at hsim
  obtain ⟨-, a, ha, -, hf⟩ := hsim
  have hfam : k'.family = k.family := by
    cases ha with
    | quiet => exact hf
  obtain ⟨k₁, hclk, hk⟩ := bind_eq_ok.mp h
  obtain rfl := Except.ok.inj hk
  have hsame := ((isrSave_spaces k frame).trans (clkIsr_spaces hclk)).trans (isrRestore_spaces k₁)
  refine hsame.inherits fun q hq hc => hq (mode_eq_free.mp ?_)
  have hmode := congrArg (fun f => (f.members q).mode) hfam
  exact hmode.trans (mode_eq_free.mpr hc)

theorem Spaced.step (h : Spaced dirs k) (g : Good k) (he : MapCall e) (hw : ¬Wraps e)
    (hstep : step k e = .ok k') :
    ∃ dirs', Spaced dirs' k' ∧ (∀ d ∈ dirs, d ∈ dirs') ∧ ∀ d, Creates k e d → d ∈ dirs' := by
  have hcur : ∀ frame, ((SpKernel.isrSave k frame).pcbs k.current).state ≠ .free := by
    intro frame hc
    exact absurd ((g.isrSave frame).running.symm.trans hc) (by decide)
  cases he with
  | @fork frame keys heax =>
      rw [step_syscall k heax rfl] at hstep
      obtain ⟨k₁, hfork, hk⟩ := bind_eq_ok.mp hstep
      obtain rfl := Except.ok.inj hk
      have h₁ := (h.isrSave g frame).inherits (sysFork_inherits hfork) (hcur frame)
      exact ⟨dirs, h₁.isrRestore, fun _ hd => hd,
        fun d hd => absurd hd (not_creates (by rw [heax]; decide))⟩
  | @exec frame keys heax =>
      rw [step_syscall k heax rfl] at hstep
      obtain ⟨k₁, hexec, hk⟩ := bind_eq_ok.mp hstep
      obtain rfl := Except.ok.inj hk
      obtain ⟨dirs', h₁, hsub, hnew⟩ := (h.isrSave g frame).exec hexec
      refine ⟨dirs', h₁.isrRestore, hsub, ?_⟩
      rintro d ⟨frame', keys', mm', hev, -, hprio, hd⟩
      cases hev
      exact hnew d mm' (by rwa [isrSave_arg]) hd
  | @mmap frame keys heax =>
      rw [step_syscall k heax rfl] at hstep
      obtain ⟨k₁, hmap, hk⟩ := bind_eq_ok.mp hstep
      obtain rfl := Except.ok.inj hk
      have h₁ := (h.isrSave g frame).mmap (hcur frame) hmap (by
        simp only [isrSave_arg]
        exact fun h1 h2 h3 h4 => hw (.mmap heax h1 h2 h3 h4))
      exact ⟨dirs, h₁.isrRestore, fun _ hd => hd,
        fun d hd => absurd hd (not_creates (by rw [heax]; decide))⟩
  | @clock frame =>
      have hc : (k.pcbs k.current).state ≠ .free := by
        rw [g.running]
        nofun
      refine ⟨dirs, h.inherits (clock_inherits g hstep) hc, fun _ hd => hd, ?_⟩
      rintro d ⟨frame', keys', mm', hev, -⟩
      cases hev

variable {image : Image} {mm : MemMgr} {pages : Nat} {k₀ : Kernel} {tr : List (Kernel × Event)}

theorem foldl_mm {α : Type} {f : Kernel → α → Kernel} (hf : ∀ k a, (f k a).mm = k.mm) :
    ∀ (l : List α) (k : Kernel), (l.foldl f k).mm = k.mm
  | [], _ => rfl
  | a :: l, k => by rw [List.foldl_cons, foldl_mm hf l, hf]

theorem stkInit_mm (k : Kernel) : (stkInit k).mm = k.mm :=
  foldl_mm (f := fun k s => stkDealloc k (some s)) (fun _ _ => rfl) (List.finRange nStacks) k

theorem pcbInit_mm (k : Kernel) : (pcbInit k).mm = k.mm := by
  have h := foldl_mm (f := pcbDealloc) (fun _ _ => rfl) (List.finRange nPcbs) k
  rw [pcbInit]
  generalize (List.finRange nPcbs).foldl pcbDealloc k = k₁ at h ⊢
  exact h

theorem initProcess_spaces (h : initProcess k = .ok k') :
    (∃ last loaded, k'.mm = { k.mm with lastPde := last, cr3 := loaded })
      ∧ (k'.pcbs k'.initPcb).memory = k.mm.pageDirectory := by
  obtain ⟨⟨pcb, k₁⟩, hpcb, h⟩ := bind_eq_ok.mp h
  cases pcb with
  | none => cases h
  | some p =>
      obtain ⟨⟨stk, k₂⟩, hstk, h⟩ := bind_eq_ok.mp h
      cases stk with
      | none => cases h
      | some stk =>
          obtain ⟨k₃, hsched, h⟩ := bind_eq_ok.mp h
          obtain ⟨k₄, hdisp, h⟩ := bind_eq_ok.mp h
          obtain rfl := Except.ok.inj h
          obtain ⟨l, c, hm⟩ := ((pcbAlloc_spaces hpcb).1.trans (stkAlloc_spaces hstk).1).tables
          have h₄ := ((schedule_spaces hsched).trans (dispatch_spaces hdisp)).trans
            (isrRestore_spaces k₄)
          obtain ⟨l', c', hm'⟩ := h₄.tables
          refine ⟨⟨l', c', hm'.trans ?_⟩, ?_⟩
          · change { k₂.mm with lastPde := l', cr3 := c' } = _
            rw [hm]
          · rw [h₄.memory, h₄.initPcb]
            dsimp only
            rw [setPcb_self, hm]

theorem init_spaces (h0 : init image mm pages = .ok k₀) :
    ∃ mm', initMemory mm pages = .ok mm'
      ∧ (∃ last loaded, k₀.mm = { mm' with lastPde := last, cr3 := loaded })
      ∧ (k₀.pcbs k₀.initPcb).memory = mm'.pageDirectory := by
  obtain ⟨mm', hmem, h⟩ := bind_eq_ok.mp h0
  have hmm : (stkInit (pcbInit (Kernel.zero image mm'))).mm = mm' :=
    (stkInit_mm _).trans (pcbInit_mm _)
  generalize stkInit (pcbInit (Kernel.zero image mm')) = k₁ at h hmm
  refine ⟨mm', hmem, ?_⟩
  rw [← hmm]
  exact initProcess_spaces h

/-- After initialisation there is one address space, the identity
mapping, and one process. -/
theorem init_spaced (hlast : mm.lastAvailible < patSize) (hzero : Marked mm 0)
    (h0 : init image mm pages = .ok k₀) : ∃ dirs, Spaced dirs k₀ := by
  obtain ⟨mm', hmem, ⟨last, loaded, hm⟩, hroot⟩ := init_spaces h0
  have hid := initMemory_spec hlast hzero hmem
  obtain ⟨-, p, stk, rest, hf⟩ := init_spec h0
  refine ⟨[mm'.pageDirectory], hm ▸ hid.spaces.load last loaded, ?_, fun q hq => ?_, ?_⟩
  · rw [hm]
    exact List.mem_singleton.mpr rfl
  · have hmode : (k₀.family.members q).mode ≠ .free := fun hc => hq (mode_eq_free.mp hc)
    rw [hf] at hmode
    have hinit : k₀.initPcb = p := congrArg Family.init hf
    rw [Family.first_only hmode, ← hinit, hroot]
    exact List.mem_singleton.mpr rfl
  · rw [hm]
    exact hid.phys

/-- Pages can be taken: `I n` holds as long as there are `n` of them, and
`E` allows the faults of an allocation. -/
structure Supply (I : Nat → MemMgr → Prop) (E : Fault → Prop) : Prop where
  take : ∀ {n mm}, I (n + 1) mm → Holds (getNextPage mm) (fun x => I n x.2) E
  keep : ∀ {n mm}, I (n + 1) mm → I n mm
  setMem : ∀ {n mm} m, I n mm → I n { mm with mem := m }

section Loops

variable {I : Nat → MemMgr → Prop} {E : Fault → Prop} {done : Word}

theorem Supply.dEntry (hI : Supply I E) {mm : MemMgr} {n : Nat} (hs : I (n + 1) mm) (d v : Word) :
    Holds (dEntry mm d v) (fun x => I n x.2) E := by
  simp only [SpKernel.dEntry]
  split
  · exact (hI.take hs).bind fun x hx => hI.setMem _ hx
  · exact hI.keep hs

theorem Supply.mapPlain (hI : Supply I E) (d : Word) (hdone : done.toNat ≤ 0xFFFFF000) :
    ∀ (n fuel : Nat) (mm : MemMgr) (p v : Word), pagesUpTo p done ≤ n → n < fuel →
      PageAligned p → I n mm → Holds (mapPlain d done fuel mm p v) (fun _ => True) E
  | _, 0, _, _, _, _, hfuel, _, _ => absurd hfuel (Nat.not_lt_zero _)
  | n, fuel + 1, mm, p, v, hn, hfuel, hp, hs => by
      rw [SpKernel.mapPlain]
      split
      · rename_i hlt
        obtain ⟨hnext, -, -⟩ := pagesUpTo_next hdone hp hlt
        obtain ⟨n, rfl⟩ : ∃ m, n = m + 1 := ⟨n - 1, by omega⟩
        refine (hI.dEntry hs d v).bind fun x hx => ?_
        exact hI.mapPlain d hdone n fuel _ _ _ (by omega) (by omega) (aligned_next hp)
          (hI.setMem _ hx)
      · trivial

/-- Here a round takes a page for a table, and always one to map. -/
theorem Supply.mapFree (hI : Supply I E) (d : Word) (hdone : done.toNat ≤ 0xFFFFF000) :
    ∀ (n fuel : Nat) (mm : MemMgr) (v : Word), pagesUpTo v done ≤ n → n < fuel →
      PageAligned v → I (2 * n) mm → Holds (mapFree d done fuel mm v) (fun _ => True) E
  | _, 0, _, _, _, hfuel, _, _ => absurd hfuel (Nat.not_lt_zero _)
  | n, fuel + 1, mm, v, hn, hfuel, hv, hs => by
      rw [SpKernel.mapFree]
      split
      · rename_i hlt
        obtain ⟨hnext, -, -⟩ := pagesUpTo_next hdone hv hlt
        obtain ⟨n, rfl⟩ : ∃ m, n = m + 1 := ⟨n - 1, by omega⟩
        rw [Nat.mul_add] at hs
        refine (hI.dEntry hs d v).bind fun x hx => ?_
        refine (hI.take hx).bind fun y hy => ?_
        exact hI.mapFree d hdone n fuel _ _ (by omega) (by omega) (aligned_next hv)
          (hI.setMem _ hy)
      · trivial

end Loops

/-! ## A process that maps around the top -/

section Steps

variable {frame : Frame} {keys : List Byte} {n : Nat}

theorem exec_ok (hs : Spare k.mm (n + 1)) (hroot : Marked k.mm k.mm.pageDirectory)
    (heax : frame.regs.eax = 4) (hprio : frame.args 3 ≠ 0) :
    ∃ k', step k (.interrupt frame (.syscall keys)) = .ok k' ∧ Spare k'.mm n
      ∧ (k'.pcbs k'.current).memory ≠ k'.mm.pageDirectory := by
  have hs' : Spare (isrSave k frame).mm (n + 1) := hs.mono hs.1 fun _ hi => hi
  obtain ⟨d, mm₁, hget, ht, h₁⟩ := hs'.take
  obtain ⟨mm₂, hspace, hpat, hdir⟩ : ∃ mm₂,
      execSpace (isrSave k frame).mm ((isrSave k frame).arg k.current 3) = .ok (d, mm₂)
        ∧ Spare mm₂ n ∧ mm₂.pageDirectory = k.mm.pageDirectory := by
    rw [isrSave_arg, execSpace, if_neg hprio, newPageDirectory, hget]
    exact ⟨_, rfl, h₁.mono h₁.1 fun _ hi => hi, ht.pageDirectory⟩
  obtain ⟨k₁, hk₁⟩ : ∃ k₁, sysExec (isrSave k frame) k.current = .ok k₁ :=
    ⟨_, bind_eq_ok.mpr ⟨(d, mm₂), hspace, rfl⟩⟩
  obtain ⟨d', mm', hspace', hmm, hcur, hpcbs⟩ := sysExec_spaces hk₁
  rw [hspace] at hspace'
  obtain ⟨rfl, rfl⟩ := Prod.mk.inj (Except.ok.inj hspace')
  refine ⟨isrRestore k₁, ?_, ?_, ?_⟩
  · have hstep : step k (.interrupt frame (.syscall keys)) = (do
        let k' ← sysExec (isrSave k frame) k.current
        .ok (isrRestore k')) := step_syscall k heax rfl
    rw [hstep, hk₁]
    rfl
  · have hsp : Spare k₁.mm n := hmm ▸ hpat.mono hpat.1 fun _ hi => hi
    exact hsp.mono hsp.1 fun _ hi => hi
  · change (k₁.pcbs k₁.current).memory ≠ k₁.mm.pageDirectory
    rw [hcur, (hpcbs _).1, isrSave_current, if_pos rfl, hmm, setReturnPde, hdir]
    exact ht.ne hroot

end Steps

theorem init_spare {k₀ : Kernel} (h0 : init someImage lowPageUsed 0 = .ok k₀) :
    Spare k₀.mm 8 := by
  obtain ⟨mm', hmem, ⟨last, loaded, hm⟩, -⟩ := init_spaces h0
  obtain ⟨hstart, hspare⟩ := startMemory_ok
  rw [Except.ok.inj (hstart.symm.trans hmem)] at hspare
  rw [hm]
  exact hspare.mono hspare.1 fun _ hi => hi

theorem exec_run : ∃ k₀ k₁, init someImage lowPageUsed 0 = .ok k₀
    ∧ step k₀ (call 4 0x20000 0 1) = .ok k₁ ∧ Spare k₁.mm 7
    ∧ (k₁.pcbs k₁.current).memory ≠ k₁.mm.pageDirectory := by
  obtain ⟨k₀, h0, -⟩ := init_of_test (fun _ => true) (by decide +kernel)
  obtain ⟨dirs, hsp⟩ := init_spaced (by decide) (by decide) h0
  obtain ⟨k₁, h₁⟩ : ∃ k₁, step k₀ (call 4 0x20000 0 1) = .ok k₁ ∧ Spare k₁.mm 7
      ∧ (k₁.pcbs k₁.current).memory ≠ k₁.mm.pageDirectory :=
    exec_ok (init_spare h0) (hsp.spaces.marked _ hsp.root) rfl (by decide)
  exact ⟨k₀, k₁, h0, h₁⟩

end SpKernel
