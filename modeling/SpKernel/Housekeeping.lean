import SpKernel.Mapping
import SpKernel.SerialOutput

/-!
# What every handler leaves alone

No handler loads CR3, and only two of the things a handler does have to
do with waiting for input: `_sys_read` may put its caller on `_reading`,
and a received character may be stored. `Housekeeping` is what all the
rest has in common, with one lemma for each function of the kernel: the
register and the identity map stay, the input side of the serial line and
the console stay, the queue of the readers gets nobody who was not on it,
and the kernel is as well prepared for the way back as it was.

`last_pde` is the directory that is loaded on the way back; a handler
that found it to be the one of `_current` leaves it so, whichever process
is current in the end. This is `Synced`, and `Switching` is the part of
`Housekeeping` that `read` and the serial interrupt keep as well.
`dispatch_keeps` is where the directory changes hands, and
`sysExec_keeps` where a process gets another one.

`Loaded` is the invariant of the states between two events: the directory
in the register is that of the process that runs. `directory_switched`
says it of every state of every run, through every path that a handler
can take. `SerialInput` and `Reading` use the other half, that only a
`read` blocks its caller on the input.
-/

namespace SpKernel

open Function (update update_self update_of_ne)
open Lib

/-- The way back leads into the address space of the current process. -/
def Synced (k : Kernel) : Prop := k.mm.lastPde = (k.pcbs k.current).memory

/-- CR3 and the identity map stay, and the way back leads to the current
process. -/
structure Switching (k k' : Kernel) : Prop where
  cr3 : k'.mm.cr3 = k.mm.cr3
  directory : k'.mm.pageDirectory = k.mm.pageDirectory
  synced : Synced k → Synced k'

theorem Switching.trans {k₁ k₂ k₃ : Kernel} (h : Switching k₁ k₂) (h' : Switching k₂ k₃) :
    Switching k₁ k₃ :=
  ⟨h'.cr3.trans h.cr3, h'.directory.trans h.directory, fun hs => h'.synced (h.synced hs)⟩

/-- The input side of the serial line. -/
def Sio.input (s : Sio) : (Nat → Byte) × Nat × Nat × Nat :=
  (s.inbuffer, s.inlast, s.innext, s.incount)

/-- Moreover the input stays as it is and nobody comes to wait for it. -/
structure Housekeeping (k k' : Kernel) : Prop extends Switching k k' where
  input : k'.sio.input = k.sio.input
  readers : k'.on .reading ⊆ k.on .reading
  console : k'.console = k.console

variable {k k' : Kernel} {p : PcbId} {q : PQueue}

namespace Housekeeping

theorem refl (k : Kernel) : Housekeeping k k :=
  ⟨⟨rfl, rfl, id⟩, rfl, List.Subset.refl _, rfl⟩

theorem trans {k₁ k₂ k₃ : Kernel} (h : Housekeeping k₁ k₂) (h' : Housekeeping k₂ k₃) :
    Housekeeping k₁ k₃ :=
  ⟨h.toSwitching.trans h'.toSwitching, h'.input.trans h.input,
    List.Subset.trans h'.readers h.readers, h'.console.trans h.console⟩

theorem setPcb (h : Housekeeping k k') (p : PcbId) {f : Pcb → Pcb}
    (hf : (f (k'.pcbs p)).memory = (k'.pcbs p).memory) : Housekeeping k (k'.setPcb p f) := by
  refine ⟨⟨h.cr3, h.directory, fun hs => (h.synced hs).trans ?_⟩, h.input, h.readers, h.console⟩
  rcases eq_or_ne k'.current p with rfl | hp
  · exact (hf.symm.trans (congrArg Pcb.memory (setPcb_self ..).symm))
  · exact congrArg Pcb.memory (setPcb_other _ _ hp).symm

theorem setRet (h : Housekeeping k k') (p : PcbId) (v : Word) : Housekeeping k (k'.setRet p v) :=
  h.setPcb p rfl

theorem queues (h : Housekeeping k k') {Q : QPool QueueId Entry}
    (hQ : Q.items (.pcbs .reading) ⊆ k'.on .reading) : Housekeeping k { k' with queues := Q } :=
  ⟨⟨h.cr3, h.directory, h.synced⟩, h.input, List.Subset.trans hQ h.readers, h.console⟩

end Housekeeping

/-! ## Queues -/

section Queues

variable (Q : QPool QueueId Entry)

theorem items_update_sub {l : List PcbId} (n : Nat)
    (hl : q = .reading → l ⊆ Q.items (.pcbs .reading)) :
    (⟨n, update Q.items (.pcbs q) l⟩ : QPool QueueId Entry).items (.pcbs .reading)
      ⊆ Q.items (.pcbs .reading) := by
  rcases eq_or_ne q .reading with rfl | hq
  · simp only [update_self]
    exact hl rfl
  · simp only [update_of_ne fun hc => hq (QueueId.pcbs.inj hc).symm]
    exact List.Subset.refl _

theorem enque_readers (ord : Option (PcbId → PcbId → Int)) (p : PcbId) (hq : q ≠ .reading) :
    (Q.enque (.pcbs q) ord p).2.items (.pcbs .reading) ⊆ Q.items (.pcbs .reading) := by
  simp only [QPool.enque]
  split
  · exact List.Subset.refl _
  · exact items_update_sub Q _ fun hc => absurd hc hq

theorem deque_readers (q : PQueue) :
    (Q.deque (.pcbs q)).2.2.items (.pcbs .reading) ⊆ Q.items (.pcbs .reading) := by
  simp only [QPool.deque]
  split
  · exact List.Subset.refl _
  · rename_i d l hl
    refine items_update_sub Q _ fun hc => ?_
    subst hc
    rw [hl]
    exact List.subset_cons_self ..

theorem remove_readers (q : PQueue) (p : PcbId) :
    (Q.remove (.pcbs q) p).2.items (.pcbs .reading) ⊆ Q.items (.pcbs .reading) := by
  simp only [QPool.remove]
  split
  · refine items_update_sub Q _ fun hc => ?_
    subst hc
    exact List.erase_subset
  · exact List.Subset.refl _

end Queues

theorem enque_keeps {st : Status} (h : k.enque q p = (st, k')) (hq : q ≠ .reading) :
    Housekeeping k k' := by
  rw [← show _ = k' from congrArg Prod.snd h]
  exact (Housekeeping.refl k).queues (enque_readers _ _ p hq)

theorem deque_keeps {st : Status} {x : Option PcbId} (h : k.deque q = (st, x, k')) :
    Housekeeping k k' := by
  rw [← show _ = k' from congrArg (fun x => x.2.2) h]
  exact (Housekeeping.refl k).queues (deque_readers _ q)

theorem remove_keeps {st : Status} (h : k.remove q p = (st, k')) : Housekeeping k k' := by
  rw [← show _ = k' from congrArg Prod.snd h]
  exact (Housekeeping.refl k).queues (remove_readers _ q p)

theorem schedule_keeps (h : schedule k p = .ok k') : Housekeeping k k' := by
  obtain ⟨prio, he⟩ := schedule_enque h
  exact ((Housekeeping.refl k).setPcb p rfl).trans (enque_keeps he fun hc => by cases hc)

/-- `_dispatch` leads to the new process, whatever was planned before. -/
theorem dispatch_keeps (h : dispatch k = .ok k') : Housekeeping k k' ∧ Synced k' := by
  obtain ⟨prio, p, k₁, -, he, rfl⟩ := dispatch_deque h
  have hk := deque_keeps he
  exact ⟨⟨⟨hk.cr3, hk.directory, fun _ => rfl⟩, hk.input, hk.readers, hk.console⟩, rfl⟩

/-! ## Stacks and PCBs -/

theorem freeStacks_readers {Q Q' : QPool QueueId Entry} {l : List StackId}
    (h : Q'.items = update Q.items .freeStacks l) :
    Q'.items (.pcbs .reading) = Q.items (.pcbs .reading) := by
  rw [h, update_of_ne fun hc => by cases hc]

theorem stkDealloc_keeps (k : Kernel) (stack : Option StackId) :
    Housekeeping k (stkDealloc k stack) := by
  cases stack with
  | none => exact .refl k
  | some s =>
      refine (Housekeeping.refl k).queues (Q := (k.queues.enque .freeStacks none s).2) ?_
      simp only [QPool.enque]
      split
      · exact List.Subset.refl _
      · rw [freeStacks_readers rfl]
        exact List.Subset.refl _

theorem stkAlloc_keeps {x : Option StackId} (h : stkAlloc k = .ok (x, k')) :
    Housekeeping k k' ∧ k'.current = k.current := by
  rcases stkAlloc_cases h with ⟨-, rfl⟩ | ⟨s, l, -, -, rfl⟩
  · exact ⟨.refl k', rfl⟩
  · refine ⟨(Housekeeping.refl k).queues ?_, rfl⟩
    rw [freeStacks_readers rfl]
    exact List.Subset.refl _

theorem pcbDealloc_keeps (k : Kernel) (p : PcbId) : Housekeeping k (pcbDealloc k p) :=
  ((Housekeeping.refl k).setPcb p (f := Pcb.makeFree) rfl).trans
    (enque_keeps (Prod.mk.eta (p := Kernel.enque ..)).symm fun hc => by cases hc)

theorem pcbCleanup_keeps (k : Kernel) (p : PcbId) : Housekeeping k (pcbCleanup k p) :=
  (stkDealloc_keeps k _).trans (pcbDealloc_keeps _ p)

theorem pcbAlloc_keeps {x : Option PcbId} (h : pcbAlloc k = .ok (x, k')) :
    Housekeeping k k' ∧ k'.current = k.current := by
  rcases pcbAlloc_cases h with ⟨-, rfl⟩ | ⟨p, k₁, -, he, rfl⟩
  · exact ⟨.refl k', rfl⟩
  · refine ⟨(deque_keeps he).setPcb _ rfl, ?_⟩
    obtain ⟨n, l, -, rfl⟩ := deque_eq he
    rfl

/-! ## The end of a process -/

theorem pcbFindChildOf_keeps {ppid : Word} {x : Option PcbId}
    (h : pcbFindChildOf k ppid = .ok (x, k')) : Housekeeping k k' := by
  obtain ⟨curr, tgt, rfl⟩ := pcbFindChildOf_same h
  exact ⟨⟨rfl, rfl, id⟩, rfl, List.Subset.refl _, rfl⟩

theorem adopt_keeps (k : Kernel) (whom : PcbId) : Housekeeping k (adopt k whom) := by
  rw [adopt]
  exact ((Housekeeping.refl k).setPcb whom rfl).setPcb _ rfl

theorem reparentLoop_keeps : ∀ (fuel : Nat) {k : Kernel} {whom : Option PcbId},
    reparentLoop fuel k whom = .ok k' → Housekeeping k k' := by
  intro fuel
  induction fuel with
  | zero =>
      intro k whom h
      cases whom with
      | none => exact Except.ok.inj h ▸ .refl k
      | some whom => cases h
  | succ fuel ih =>
      intro k whom h
      cases whom with
      | none => exact Except.ok.inj h ▸ .refl k
      | some whom =>
          obtain ⟨⟨next, k₁⟩, hk₁, h⟩ := bind_eq_ok.mp h
          exact ((adopt_keeps k whom).trans (pcbFindChildOf_keeps hk₁)).trans (ih h)

theorem reparent_keeps (h : reparent k p = .ok k') : Housekeeping k k' := by
  rw [reparent] at h
  split at h
  · obtain ⟨⟨whom, k₁⟩, hk₁, h⟩ := bind_eq_ok.mp h
    obtain ⟨k₂, hk₂, h⟩ := bind_eq_ok.mp h
    rw [← Except.ok.inj h]
    exact ((pcbFindChildOf_keeps hk₁).trans (reparentLoop_keeps _ hk₂)).setPcb p rfl
  · exact Except.ok.inj h ▸ .refl k

theorem deliver_keeps (k : Kernel) (parent child : PcbId) :
    Housekeeping k (deliver k parent child) := by
  have h := (Housekeeping.refl k).setRet parent Status.success.word
  exact ⟨⟨h.cr3, h.directory, h.synced⟩, h.input, h.readers, h.console⟩

theorem lay_keeps (h : lay k p = .ok k') : Housekeeping k k' := by
  obtain ⟨q, ⟨-, k₁, he, hs⟩ | ⟨-, he⟩⟩ := lay_cases h
  · exact (((remove_keeps he).trans (deliver_keeps ..)).trans (pcbCleanup_keeps ..)).trans
      (schedule_keeps hs)
  · exact enque_keeps he fun hc => by cases hc

theorem zombify_keeps (h : zombify k p = .ok k') : Housekeeping k k' := by
  obtain ⟨k₁, hk₁, h⟩ := bind_eq_ok.mp h
  exact (reparent_keeps hk₁).trans (lay_keeps h)

/-! ## The serial line -/

theorem sioPut_input (s : Sio) (ch : Byte) : (sioPut s ch).input = s.input := by
  rw [sioPut]
  split
  · rfl
  · obtain ⟨ier, reg, he⟩ := sioEnable_rest { s with sending := true, txd := s.txd ++ [ch] } sioTx
    rw [he]
    rfl

theorem sioWritec_input (s : Sio) (ch : Byte) : (sioWritec s ch).input = s.input := by
  rw [sioWritec]
  split
  · rw [sioPut_input, sioPut_input]
  · exact sioPut_input s ch

theorem sioWrites_input (s : Sio) (m : Mem) (buffer : Word) (length : Int) :
    (sioWrites s m buffer length).2.input = s.input := by
  have hloop : ∀ ptr copied,
      (sioWritesLoop m length bufSize s ptr copied).1.input = s.input := by
    intro ptr copied
    obtain ⟨_, _, _, he⟩ := sioWritesLoop_rest m length bufSize s ptr copied
    rw [he]
    rfl
  simp only [sioWrites]
  split
  · exact hloop ..
  · rw [sioWritec_input]
    exact hloop ..

theorem sioTransmit_input (s : Sio) : (sioTransmit s).input = s.input := by
  rw [sioTransmit]
  split
  · rfl
  · obtain ⟨ier, reg, he⟩ := sioDisable_rest
      { s with outcount := 0, outlast := 0, outnext := 0, sending := false } sioTx
    rw [he]
    rfl

/-! ## System calls -/

theorem sysExit_keeps (h : sysExit k p = .ok k') : Housekeeping k k' := by
  obtain ⟨k₁, hk₁, h⟩ := bind_eq_ok.mp h
  exact (((Housekeeping.refl k).setPcb p rfl).trans (zombify_keeps hk₁)).trans
    (dispatch_keeps h).1

theorem sysWrite_keeps (h : sysWrite k p = .ok k') : Housekeeping k k' := by
  simp only [sysWrite] at h
  split at h
  · exact Except.ok.inj h ▸ (Housekeeping.refl k).setRet p _
  · split at h
    · rw [← Except.ok.inj h]
      refine Housekeeping.setRet ?_ p _
      exact ⟨⟨rfl, rfl, id⟩, sioWrites_input .., List.Subset.refl _, rfl⟩
    · exact Except.ok.inj h ▸ (Housekeeping.refl k).setRet p _

theorem sysSleep_keeps (h : sysSleep k p = .ok k') : Housekeeping k k' := by
  simp only [sysSleep] at h
  split at h
  · obtain ⟨k₁, hk₁, h⟩ := bind_eq_ok.mp h
    exact (schedule_keeps hk₁).trans (dispatch_keeps h).1
  · split at h
    · rename_i he
      have hq := enque_keeps he fun hc => by cases hc
      rw [ok_bind] at h
      exact (((Housekeeping.refl k).setPcb p rfl).trans hq).trans (dispatch_keeps h).1
    · cases h

theorem finishKill_keeps {victim : PcbId} (h : finishKill k p victim = .ok k') :
    Housekeeping k k' := by
  obtain ⟨k₁, hk₁, h⟩ := bind_eq_ok.mp h
  have h₁ := (((Housekeeping.refl k).setPcb victim rfl).setRet p _).trans (zombify_keeps hk₁)
  split at h
  · exact h₁.trans (dispatch_keeps h).1
  · exact Except.ok.inj h ▸ h₁

theorem killFrom_keeps {victim : PcbId} (h : killFrom k p victim q = .ok k') :
    Housekeeping k k' := by
  rw [killFrom] at h
  split at h
  · rename_i he
    exact (remove_keeps he).trans (finishKill_keeps h)
  · cases h

theorem sysKill_keeps (h : sysKill k p = .ok k') : Housekeeping k k' := by
  rcases sysKill_cases k p with ⟨v, hk⟩ | ⟨victim, -, ⟨q, -, -, hk⟩ | ⟨-, hk⟩ | ⟨-, hk⟩⟩
  · exact Except.ok.inj (hk.symm.trans h) ▸ (Housekeeping.refl k).setRet p v
  · exact killFrom_keeps (hk ▸ h)
  · exact finishKill_keeps (hk ▸ h)
  · cases hk.symm.trans h

theorem zombieLoop_keeps : ∀ (fuel : Nat) {k : Kernel} {child x : Option PcbId},
    zombieLoop fuel k child = .ok (x, k') → Housekeeping k k' := by
  intro fuel
  induction fuel with
  | zero =>
      intro k child x h
      cases child with
      | none => exact (Prod.mk.inj (Except.ok.inj h)).2 ▸ .refl k
      | some child => cases h
  | succ fuel ih =>
      intro k child x h
      cases child with
      | none => exact (Prod.mk.inj (Except.ok.inj h)).2 ▸ .refl k
      | some child =>
          rw [zombieLoop] at h
          split at h
          · exact (Prod.mk.inj (Except.ok.inj h)).2 ▸ .refl k
          · obtain ⟨⟨next, k₁⟩, hk₁, h⟩ := bind_eq_ok.mp h
            exact (pcbFindChildOf_keeps hk₁).trans (ih h)

theorem sysWait_keeps (h : sysWait k p = .ok k') : Housekeeping k k' := by
  rw [sysWait] at h
  split at h
  · exact Except.ok.inj h ▸ (Housekeeping.refl k).setRet p _
  · obtain ⟨⟨child, k₁⟩, hk₁, h⟩ := bind_eq_ok.mp h
    obtain ⟨⟨zombie, k₂⟩, hk₂, h⟩ := bind_eq_ok.mp h
    have h₂ := (pcbFindChildOf_keeps hk₁).trans (zombieLoop_keeps _ hk₂)
    dsimp only at h
    split at h
    · split at h
      · rename_i he
        rw [← Except.ok.inj h]
        exact (((h₂.trans (remove_keeps he)).setPcb p rfl).trans (deliver_keeps ..)).trans
          (pcbCleanup_keeps ..)
      · cases h
    · split at h
      · rename_i he
        exact ((h₂.setPcb p rfl).trans (enque_keeps he fun hc => by cases hc)).trans
          (dispatch_keeps h).1
      · cases h

theorem birth_keeps (k : Kernel) (new : PcbId) (stk : StackId) :
    Housekeeping k (birth k k.current new stk) := by
  refine ⟨⟨rfl, rfl, fun hs => Eq.trans hs ?_⟩, rfl, List.Subset.refl _, rfl⟩
  have := birth_memory k k.current new stk k.current
  rw [ite_self] at this
  exact this.symm

theorem sysFork_keeps (h : sysFork k k.current = .ok k') : Housekeeping k k' := by
  rw [sysFork] at h
  split at h
  · exact Except.ok.inj h ▸ (Housekeeping.refl k).setRet _ _
  · obtain ⟨⟨new, k₁⟩, hk₁, h⟩ := bind_eq_ok.mp h
    obtain ⟨h₁, hc₁⟩ := pcbAlloc_keeps hk₁
    cases new with
    | none => exact Except.ok.inj h ▸ h₁.setRet _ _
    | some new =>
        obtain ⟨⟨stk, k₂⟩, hk₂, h⟩ := bind_eq_ok.mp h
        obtain ⟨h₂, hc₂⟩ := stkAlloc_keeps hk₂
        have h₂ := h₁.trans h₂
        cases stk with
        | none => exact Except.ok.inj h ▸ (h₂.setRet _ _).trans (pcbDealloc_keeps ..)
        | some stk =>
            have h : schedule (birth k₂ k.current new stk) new = .ok k' := h
            rw [← hc₂.trans hc₁] at h
            exact (h₂.trans (birth_keeps ..)).trans (schedule_keeps h)

/-! ## Memory -/

/-- The registers of the switch and the identity map are as they were. -/
structure SameRegs (mm mm' : MemMgr) : Prop where
  cr3 : mm'.cr3 = mm.cr3
  directory : mm'.pageDirectory = mm.pageDirectory
  lastPde : mm'.lastPde = mm.lastPde

section Memory

variable {mm mm' : MemMgr} {a vspace done : Word}

theorem SameRegs.trans {mm₁ mm₂ mm₃ : MemMgr} (h : SameRegs mm₁ mm₂) (h' : SameRegs mm₂ mm₃) :
    SameRegs mm₁ mm₃ :=
  ⟨h'.cr3.trans h.cr3, h'.directory.trans h.directory, h'.lastPde.trans h.lastPde⟩

theorem searchPage_regs : ∀ (fuel index : Nat),
    searchPage mm fuel index = .ok (a, mm') → SameRegs mm mm' := by
  intro fuel
  induction fuel with
  | zero => exact fun _ h => by cases h
  | succ fuel ih =>
      intro index h
      simp only [searchPage] at h
      split at h
      · obtain ⟨-, rfl⟩ := Prod.mk.inj (Except.ok.inj h)
        exact ⟨rfl, rfl, rfl⟩
      · split at h
        · exact ih _ h
        · cases h

theorem getNextPage_regs (h : getNextPage mm = .ok (a, mm')) : SameRegs mm mm' :=
  searchPage_regs _ _ h

theorem dEntry_regs {v : Word} (h : dEntry mm vspace v = .ok (a, mm')) : SameRegs mm mm' := by
  simp only [dEntry] at h
  split at h
  · obtain ⟨⟨entry, mm₁⟩, hk, h⟩ := bind_eq_ok.mp h
    obtain ⟨-, rfl⟩ := Prod.mk.inj (Except.ok.inj h)
    obtain ⟨h1, h2, h3⟩ := getNextPage_regs hk
    exact ⟨h1, h2, h3⟩
  · obtain ⟨-, rfl⟩ := Prod.mk.inj (Except.ok.inj h)
    exact ⟨rfl, rfl, rfl⟩

theorem mapPlain_regs : ∀ (fuel : Nat) {mm : MemMgr} {p v : Word},
    mapPlain vspace done fuel mm p v = .ok mm' → SameRegs mm mm' := by
  intro fuel
  induction fuel with
  | zero => exact fun h => by cases h
  | succ fuel ih =>
      intro mm p v h
      rw [mapPlain] at h
      split at h
      · obtain ⟨⟨entry, mm₁⟩, hk, h⟩ := bind_eq_ok.mp h
        have h₁ : SameRegs mm₁ (setEntry mm₁ entry v p) := ⟨rfl, rfl, rfl⟩
        exact ((dEntry_regs hk).trans h₁).trans (ih h)
      · exact Except.ok.inj h ▸ ⟨rfl, rfl, rfl⟩

theorem mapFree_regs : ∀ (fuel : Nat) {mm : MemMgr} {v : Word},
    mapFree vspace done fuel mm v = .ok mm' → SameRegs mm mm' := by
  intro fuel
  induction fuel with
  | zero => exact fun h => by cases h
  | succ fuel ih =>
      intro mm v h
      rw [mapFree] at h
      split at h
      · obtain ⟨⟨entry, mm₁⟩, hk, h⟩ := bind_eq_ok.mp h
        obtain ⟨⟨p, mm₂⟩, hk₂, h⟩ := bind_eq_ok.mp h
        have h₂ : SameRegs mm₂ (setEntry mm₂ entry v p) := ⟨rfl, rfl, rfl⟩
        exact (((dEntry_regs hk).trans (getNextPage_regs hk₂)).trans h₂).trans (ih h)
      · exact Except.ok.inj h ▸ ⟨rfl, rfl, rfl⟩

theorem kMmap_regs {v p len r : Word} {st : Status}
    (h : kMmap mm vspace v p len = .ok (r, st, mm')) : SameRegs mm mm' := by
  rw [kMmap] at h
  split at h
  · cases h
  · split at h
    · obtain ⟨-, h⟩ := Prod.mk.inj (Except.ok.inj h)
      obtain ⟨-, rfl⟩ := Prod.mk.inj h
      exact ⟨rfl, rfl, rfl⟩
    · split at h
      · obtain ⟨mm₁, hk, h⟩ := bind_eq_ok.mp h
        obtain ⟨-, h⟩ := Prod.mk.inj (Except.ok.inj h)
        obtain ⟨-, rfl⟩ := Prod.mk.inj h
        exact mapPlain_regs _ hk
      · obtain ⟨mm₁, hk, h⟩ := bind_eq_ok.mp h
        obtain ⟨-, h⟩ := Prod.mk.inj (Except.ok.inj h)
        obtain ⟨-, rfl⟩ := Prod.mk.inj h
        exact mapFree_regs _ hk

theorem execSpace_regs {prio : Word} (h : execSpace mm prio = .ok (a, mm')) :
    SameRegs mm mm' := by
  rw [execSpace] at h
  split at h
  · obtain ⟨-, rfl⟩ := Prod.mk.inj (Except.ok.inj h)
    exact ⟨rfl, rfl, rfl⟩
  · obtain ⟨⟨pde, mm₁⟩, hk, h⟩ := bind_eq_ok.mp h
    obtain ⟨-, rfl⟩ := Prod.mk.inj (Except.ok.inj h)
    obtain ⟨h1, h2, h3⟩ := getNextPage_regs hk
    exact ⟨h1, h2, h3⟩

end Memory

theorem synced_setPcb {a : Word} (hc : k.current = p) (hl : k.mm.lastPde = a) :
    Synced (k.setPcb p fun x => { x with memory := a }) := by
  subst hc
  have := setPcb_self k k.current fun x => { x with memory := a }
  exact hl.trans (congrArg Pcb.memory this).symm

/-- `exec` changes the address space of its caller and the way back. -/
theorem sysExec_keeps (h : sysExec k k.current = .ok k') : Housekeeping k k' := by
  obtain ⟨⟨memory, mm⟩, hk, h⟩ := bind_eq_ok.mp h
  rw [← Except.ok.inj h]
  obtain ⟨h1, h2, -⟩ := execSpace_regs hk
  refine ⟨⟨h1, h2, fun _ => ?_⟩, rfl, List.Subset.refl _, rfl⟩
  exact synced_setPcb rfl rfl

theorem sysMmap_keeps (h : sysMmap k p = .ok k') : Housekeeping k k' := by
  obtain ⟨⟨r, st, mm⟩, hk, h⟩ := bind_eq_ok.mp h
  rw [← Except.ok.inj h]
  obtain ⟨h1, h2, h3⟩ := kMmap_regs hk
  have h₁ : Housekeeping k { k with mm := mm } :=
    ⟨⟨h1, h2, fun hs => h3.trans hs⟩, rfl, List.Subset.refl _, rfl⟩
  exact h₁.setRet p _

/-! ## Reading -/

theorem readDone_keeps {n : Nat} (hn : 0 < n) (h : readDone k p n = .ok k') :
    Housekeeping k k' := by
  rw [readDone, if_pos hn] at h
  exact Except.ok.inj h ▸ (Housekeeping.refl k).setRet p _

theorem readDone_switching {n : Nat} (h : readDone k p n = .ok k') : Switching k k' := by
  rw [readDone] at h
  split at h
  · exact Except.ok.inj h ▸ ((Housekeeping.refl k).setRet p _).toSwitching
  · split at h
    · rename_i k₁ he
      have hk : Switching k k₁ := by
        rw [← show _ = k₁ from congrArg Prod.snd he]
        exact ⟨rfl, rfl, id⟩
      have hd := dispatch_keeps h
      exact ⟨hd.1.cr3.trans hk.cr3, hd.1.directory.trans hk.directory, fun _ => hd.2⟩
    · rename_i k₁ _ he
      have hk : Switching k k₁ := by
        rw [← show _ = k₁ from congrArg Prod.snd he]
        exact ⟨rfl, rfl, id⟩
      rw [← Except.ok.inj h]
      exact hk.trans ((Housekeeping.refl k₁).setRet p _).toSwitching

theorem sysRead_switching {keys : List Byte} (h : sysRead keys k p = .ok k') :
    Switching k k' := by
  simp only [sysRead] at h
  split at h
  · split at h
    · exact Except.ok.inj h ▸ ((Housekeeping.refl k).setRet p _).toSwitching
    · obtain ⟨⟨n, c, m⟩, -, h⟩ := bind_eq_ok.mp h
      obtain ⟨h1, h2, h3⟩ := readDone_switching h
      exact ⟨h1, h2, h3⟩
  · split at h
    · obtain ⟨h1, h2, h3⟩ := readDone_switching h
      exact ⟨h1, h2, h3⟩
    · exact Except.ok.inj h ▸ ((Housekeeping.refl k).setRet p _).toSwitching

/-! ## Interrupts -/

theorem wakeLoop_keeps : ∀ (fuel : Nat) {k : Kernel}, wakeLoop fuel k = .ok k' →
    Housekeeping k k' := by
  intro fuel
  induction fuel with
  | zero => exact fun h => by cases h
  | succ fuel ih =>
      intro k h
      rcases wakeLoop_round h with rfl | ⟨p, k₁, k₂, he, hk₂, h⟩
      · exact .refl _
      · exact ((deque_keeps he).trans (schedule_keeps hk₂)).trans (ih h)

theorem clkIsr_keeps (h : clkIsr k = .ok k') : Housekeeping k k' := by
  obtain ⟨k₁, hk₁, h⟩ := bind_eq_ok.mp h
  obtain ⟨⟨h1, h2, h3⟩, h4, h5, h6⟩ := wakeLoop_keeps _ hk₁
  have h₁ : Housekeeping k k₁ := ⟨⟨h1, h2, h3⟩, h4, h5, h6⟩
  have h₂ := h₁.setPcb k₁.current (f := fun x => { x with qTicks := x.qTicks - 1 }) rfl
  dsimp only at h
  split at h
  · obtain ⟨k₂, hk₂, h⟩ := bind_eq_ok.mp h
    exact (h₂.trans (schedule_keeps hk₂)).trans (dispatch_keeps h).1
  · exact Except.ok.inj h ▸ h₂

theorem pageFaultIsr_keeps (h : pageFaultIsr k = .ok k') : Housekeeping k k' := by
  obtain ⟨k₁, hk₁, h⟩ := bind_eq_ok.mp h
  exact (((Housekeeping.refl k).setPcb k.current rfl).trans (zombify_keeps hk₁)).trans
    (dispatch_keeps h).1

/-- A received character goes to a reader, or into the buffer if there is
none. -/
theorem sioEvent_switching {e : SioEvent} (h : sioEvent k e = .ok k') : Switching k k' := by
  cases e with
  | lineStatus => exact Except.ok.inj h ▸ ⟨rfl, rfl, id⟩
  | rxTimeout ch => exact Except.ok.inj h ▸ ⟨rfl, rfl, id⟩
  | modemStatus => exact Except.ok.inj h ▸ ⟨rfl, rfl, id⟩
  | tx => exact Except.ok.inj h ▸ ⟨rfl, rfl, id⟩
  | unknown => cases h
  | rx ch =>
      simp only [sioEvent] at h
      split at h
      · split at h
        · rename_i he
          exact (((deque_keeps he).setRet _ _).trans (schedule_keeps h)).toSwitching
        · cases h
      · exact Except.ok.inj h ▸ ⟨rfl, rfl, id⟩

theorem sioIsr_switching : ∀ (pending : List SioEvent) {k : Kernel},
    sioIsr pending k = .ok k' → Switching k k' := by
  intro pending
  induction pending with
  | nil => exact fun h => Except.ok.inj h ▸ ⟨rfl, rfl, id⟩
  | cons e pending ih =>
      intro k h
      rw [sioIsr, List.foldlM_cons] at h
      obtain ⟨k₁, hk₁, h⟩ := bind_eq_ok.mp h
      exact (sioEvent_switching hk₁).trans (ih h)

theorem sysIsr_keeps {keys : List Byte} (hread : (k.pcbs k.current).context.regs.eax ≠ 1)
    (h : sysIsr keys k = .ok k') : Housekeeping k k' := by
  simp only [sysIsr] at h
  split at h
  · exact ((Housekeeping.refl k).setPcb k.current rfl).trans (sysExit_keeps h)
  · rename_i hcode
    have hlt : (k.pcbs k.current).context.regs.eax.toNat < 13 := Nat.lt_of_not_le hcode
    have hne : (k.pcbs k.current).context.regs.eax.toNat ≠ 1 := fun hc =>
      hread (BitVec.eq_of_toNat_eq hc)
    generalize (k.pcbs k.current).context.regs.eax.toNat = n at h hlt hne
    interval_cases n
    · exact sysExit_keeps h
    · exact absurd rfl hne
    · exact sysWrite_keeps h
    · exact sysFork_keeps h
    · exact sysExec_keeps h
    · exact sysKill_keeps h
    · exact sysWait_keeps h
    · exact sysSleep_keeps h
    · exact Except.ok.inj h ▸ (Housekeeping.refl k).setRet _ _
    · exact Except.ok.inj h ▸ (Housekeeping.refl k).setRet _ _
    · exact Except.ok.inj h ▸ (Housekeeping.refl k).setRet _ _
    · exact sysMmap_keeps h
    · cases h

theorem sysIsr_read {keys : List Byte} (hread : (k.pcbs k.current).context.regs.eax = 1) :
    sysIsr keys k = sysRead keys k k.current := by
  simp only [sysIsr, hread]
  rfl

theorem handle_switching {cause : Cause} (h : handle k cause = .ok k') : Switching k k' := by
  cases cause with
  | syscall keys =>
      by_cases hread : (k.pcbs k.current).context.regs.eax = 1
      · rw [handle, sysIsr_read hread] at h
        exact sysRead_switching h
      · exact (sysIsr_keeps hread h).toSwitching
  | clock => exact (clkIsr_keeps h).toSwitching
  | serial pending => exact sioIsr_switching pending h
  | keyboard code => exact Except.ok.inj h ▸ ⟨rfl, rfl, id⟩
  | pageFault => exact (pageFaultIsr_keeps h).toSwitching

/-! ## The directory that is loaded -/

/-- The running process runs in its own address space. -/
def Loaded (k : Kernel) : Prop := k.mm.cr3 = (k.pcbs k.current).memory

theorem Loaded.isrSave (h : Loaded k) (frame : Frame) : Synced (isrSave k frame) :=
  Eq.trans h ((isrSave_spaces k frame).memory k.current).symm

theorem Loaded.step {e : Event} (h : Loaded k) (hst : step k e = .ok k') : Loaded k' := by
  cases e with
  | store a b => exact Except.ok.inj hst ▸ h
  | interrupt frame cause =>
      obtain ⟨k₁, hk₁, hst⟩ := bind_eq_ok.mp hst
      exact Except.ok.inj hst ▸ (handle_switching hk₁).synced (h.isrSave frame)

theorem initProcess_loaded (h : initProcess k = .ok k') : Loaded k' := by
  obtain ⟨⟨pcb, k₁⟩, -, h⟩ := bind_eq_ok.mp h
  cases pcb with
  | none => cases h
  | some p =>
      obtain ⟨⟨stk, k₂⟩, -, h⟩ := bind_eq_ok.mp h
      cases stk with
      | none => cases h
      | some stk =>
          obtain ⟨k₃, -, h⟩ := bind_eq_ok.mp h
          obtain ⟨k₄, hdisp, h⟩ := bind_eq_ok.mp h
          exact Except.ok.inj h ▸ (dispatch_keeps hdisp).2

variable {image : Image} {mm : MemMgr} {pages : Nat} {k₀ : Kernel} {tr : List (Kernel × Event)}

theorem init_loaded (h0 : init image mm pages = .ok k₀) : Loaded k₀ := by
  obtain ⟨mm', -, hk⟩ := bind_eq_ok.mp h0
  exact initProcess_loaded hk

/-- In every reachable state the directory of the current process is
loaded. Every handler starts and ends with the identity map, and the
state it leaves is restored with the directory of the process that is
current then. -/
theorem directory_switched (h0 : init image mm pages = .ok k₀) (hrun : Steps step k₀ tr k) :
    k.mm.cr3 = (k.pcbs k.current).memory
    ∧ ∀ frame cause, (isrSave k frame).mm.cr3 = k.mm.pageDirectory
      ∧ ∀ k₁, handle (isrSave k frame) cause = .ok k₁ →
        k₁.mm.cr3 = k₁.mm.pageDirectory ∧ k₁.mm.pageDirectory = k.mm.pageDirectory
        ∧ (isrRestore k₁).mm.cr3 = (k₁.pcbs k₁.current).memory := by
  have hl : Loaded k := hrun.inv (fun _ _ _ h hst => h.step hst) (init_loaded h0)
  refine ⟨hl, fun frame cause => ⟨rfl, fun k₁ hk₁ => ?_⟩⟩
  have h := handle_switching hk₁
  exact ⟨h.cr3.trans h.directory.symm, h.directory, h.synced (hl.isrSave frame)⟩

/-- The address space of a process that has called `exec` is loaded. -/
theorem directory_switched_exec : ∃ k₀ tr k, init someImage lowPageUsed 0 = .ok k₀
    ∧ Steps step k₀ tr k ∧ (k.pcbs k.current).memory ≠ k.mm.pageDirectory
    ∧ k.mm.cr3 = (k.pcbs k.current).memory := by
  obtain ⟨k₀, k₁, h0, h₁, -, hne⟩ := exec_run
  exact ⟨k₀, _, k₁, h0, Steps.refl.tail h₁, hne, (directory_switched h0 (Steps.refl.tail h₁)).1⟩

end SpKernel
