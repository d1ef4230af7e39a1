import SpKernel.Handlers

/-!
# The first process

What `_init` leaves: one process, running, every other PCB and stack
free. From there `step_sim` carries the invariant through every run.

The initialisation frees all PCBs and all stacks, one after the other,
and so fills the two free lists (`foldl_pcbDealloc`, `foldl_stkDealloc`).
`Blank` is the state in between, and the four steps that follow, up to
`launch_spec`, keep what is needed of it: the PCB of the first process is
filled in, a stack and an address space are given to it, and it is
started.

`Family.first` is the abstract family of that state, with `init` for its
only member, and `first_inv` its invariant. `init_first` says that the
kernel's family is this one, which stack `init` has and that no other is
taken. `init_spec` is what other modules use: after `_init` the kernel is
`Good`.
-/

namespace SpKernel

open Function (update update_self update_of_ne)
open Lib

/-! ## The first family -/

namespace Family

/-- `init` alone. -/
def first (p : PcbId) (stk : StackId) (rest : List StackId) : Family where
  members := fun x =>
    if x = p then ⟨.active, pidInit, pidInit, 0, 0, some stk⟩ else ⟨.free, -1, -1, 0, 0, none⟩
  init := p
  nextPid := pidFirstUser
  freeStacks := rest
  reports := []

variable {p : PcbId} {stk : StackId} {rest : List StackId}

theorem first_members (x : PcbId) : (first p stk rest).members x
    = if x = p then ⟨.active, pidInit, pidInit, 0, 0, some stk⟩ else ⟨.free, -1, -1, 0, 0, none⟩ :=
  rfl

theorem first_only {x : PcbId} (hx : ((first p stk rest).members x).mode ≠ .free) : x = p := by
  rw [first_members] at hx
  by_contra hne
  rw [if_neg hne] at hx
  exact hx rfl

theorem first_self :
    (first p stk rest).members p = ⟨.active, pidInit, pidInit, 0, 0, some stk⟩ :=
  if_pos rfl

theorem kidsOf_first (x : PcbId) : (first p stk rest).kidsOf x = ∅ := by
  rw [Finset.eq_empty_iff_forall_notMem]
  intro q hq
  obtain ⟨hne, hq, he⟩ := mem_kidsOf.mp hq
  obtain rfl := first_only hq
  rw [first_self, first_members, if_neg hne.symm] at he
  exact absurd he (show pidInit ≠ (-1 : Half) by decide)

theorem first_inv (hs : stk ∉ rest) (hnd : rest.Nodup) : (first p stk rest).Inv := by
  have hself : (first p stk rest).members p = _ := first_self
  have hnone : (first p stk rest).strangers = ∅ := by
    rw [Finset.eq_empty_iff_forall_notMem]
    intro q hq
    obtain ⟨hne, hq, -⟩ := mem_strangers.mp hq
    exact hne (first_only hq)
  have hinit : (first p stk rest).members (first p stk rest).init
      = ⟨.active, pidInit, pidInit, 0, 0, some stk⟩ := hself
  refine ⟨?_, ?_, ?_, ?_, ?_, ?_, ?_, ?_, ?_, ?_, ?_, ?_, ?_, hnd, ?_, ?_⟩
  · rw [hinit]
    nofun
  · rw [hinit]
  · rw [hinit]
  · exact ⟨le_refl 100, show 100 ≤ 65000 by decide⟩
  · exact fun x hx hi => absurd (first_only hx) hi
  · exact fun x y hx hy _ => (first_only hx).trans (first_only hy).symm
  · intro x hx
    rcases eq_or_ne x p with rfl | hne
    · rw [hself] at hx
      cases hx
    · rw [first_members, if_neg hne]
      exact ⟨rfl, rfl⟩
  · intro x hx
    obtain rfl := first_only hx
    exact ⟨x, hx, by rw [hself]⟩
  · exact fun x hx _ => first_only hx
  · intro x _
    rw [kidsOf_first]
    exact Nat.zero_le _
  · exact fun x _ _ => kidsOf_first x
  · exact fun x hx hi => absurd (first_only hx) hi
  · rw [hnone, hinit]
    exact le_refl 100
  · intro x hx
    obtain rfl := first_only hx
    exact ⟨stk, by rw [hself], hs⟩
  · exact fun x y hx hy _ => (first_only hx).trans (first_only hy).symm

end Family

/-! ## Initialisation -/

variable {k k' : Kernel}

theorem foldl_pcbDealloc : ∀ (l : List PcbId) (k : Kernel) (off : Set PcbId),
    Placed k off none → l.Nodup → (∀ p ∈ l, p ∈ off) →
    Placed (l.foldl pcbDealloc k) (off \ {p | p ∈ l}) none
    ∧ (l.foldl pcbDealloc k).family.freeStacks = k.freeStacks
    ∧ (l.foldl pcbDealloc k).family.reports = k.reports
    ∧ ∀ p, (l.foldl pcbDealloc k).family.members p
      = if p ∈ l then (k.family.members p).gone else k.family.members p
  | [], k, off, h, _, _ => by simpa using h
  | c :: l, k, off, h, hnd, hoff => by
      obtain ⟨hc, hnd⟩ := List.nodup_cons.mp hnd
      obtain ⟨h1, hf1, -⟩ := pcbDealloc_spec h (hoff c (List.mem_cons_self ..))
      have hoff1 : ∀ p ∈ l, p ∈ off \ {c} := fun p hp =>
        ⟨hoff p (List.mem_cons_of_mem c hp), fun he => hc (he ▸ hp)⟩
      obtain ⟨h2, hs2, hr2, hm2⟩ := foldl_pcbDealloc l _ _ h1 hnd hoff1
      rw [List.foldl_cons]
      refine ⟨?_, ?_, ?_, fun p => ?_⟩
      · have : off \ {p | p ∈ c :: l} = (off \ {c}) \ {p | p ∈ l} := by
          ext x
          simp only [Set.mem_sdiff, Set.mem_ofPred_eq, List.mem_cons, Set.mem_singleton_iff]
          tauto
        rw [this]
        exact h2
      · exact hs2.trans (congrArg Family.freeStacks hf1)
      · exact hr2.trans (congrArg Family.reports hf1)
      · rw [hm2, hf1, Family.members_set]
        rcases eq_or_ne p c with rfl | hpc
        · simp [hc]
        · simp [hpc]

theorem zero_placed (image : Image) (mm : MemMgr) :
    Placed (Kernel.zero image mm) Set.univ none := by
  refine ⟨fun p q => ?_, fun q => List.nodup_nil, List.nodup_nil, ?_,
    fun p hp => absurd (Set.mem_univ p) hp, fun p hp => absurd (Set.mem_univ p) hp, nofun⟩
  · simp [Kernel.on, Kernel.zero]
  · have : ∀ q, ((Kernel.zero image mm).queues.items q).length = 0 := by
      intro q
      cases q <;> rfl
    simp only [QPool.total, this, Finset.sum_const_zero, Nat.add_zero]
    rfl

/-- The kernel state before the first process: every PCB and every stack
of `stks` on its free list. -/
structure Blank (k : Kernel) (stks : List StackId) : Prop where
  placed : Placed k ∅ none
  freeStacks : k.freeStacks = stks
  reports : k.reports = []
  nextPid : k.nextPid = pidFirstUser
  member : ∀ p, (k.pcbs p).member = ⟨.free, -1, -1, 0, 0, none⟩

theorem pcbInit_spec (image : Image) (mm : MemMgr) :
    Blank (pcbInit (Kernel.zero image mm)) [] := by
  obtain ⟨h, hs, hr, hm⟩ := foldl_pcbDealloc (List.finRange nPcbs) _ _ (zero_placed image mm)
    (List.nodup_finRange _) fun p _ => Set.mem_univ p
  have hoff : (Set.univ \ {p | p ∈ List.finRange nPcbs} : Set PcbId) = ∅ := by
    ext x
    simp
  rw [hoff] at h
  rw [pcbInit]
  generalize (List.finRange nPcbs).foldl pcbDealloc (Kernel.zero image mm) = k₁ at h hs hr hm
  refine ⟨h.congr rfl rfl, hs, hr, rfl, fun p => (hm p).trans ?_⟩
  rw [if_pos (List.mem_finRange p)]
  rfl

theorem foldl_stkDealloc : ∀ (l : List StackId) (k : Kernel), Placed k ∅ none →
    (k.freeStacks ++ l).Nodup →
    ∃ Q, l.foldl (fun k s => stkDealloc k (some s)) k = { k with queues := Q }
      ∧ Placed { k with queues := Q } ∅ none ∧ Q.items .freeStacks = k.freeStacks ++ l
  | [], k, h, _ => ⟨k.queues, rfl, h, (List.append_nil _).symm⟩
  | s :: l, k, h, hnd => by
      have hs : s ∉ k.freeStacks := by
        intro hc
        exact (List.nodup_append.mp hnd).2.2 s hc s (List.mem_cons_self ..) rfl
      obtain ⟨Q, he, h1, hQ⟩ := stkDealloc_spec h hs
      have hnd1 : (({ k with queues := Q } : Kernel).freeStacks ++ l).Nodup := by
        rw [Kernel.freeStacks, hQ, List.append_assoc]
        exact hnd
      obtain ⟨Q', he', h2, hQ'⟩ := foldl_stkDealloc l _ h1 hnd1
      refine ⟨Q', ?_, h2, ?_⟩
      · rw [List.foldl_cons, he, he']
      · rw [hQ', Kernel.freeStacks, hQ, List.append_assoc]
        rfl

theorem Blank.stkInit (b : Blank k []) : Blank (stkInit k) (List.finRange nStacks) := by
  obtain ⟨Q, he, hpl, hQ⟩ := foldl_stkDealloc (List.finRange nStacks) k b.placed
    (by rw [b.freeStacks, List.nil_append]; exact List.nodup_finRange _)
  rw [SpKernel.stkInit, he]
  rw [b.freeStacks, List.nil_append] at hQ
  exact ⟨hpl, hQ, b.reports, b.nextPid, b.member⟩

@[simps] def Family.setInit (f : Family) (p : PcbId) : Family := { f with init := p }

/-- The end of `_init`: the PCB is filled in and its process started. -/
theorem launch_spec {p : PcbId} (h : Placed k {p} none) (f : Pcb → Pcb) :
    Holds (do
      let k₁ ← schedule { k.setPcb p f with initPcb := p } p
      let k₂ ← dispatch k₁
      .ok (isrRestore k₂))
      (fun k' => Placed k' ∅ (some k'.current)
        ∧ k'.family = (k.family.setInit p).set p ((f (k.pcbs p)).member.setMode .active))
      Fault.Expected := by
  have h1 : Placed { k.setPcb p f with initPcb := p } {p} none :=
    (h.setOff (Set.mem_singleton p) f).congr rfl rfl
  obtain ⟨k₁, hk₁, h2, hf, -⟩ := schedule_spec h1 (Set.mem_singleton p)
  rw [Set.sdiff_self] at h2
  rw [hk₁]
  refine (dispatch_spec h2).bind fun k' h' => ⟨h'.1.congr rfl rfl, ?_⟩
  refine h'.2.trans (hf.trans (Family.ext (funext fun x => ?_) rfl rfl rfl rfl))
  rw [Family.members_set, Family.members_set]
  rcases eq_or_ne x p with rfl | hx
  · rw [if_pos rfl, if_pos rfl, Kernel.family_members, setPcb_self]
  · rw [if_neg hx, if_neg hx, Kernel.family_members, setPcb_other k f hx]
    rfl

theorem initProcess_spec {stk : StackId} {rest : List StackId} (b : Blank k (stk :: rest)) :
    Holds (initProcess k) (fun k' => Placed k' ∅ (some k'.current)
      ∧ ∃ p, k'.family = Family.first p stk rest) Fault.Expected := by
  have hfree : ∀ p, p ∈ k.on .free := by
    intro p
    have : (k.pcbs p).state = .free := mode_eq_free.mp (congrArg Member.mode (b.member p))
    exact (b.placed.mem p .free).mpr ⟨id, by simp [home, this]⟩
  rw [initProcess]
  cases hq : k.on .free with
  | nil =>
      have := hfree 0
      rw [hq] at this
      cases this
  | cons p l =>
      obtain ⟨Q, hnew, hpl, hstk⟩ := pcbAlloc_cons b.placed hq
      rw [LawfulSingleton.insert_empty_eq] at hpl
      have h1 := hpl.setOff (Set.mem_singleton p) fun x => { x with state := .new }
      obtain ⟨Q₂, hsome, h2, hstk2⟩ := stkAlloc_cons h1 (hstk.trans b.freeStacks)
      simp only [hnew, ok_bind, hsome]
      refine (launch_spec h2 _).mono fun k' h' => ⟨h'.1, p, h'.2.trans ?_⟩
      have hx : ∀ x, x ≠ p →
          ({ k with queues := Q }.setPcb p fun x => { x with state := .new }).pcbs x = k.pcbs x :=
        fun x hx => setPcb_other _ _ hx
      have hp : ({ k with queues := Q }.setPcb p fun x => { x with state := .new }).pcbs p
          = { k.pcbs p with state := .new } := setPcb_self ..
      refine Family.ext (funext fun x => ?_) rfl b.nextPid hstk2 b.reports
      rw [Family.members_set, Family.first_members]
      rcases eq_or_ne x p with rfl | hne
      · rw [if_pos rfl, if_pos rfl, hp]
        have hc := congrArg Member.children (b.member x)
        have he := congrArg Member.exitstatus (b.member x)
        simp only [Pcb.member_children, Pcb.member_exitstatus] at hc he
        simp only [Pcb.member, Member.setMode, hc, he]
      · rw [if_neg hne, if_neg hne]
        simp only [Family.setInit_members, Kernel.family_members, hx x hne]
        exact b.member x

/-- `_init` leaves its process with the first stack, and all others free. -/
theorem init_first {image : Image} {mm : MemMgr} {pages : Nat}
    (h : init image mm pages = .ok k) :
    Good k ∧ ∃ p, k.family = Family.first p 0 (List.finRange nStacks).tail := by
  obtain ⟨mm', -, hk⟩ := bind_eq_ok.mp h
  have b := (pcbInit_spec image mm').stkInit
  generalize stkInit (pcbInit (Kernel.zero image mm')) = k₁ at b hk
  have hfin : List.finRange nStacks = 0 :: (List.finRange nStacks).tail := rfl
  rw [hfin] at b
  have hproc := initProcess_spec b
  rw [hk] at hproc
  obtain ⟨h1, p, hf⟩ := hproc
  have hnd := hfin ▸ List.nodup_finRange nStacks
  obtain ⟨hstk, hnd⟩ := List.nodup_cons.mp hnd
  exact ⟨⟨h1, hf ▸ Family.first_inv hstk hnd⟩, p, hf⟩

theorem init_spec {image : Image} {mm : MemMgr} {pages : Nat}
    (h : init image mm pages = .ok k) :
    Good k ∧ ∃ p stk rest, k.family = Family.first p stk rest := by
  obtain ⟨g, p, hf⟩ := init_first h
  exact ⟨g, p, _, _, hf⟩

end SpKernel
