import SpKernel.Forking

/-!
# The stack of a forked child

`_sys_fork` copies the stack of the parent byte by byte and moves the EBP
of the child by the distance between the two stacks. The words on the
stack that EBP leads to are copied as they are: the chain of frame
pointers of the child leaves its first frame for the stack of the parent.

Stacks are memory of user processes and not part of `Kernel`; here they
are the entries of `_stacks`, at a place that the linker chooses
(`StackArea`), and `forkMemory` is what the call does to them. The
distance between two stacks is not zero (`stackOffset_ne_zero`), and they
do not overlap (`stacks_apart`).

`FrameChain` is a list of frame pointers, each found where the one before
it points to. `fork_frames_iff` says when the child has the chain of its
parent, moved to its own stack (`FramesMoved`): exactly if there is just
one frame, the one that EBP itself points to, since only that pointer is
moved (`copied_chain_iff`). With a second frame the child returns from
the first into the stack of its parent (`fork_shares_frames`).
-/

namespace SpKernel

open Lib

/-! ## Copies -/

def kmemcpy (m : Mem) (dst src : Word) : Nat → Mem
  | 0 => m
  | len + 1 => kmemcpy (store 1 m dst (m src)) (dst + 1#32) (src + 1#32) len

theorem kmemcpy_apply : ∀ (len : Nat) {m : Mem} {dst src x : Word},
    len ≤ (dst - src).toNat → len ≤ (src - dst).toNat →
    kmemcpy m dst src len x = if (x - dst).toNat < len then m (src + (x - dst)) else m x
  | 0, _, _, _, _, _, _ => rfl
  | len + 1, m, dst, src, x, hd, hs => by
      have hx := x.isLt
      have hdst := dst.isLt
      have hsrc := src.isLt
      have hd' : len ≤ (dst + 1#32 - (src + 1#32)).toNat := by
        simp only [BitVec.toNat_sub, BitVec.toNat_add, BitVec.toNat_ofNat] at hd ⊢
        omega
      have hs' : len ≤ (src + 1#32 - (dst + 1#32)).toNat := by
        simp only [BitVec.toNat_sub, BitVec.toNat_add, BitVec.toNat_ofNat] at hs ⊢
        omega
      rw [kmemcpy, kmemcpy_apply len hd' hs', store_byte, store_byte]
      have hsame : src + 1#32 + (x - (dst + 1#32)) = src + (x - dst) := by
        apply BitVec.eq_of_toNat_eq
        simp only [BitVec.toNat_sub, BitVec.toNat_add, BitVec.toNat_ofNat]
        omega
      rw [hsame]
      by_cases hxd : x = dst
      · subst hxd
        have hpast : ¬(x - (x + 1#32)).toNat < len := by
          simp only [BitVec.toNat_sub, BitVec.toNat_add, BitVec.toNat_ofNat] at hd ⊢
          omega
        rw [if_neg hpast, if_pos rfl, BitVec.sub_self, BitVec.add_zero]
        exact (if_pos (Nat.succ_pos len)).symm
      · have hne : x.toNat ≠ dst.toNat := fun he => hxd (BitVec.eq_of_toNat_eq he)
        have hstep : (x - dst).toNat = (x - (dst + 1#32)).toNat + 1 := by
          simp only [BitVec.toNat_sub, BitVec.toNat_add, BitVec.toNat_ofNat]
          omega
        rw [hstep, if_neg hxd]
        simp only [Nat.add_lt_add_iff_right]
        refine ite_congr rfl (fun hlt => if_neg ?_) fun _ => rfl
        -- what has been overwritten is not read again
        intro he
        have hback : (x - dst).toNat = (dst - src).toNat := by
          have := congrArg BitVec.toNat he
          simp only [BitVec.toNat_sub, BitVec.toNat_add] at this ⊢
          omega
        omega

/-! ## Stacks in memory -/

/-- Where the linker put `_stacks`. -/
structure StackArea where
  base : Word
  pos : 0 < base.toNat
  fits : base.toNat + 4096 * nStacks ≤ 2 ^ 32

namespace StackArea

variable {A : StackArea} {s t : StackId} {a : Word} {m : Mem}

/-- `&_stacks[s]` -/
def addr (A : StackArea) (s : StackId) : Word := A.base + BitVec.ofNat 32 (4096 * s.val)

/-- A word of the stack. -/
def HasWord (A : StackArea) (s : StackId) (a : Word) : Prop :=
  (A.addr s).toNat ≤ a.toNat ∧ a.toNat + 4 ≤ (A.addr s).toNat + 4096

theorem addr_toNat (A : StackArea) (s : StackId) :
    (A.addr s).toNat = A.base.toNat + 4096 * s.val := by
  have hs := s.isLt
  have hfits := A.fits
  rw [addr, BitVec.toNat_add, BitVec.toNat_ofNat]
  omega

theorem stackOffset_eq (A : StackArea) (s t : StackId) :
    stackOffset (some s) (some t) = A.addr s - A.addr t := by
  have hs := A.addr_toNat s
  have ht := A.addr_toNat t
  have h1 := (A.addr s).isLt
  have h2 := (A.addr t).isLt
  apply BitVec.eq_of_toNat_eq
  show (BitVec.ofInt 32 (4096 * ((s.val : Int) - t.val))).toNat = _
  rw [BitVec.toNat_ofInt, BitVec.toNat_sub, hs, ht]
  omega

theorem stacks_apart (A : StackArea) (hne : s ≠ t) : 4096 ≤ (A.addr s - A.addr t).toNat := by
  have hs := A.addr_toNat s
  have ht := A.addr_toNat t
  have hfits := A.fits
  have hls := s.isLt
  have hlt := t.isLt
  have hval : s.val ≠ t.val := fun he => hne (Fin.ext he)
  rw [BitVec.toNat_sub, hs, ht]
  have hpos := A.pos
  omega

theorem load32_copy (hne : s ≠ t) (ha : A.HasWord t a) :
    load32 (kmemcpy m (A.addr s) (A.addr t) 4096) (a + stackOffset (some s) (some t))
      = load32 m a := by
  obtain ⟨hlow, hhigh⟩ := ha
  have hbyte : ∀ i < 4, kmemcpy m (A.addr s) (A.addr t) 4096
      (a + stackOffset (some s) (some t) + BitVec.ofNat 32 i) = m (a + BitVec.ofNat 32 i) := by
    intro i hi
    rw [kmemcpy_apply 4096 (A.stacks_apart hne) (A.stacks_apart hne.symm), A.stackOffset_eq]
    have hto : a + (A.addr s - A.addr t) + BitVec.ofNat 32 i - A.addr s
        = a + BitVec.ofNat 32 i - A.addr t := by
      apply BitVec.eq_of_toNat_eq
      simp only [BitVec.toNat_sub, BitVec.toNat_add, BitVec.toNat_ofNat]
      omega
    rw [hto, if_pos]
    · congr 1
      apply BitVec.eq_of_toNat_eq
      simp only [BitVec.toNat_sub, BitVec.toNat_add, BitVec.toNat_ofNat]
      omega
    · simp only [BitVec.toNat_sub, BitVec.toNat_add, BitVec.toNat_ofNat]
      omega
  have h0 := hbyte 0 (by decide)
  rw [BitVec.add_zero, BitVec.add_zero] at h0
  simp only [load32, h0, hbyte 1 (by decide), hbyte 2 (by decide), hbyte 3 (by decide)]

theorem moved_ne_zero (ha : A.HasWord t a) : a + stackOffset (some s) (some t) ≠ 0 := by
  obtain ⟨hlow, hhigh⟩ := ha
  intro h0
  have h := congrArg BitVec.toNat h0
  have hs := A.addr_toNat s
  have ht := A.addr_toNat t
  have hfits := A.fits
  have hpos := A.pos
  have hls := s.isLt
  rw [A.stackOffset_eq, BitVec.toNat_add, BitVec.toNat_sub, hs, ht,
    show (0 : Word).toNat = 0 from rfl] at h
  omega

theorem stackOffset_ne_zero (A : StackArea) (hne : s ≠ t) :
    stackOffset (some s) (some t) ≠ 0 := by
  have := A.stacks_apart hne
  rw [A.stackOffset_eq]
  intro h0
  rw [h0] at this
  exact absurd this (by decide)

end StackArea

/-! ## Frames -/

/-- The frames from `ebp` on: each starts with the EBP of the one before
it, the first of all with 0. -/
inductive FrameChain (m : Mem) : Word → List Word → Prop
  | done : FrameChain m 0 []
  | link {ebp : Word} {links : List Word} : ebp ≠ 0 → FrameChain m (load32 m ebp) links →
      FrameChain m ebp (ebp :: links)

theorem FrameChain.nil_iff {m : Mem} {ebp : Word} : FrameChain m ebp [] ↔ ebp = 0 := by
  constructor
  · intro h
    cases h
    rfl
  · rintro rfl
    exact .done

theorem FrameChain.cons_iff {m : Mem} {ebp a : Word} {links : List Word} :
    FrameChain m ebp (a :: links) ↔ a = ebp ∧ ebp ≠ 0 ∧ FrameChain m (load32 m ebp) links := by
  constructor
  · intro h
    cases h with
    | link hne htail => exact ⟨rfl, hne, htail⟩
  · rintro ⟨rfl, hne, htail⟩
    exact .link hne htail

/-- In the copy of a stack the first link of the chain is moved, and what it
links to is not. -/
theorem copied_chain_iff {A : StackArea} {s t : StackId} {m : Mem} {ebp : Word}
    {links : List Word} (hne : s ≠ t) (hchain : FrameChain m ebp links)
    (hin : ∀ a ∈ links, A.HasWord t a) :
    FrameChain (kmemcpy m (A.addr s) (A.addr t) 4096) (ebp + stackOffset (some s) (some t))
      (links.map fun a => a + stackOffset (some s) (some t)) ↔ links.length = 1 := by
  have hofs := A.stackOffset_ne_zero hne
  cases links with
  | nil =>
      obtain rfl := FrameChain.nil_iff.mp hchain
      refine iff_of_false (fun h => hofs ?_) (by decide)
      have := FrameChain.nil_iff.mp h
      rwa [BitVec.ofNat_eq_ofNat, BitVec.zero_add] at this
  | cons a rest =>
      obtain ⟨rfl, -, htail⟩ := FrameChain.cons_iff.mp hchain
      have hword := hin a (List.mem_cons_self ..)
      rw [List.map_cons, FrameChain.cons_iff, A.load32_copy hne hword]
      cases rest with
      | nil =>
          rw [FrameChain.nil_iff] at htail
          exact iff_of_true ⟨rfl, A.moved_ne_zero hword, FrameChain.nil_iff.mpr htail⟩ rfl
      | cons b rest =>
          refine iff_of_false (fun h => hofs ?_) (by simp)
          have hb := (FrameChain.cons_iff.mp h.2.2).1
          rw [← (FrameChain.cons_iff.mp htail).1] at hb
          exact BitVec.add_right_eq_self.mp hb

/-! ## The call -/

variable {k k' k₀ : Kernel} {image : Image} {mm : MemMgr} {pages : Nat}
  {tr : List (Kernel × Event)} {frame : Frame} {keys : List Byte} {new : PcbId}
  {A : StackArea} {m : Mem} {links : List Word}

/-- Memory after `_sys_fork` has copied the stack of `p` for `new`. -/
def forkMemory (A : StackArea) (m : Mem) (new p : Pcb) : Mem :=
  match new.stack, p.stack with
  | some s, some t => kmemcpy m (A.addr s) (A.addr t) 4096
  | _, _ => m

/-- A word of the stack of `p`. -/
def StackArea.Inside (A : StackArea) (p : Pcb) (a : Word) : Prop :=
  ∃ t, p.stack = some t ∧ A.HasWord t a

/-- The frames of the child `new` of `p` are the `links` of `p`, each moved
to its own stack. -/
def FramesMoved (A : StackArea) (m : Mem) (new p : Pcb) (links : List Word) : Prop :=
  FrameChain (forkMemory A m new p) new.context.regs.ebp
    (links.map fun a => a + stackOffset new.stack p.stack)

theorem fork_stack (h0 : init image mm pages = .ok k₀) (hrun : Steps step k₀ tr k)
    (heax : frame.regs.eax = 3)
    (hst : step k (.interrupt frame (.syscall keys)) = .ok k') (hborn : Born k k' new) :
    ∃ s t, s ≠ t ∧ (k'.pcbs new).stack = some s ∧ (k.pcbs k.current).stack = some t
      ∧ (k'.pcbs new).context.regs.ebp = frame.regs.ebp + stackOffset (some s) (some t) := by
  have g := reachable_good h0 hrun
  by_cases hfail : 65000 ≤ k.nextPid.toNat ∨ ∀ p, (k.pcbs p).state ≠ .free
  · obtain ⟨v, hk', -⟩ := step_fork_fails keys g heax hfail
    obtain rfl := Except.ok.inj (hk'.symm.trans hst)
    exact absurd hborn not_born_answered
  obtain ⟨hmax, -⟩ := not_or.mp hfail
  obtain ⟨k₁, c, hk₁, -, hchild, s, hs, hpcb⟩ :=
    step_fork_born keys h0 hrun heax (Nat.lt_of_not_le hmax) hborn.1
  obtain rfl := Except.ok.inj (hk₁.symm.trans hst)
  obtain rfl := hchild.only hborn
  obtain ⟨t, ht, hfree⟩ := g.family.owns k.current (by rw [g.active]; decide)
  have hstack : ((isrSave k frame).pcbs k.current).stack = some t :=
    (isrSave_field (f := Pcb.stack) (fun _ _ => rfl) k frame k.current).trans ht
  refine ⟨s, t, fun he => hfree (he ▸ hs), congrArg Pcb.stack hpcb, ht, ?_⟩
  refine (congrArg (fun x : Pcb => x.context.regs.ebp) hpcb).trans ?_
  show ((isrSave k frame).pcbs k.current).context.regs.ebp + stackOffset (some s)
    ((isrSave k frame).pcbs k.current).stack = _
  rw [hstack, isrSave_context]

/-- The frames of the child are those of the parent, moved to the stack of
the child, exactly if there is just one. -/
theorem fork_frames_iff (h0 : init image mm pages = .ok k₀) (hrun : Steps step k₀ tr k)
    (heax : frame.regs.eax = 3)
    (hst : step k (.interrupt frame (.syscall keys)) = .ok k') (hborn : Born k k' new)
    (hchain : FrameChain m frame.regs.ebp links)
    (hin : ∀ a ∈ links, A.Inside (k.pcbs k.current) a) :
    FramesMoved A m (k'.pcbs new) (k.pcbs k.current) links ↔ links.length = 1 := by
  obtain ⟨s, t, hne, hs, ht, hebp⟩ := fork_stack h0 hrun heax hst hborn
  rw [FramesMoved, forkMemory, hs, ht, hebp]
  refine copied_chain_iff hne hchain fun a ha => ?_
  obtain ⟨t', ht', hword⟩ := hin a ha
  obtain rfl := Option.some.inj (ht.symm.trans ht')
  exact hword

/-! ## One frame and two -/

/-- Stacks from 2 MB on. -/
def someArea : StackArea := ⟨0x200000, by decide, by decide⟩

/-- `fork`, with the frame of the caller at `0x200100`. -/
def forkFrame : Frame :=
  { callFrame 3 0 0 0 with regs := { (callFrame 3 0 0 0).regs with ebp := 0x200100 } }

theorem someArea_inside {p : Pcb} {a : Word} (hp : p.stack = some 0)
    (ha : 0x200000 ≤ a.toNat ∧ a.toNat + 4 ≤ 0x201000) : someArea.Inside p a :=
  ⟨0, hp, ha⟩

theorem forkFrame_ok : ∃ k₀ k k', init someImage lowPageUsed 0 = .ok k₀
    ∧ (∃ tr, Steps step k₀ tr k) ∧ step k (.interrupt forkFrame (.syscall [])) = .ok k'
    ∧ (∃ new, Born k k' new) ∧ (k.pcbs k.current).stack = some 0 := by
  obtain ⟨k₀, tr, k, h0, hrun, -, ht⟩ := run_of_test []
    (fun k => decide (k.nextPid.toNat < 65000 ∧ (k.pcbs 1).state = .free
      ∧ (k.pcbs k.current).stack = some 0)) (by decide +kernel)
  obtain ⟨hlt, hfree, hstack⟩ := of_decide_eq_true ht
  obtain ⟨k', new, hk', hnew, hchild, -⟩ := step_fork_born [] h0 hrun
    (show forkFrame.regs.eax = 3 from rfl) hlt hfree
  exact ⟨k₀, k, k', h0, ⟨tr, hrun⟩, hk', ⟨new, hchild.born hnew⟩, hstack⟩

/-- A caller with one frame. -/
theorem fork_frames_one : ∃ k₀ k k' new, init someImage lowPageUsed 0 = .ok k₀
    ∧ (∃ tr, Steps step k₀ tr k) ∧ step k (.interrupt forkFrame (.syscall [])) = .ok k'
    ∧ FramesMoved someArea (fun _ => 0) (k'.pcbs new) (k.pcbs k.current) [0x200100] := by
  obtain ⟨k₀, k, k', h0, ⟨tr, hrun⟩, hk', ⟨new, hborn⟩, hstack⟩ := forkFrame_ok
  refine ⟨k₀, k, k', new, h0, ⟨tr, hrun⟩, hk', ?_⟩
  refine (fork_frames_iff h0 hrun rfl hk' hborn (.link (by decide) .done) fun a ha => ?_).mpr rfl
  rw [List.mem_singleton.mp ha]
  exact someArea_inside hstack (by decide)

/-- The caller has been called by another function, with its frame at
`0x200200`. -/
def twoFrames : Mem := store 4 (fun _ => 0) 0x200100#32 0x200200#32

theorem twoFrames_chain : FrameChain twoFrames forkFrame.regs.ebp [0x200100, 0x200200] := by
  refine .link (by decide) ?_
  have h : load32 twoFrames forkFrame.regs.ebp = 0x200200 := load32_store ..
  rw [h]
  refine .link (by decide) ?_
  have h0 : load32 twoFrames 0x200200 = 0 := by decide
  rw [h0]
  exact .done

/-- The child returns from its first frame into the stack of its parent. -/
theorem fork_shares_frames : ∃ k₀ k k' new, init someImage lowPageUsed 0 = .ok k₀
    ∧ (∃ tr, Steps step k₀ tr k) ∧ step k (.interrupt forkFrame (.syscall [])) = .ok k'
    ∧ Born k k' new ∧ FrameChain twoFrames forkFrame.regs.ebp [0x200100, 0x200200]
    ∧ (∀ a ∈ ([0x200100, 0x200200] : List Word), someArea.Inside (k.pcbs k.current) a)
    ∧ ¬FramesMoved someArea twoFrames (k'.pcbs new) (k.pcbs k.current) [0x200100, 0x200200]
    ∧ load32 (forkMemory someArea twoFrames (k'.pcbs new) (k.pcbs k.current))
        (k'.pcbs new).context.regs.ebp = 0x200200 := by
  obtain ⟨k₀, k, k', h0, ⟨tr, hrun⟩, hk', ⟨new, hborn⟩, hstack⟩ := forkFrame_ok
  obtain ⟨s, t, hne, hs, ht, hebp⟩ := fork_stack h0 hrun rfl hk' hborn
  have hin : ∀ a ∈ ([0x200100, 0x200200] : List Word),
      someArea.Inside (k.pcbs k.current) a := by
    intro a ha
    refine someArea_inside hstack ?_
    simp only [List.mem_cons, List.not_mem_nil, or_false] at ha
    rcases ha with rfl | rfl
    · exact ⟨by decide, by decide⟩
    · exact ⟨by decide, by decide⟩
  obtain rfl := Option.some.inj (ht.symm.trans hstack)
  refine ⟨k₀, k, k', new, h0, ⟨tr, hrun⟩, hk', hborn, twoFrames_chain, hin, ?_, ?_⟩
  · rw [FramesMoved, forkMemory, hs, ht, hebp]
    intro h
    refine absurd ((copied_chain_iff hne twoFrames_chain fun a ha => ?_).mp h) (by decide)
    obtain ⟨t', ht', hword⟩ := hin a ha
    obtain rfl := Option.some.inj (ht.symm.trans ht')
    exact hword
  · rw [forkMemory, hs, ht, hebp]
    refine (someArea.load32_copy hne ?_).trans (load32_store ..)
    exact ⟨by decide, by decide⟩

end SpKernel
