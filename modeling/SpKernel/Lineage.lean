import SpKernel.Lib.Ancestry
import SpKernel.Reports

/-!
# Histories of the family, and the process tree

A run of the kernel is, for the family, a sequence of acts that are each
possible when they happen (`Family.History`), one for each event and
explained by it (`Good.history`). So what holds of every history holds of
every run, without a look at queues, contexts or memory.
`runs_refine_family` is the statement of this refinement, from the first
process on and together with the ways in which a run can stop.

The first use is the process tree. A parent is always older than its
children (`Elder`): a birth gives the next PID, and adoption gives the
oldest parent there is. With the PID as a rank, the processes are a tree
below `init` (`Inv.rooted`, by the library on lines of ancestors), and
since only `init` adopts, a process never gets an ancestor it did not
have (`History.ancestors`). `process_tree` says both of the kernel.

Members are named by their slots and processes by their PIDs. Since a
slot is used again and a PID is not, it is the PIDs that the tree is
about; `Inv.comes` says of every member after an act which member before
it has come from.
-/

namespace SpKernel

open Lib
open Relation (TransGen ReflTransGen)

variable {image : Image} {mm : MemMgr} {pages : Nat} {k₀ k : Kernel} {tr : List (Kernel × Event)}

namespace Family

variable {f g : Family} {a : Act}

/-! ## Histories -/

/-- From `f` these acts lead to `g`, each of them enabled in its turn. -/
inductive History (f : Family) : List Act → Family → Prop
  | refl : History f [] f
  | tail {acts : List Act} {g : Family} {a : Act} :
      History f acts g → a.Enabled g → History f (acts ++ [a]) (a.apply g)

theorem History.inv {acts : List Act} (hist : History f acts g) (h : f.Inv) : g.Inv := by
  induction hist with
  | refl => exact h
  | tail _ hen ih => exact ih.act hen

theorem History.nextPid_le {acts : List Act} (hist : History f acts g) (h : f.Inv) :
    f.nextPid.toNat ≤ g.nextPid.toNat := by
  induction hist with
  | refl => exact le_refl _
  | tail hist hen ih => exact ih.trans ((hist.inv h).nextPid_le hen)

/-! ## Where a member comes from -/

/-- How `p` came to be a member of `g`: it is the new child of a member of
`f`, or it was there and has at most got `init` for its parent. -/
inductive Comes (f g : Family) (p : PcbId) : Prop
  | born {q : PcbId} : (f.members q).mode ≠ .free → (g.members p).pid = f.nextPid →
      (g.members p).ppid = (f.members q).pid → Comes f g p
  | stays : (f.members p).mode ≠ .free → (g.members p).pid = (f.members p).pid →
      ((g.members p).ppid = (f.members p).ppid ∨ (g.members p).ppid = pidInit) → Comes f g p

theorem Comes.of_eq {p : PcbId} (hp : (f.members p).mode ≠ .free)
    (hpid : (g.members p).pid = (f.members p).pid)
    (hppid : (g.members p).ppid = (f.members p).ppid) : Comes f g p :=
  .stays hp hpid (.inl hppid)

theorem comes_fork {p new q : PcbId} {stk : StackId} (hen : (Act.fork p new stk).Enabled f)
    (hq : ((f.fork p new stk).members q).mode ≠ .free) : Comes f (f.fork p new stk) q := by
  have hp : (f.members p).mode ≠ .free := Mode.Live.ne_free (.inl hen.1)
  by_cases hnew : q = new
  · have hne : new ≠ p := ne_of_mode hen.1 hen.2.1 (by simp)
    subst hnew
    refine .born hp ?_ ?_
    · rw [fork_members, if_neg hne, if_pos rfl]
      rfl
    · rw [fork_members, if_neg hne, if_pos rfl]
      rfl
  · obtain ⟨hmode, hpid, hppid, -⟩ := fork_old f p stk hnew
    exact .of_eq (hmode ▸ hq) hpid hppid

theorem comes_set {p q : PcbId} {m : Member} (hpid : m.pid = (f.members p).pid)
    (hppid : m.ppid = (f.members p).ppid) (hp : (f.members p).mode ≠ .free)
    (hq : ((f.set p m).members q).mode ≠ .free) : Comes f (f.set p m) q := by
  rw [members_set] at hq
  split at hq
  · rename_i he
    subst he
    refine .of_eq hp ?_ ?_
    · rw [members_set, if_pos rfl, hpid]
    · rw [members_set, if_pos rfl, hppid]
  · rename_i hne
    refine .of_eq hq ?_ ?_
    · rw [members_set, if_neg hne]
    · rw [members_set, if_neg hne]

theorem comes_reap {p z q : PcbId} (hen : (Act.reap p z).Enabled f)
    (hq : ((f.reap p z).members q).mode ≠ .free) : Comes f (f.reap p z) q := by
  have hne : z ≠ p := ne_of_mode hen.1 hen.2.2.1 (by simp)
  have hmembers := reap_members (f := f) hne q
  rw [hmembers] at hq
  split at hq
  · exact absurd rfl hq
  · rename_i hz
    rw [if_neg hz] at hmembers
    split at hq
    · rename_i hp
      rw [if_pos hp] at hmembers
      subst hp
      exact .of_eq hq (hmembers ▸ rfl) (hmembers ▸ rfl)
    · rename_i hp
      rw [if_neg hp] at hmembers
      exact .of_eq hq (hmembers ▸ rfl) (hmembers ▸ rfl)

/-- A death: the dead one goes or stays, and its children go to `init`. -/
theorem Inv.comes_terminate (h : f.Inv) {v q : PcbId} {m : Mode} {status : Word}
    (hen : (Act.terminate v m status).Enabled f)
    (hq : ((f.terminate v m status).members q).mode ≠ .free) :
    Comes f (f.terminate v m status) q := by
  have horphan : ∀ {g : Family}, (f.members q).mode ≠ .free →
      (g.members q).pid = ((f.orphan v m status).members q).pid →
      (g.members q).ppid = ((f.orphan v m status).members q).ppid → Comes f g q := by
    intro g hfree hpid hppid
    refine .stays hfree (hpid.trans (orphan_pid ..)) ?_
    rw [hppid, orphan_ppid]
    split
    · exact .inr rfl
    · exact .inl rfl
  have hfree : ((f.orphan v m status).members q).mode ≠ .free → (f.members q).mode ≠ .free :=
    fun hmode hc => hmode ((orphan_free hen.1 hen.2 q).mpr hc)
  obtain ⟨parent, -, -, ⟨hl, -⟩ | ⟨hl, hw, hne, -⟩⟩ := h.terminate_cases hen
  · rw [hl] at hq ⊢
    exact horphan (hfree hq) rfl rfl
  · rw [hl] at hq ⊢
    have hmembers := wake_members (f.orphan v m status) hne q
    rw [hmembers] at hq
    split at hq
    · rename_i hp
      rw [if_pos hp] at hmembers
      subst hp
      refine horphan (hfree ?_) (hmembers ▸ rfl) (hmembers ▸ rfl)
      rw [hw]
      exact nofun
    · rename_i hp
      rw [if_neg hp] at hmembers
      split at hq
      · exact absurd rfl hq
      · rename_i hv
        rw [if_neg hv] at hmembers
        exact horphan (hfree hq) (hmembers ▸ rfl) (hmembers ▸ rfl)

theorem Inv.comes (h : f.Inv) (hen : a.Enabled f) {q : PcbId}
    (hq : ((a.apply f).members q).mode ≠ .free) : Comes f (a.apply f) q := by
  cases a with
  | quiet => exact .of_eq hq rfl rfl
  | fork p new stk => exact comes_fork hen hq
  | block p => exact comes_set rfl rfl (Mode.Live.ne_free (.inl hen.1)) hq
  | reap p z => exact comes_reap hen hq
  | terminate v m status => exact h.comes_terminate hen hq

theorem init_apply (f : Family) (a : Act) : (a.apply f).init = f.init := by
  cases a with
  | terminate v m status =>
      rw [Act.apply, terminate, lay]
      split_ifs <;> (split <;> (try split) <;> rfl)
  | _ => rfl

/-! ## The tree -/

/-- Somebody has the PID `x`. -/
def HasPid (f : Family) (x : Half) : Prop :=
  ∃ p, (f.members p).mode ≠ .free ∧ (f.members p).pid = x

/-- The process with PID `x`, which is not `init`, is a child of the one
with PID `y`. -/
def Parent (f : Family) (x y : Half) : Prop :=
  ∃ p, (f.members p).mode ≠ .free ∧ p ≠ f.init ∧ (f.members p).pid = x ∧ (f.members p).ppid = y

/-- Parents are older than their children. -/
def Elder (f : Family) : Prop :=
  ∀ p, (f.members p).mode ≠ .free → p ≠ f.init →
    (f.members p).ppid.toNat < (f.members p).pid.toNat

theorem Elder.act (he : f.Elder) (h : f.Inv) (hen : a.Enabled f) : (a.apply f).Elder := by
  intro p hp hi
  rw [init_apply] at hi
  cases h.comes hen hp with
  | born hq hpid hppid =>
      rw [hpid, hppid]
      exact h.pid_lt hq
  | stays hfree hpid hppid =>
      rw [hpid]
      rcases hppid with hppid | hppid
      · rw [hppid]
        exact he p hfree hi
      · rw [hppid]
        exact lt_of_lt_of_le (by decide) (h.pids p hfree hi).1

theorem History.elder {acts : List Act} (hist : History f acts g) (h : f.Inv) (he : f.Elder) :
    g.Elder := by
  induction hist with
  | refl => exact he
  | tail hist hen ih => exact ih.act (hist.inv h) hen

theorem not_parent_init (h : f.Inv) (y : Half) : ¬f.Parent pidInit y := by
  rintro ⟨p, hp, hi, hpid, -⟩
  exact h.pid_ne_one hp hi hpid

theorem Inv.rooted (h : f.Inv) (he : f.Elder) :
    Rooted f.Parent f.HasPid pidInit BitVec.toNat where
  parent := by
    rintro x ⟨p, hp, rfl⟩ hne
    refine ⟨_, p, hp, ?_, rfl, rfl⟩
    rintro rfl
    exact hne h.initPid
  member := by
    rintro x y ⟨p, hp, -, -, rfl⟩
    exact h.parent p hp
  falls := by
    rintro x y ⟨p, hp, hi, rfl, rfl⟩
    exact he p hp hi

theorem Inv.hasPid_of_act (h : f.Inv) (hen : a.Enabled f) {x : Half}
    (hlt : x.toNat < f.nextPid.toNat) (hx : (a.apply f).HasPid x) : f.HasPid x := by
  obtain ⟨p, hp, rfl⟩ := hx
  cases h.comes hen hp with
  | born _ hpid _ => exact absurd (hpid ▸ hlt) (lt_irrefl _)
  | stays hfree hpid _ => exact ⟨p, hfree, hpid.symm⟩

/-- Who was there before has kept its parent or has `init` for one. -/
theorem Inv.parent_of_act (h : f.Inv) (hen : a.Enabled f) {x y : Half} (hx : f.HasPid x)
    (hxy : (a.apply f).Parent x y) : f.Parent x y ∨ y = pidInit := by
  obtain ⟨q, hq, hqx⟩ := hx
  obtain ⟨p, hp, hi, rfl, rfl⟩ := hxy
  rw [init_apply] at hi
  cases h.comes hen hp with
  | born _ hpid _ =>
      have hlt := h.pid_lt hq
      rw [hqx, hpid] at hlt
      exact absurd hlt (lt_irrefl _)
  | stays hfree hpid hppid =>
      rcases hppid with hppid | hppid
      · exact .inl ⟨p, hfree, hi, hpid.symm, hppid.symm⟩
      · exact .inr hppid

/-- All ancestors of a process were its ancestors before, as far back as
it existed. -/
theorem History.ancestors {acts : List Act} (hist : History f acts g) (h : f.Inv)
    (he : f.Elder) {x y : Half} (hx : f.HasPid x) (hxy : TransGen g.Parent x y) :
    TransGen f.Parent x y := by
  have hlt : x.toNat < f.nextPid.toNat := by
    obtain ⟨p, hp, rfl⟩ := hx
    exact h.pid_lt hp
  induction hist with
  | refl => exact hxy
  | @tail acts g a hist hen ih =>
      have hg := hist.inv h
      have hxg : g.HasPid x := by
        refine hg.hasPid_of_act hen (lt_of_lt_of_le hlt (hist.nextPid_le h)) ?_
        obtain ⟨z, ⟨p, hp, -, hpx, -⟩, -⟩ := TransGen.head'_iff.mp hxy
        exact ⟨p, hp, hpx⟩
      refine ih ?_
      exact (hg.rooted (hist.elder h he)).ancestor_of_adopted
        (fun x y hx hxy => hg.parent_of_act hen hx hxy)
        (not_parent_init (hg.act hen)) hxg hxy

end Family

/-! ## In the kernel -/

theorem Good.history (g : Good k) {k' : Kernel} {tr : List (Kernel × Event)}
    (hrun : Steps SpKernel.step k tr k') : ∃ acts, Family.History k.family acts k'.family
      ∧ List.Forall₂ (fun x a => Explains x.1.family x.1.current x.2 a) tr acts := by
  induction hrun with
  | refl => exact ⟨[], .refl, .nil⟩
  | @tail tr t t' e hpre hst ih =>
      obtain ⟨acts, hist, hall⟩ := ih
      have hsim := step_sim (hpre.inv (fun _ _ _ g h => g.step h) g) e
      rw [hst] at hsim
      obtain ⟨-, a, ha, hen, hf⟩ := hsim
      rw [hf]
      exact ⟨acts ++ [a], hist.tail hen, List.rel_append hall (.cons ha .nil)⟩

/-- Every run of the kernel is matched act by act by a history of the
family: which act is told by the event, it is possible at that point, and
what cannot be explained in this way does not happen, since an event that
fails does so for one of the expected reasons. -/
theorem runs_refine_family (h0 : init image mm pages = .ok k₀) (hrun : Steps step k₀ tr k) :
    (∃ p stk rest acts, Family.History (Family.first p stk rest) acts k.family
      ∧ List.Forall₂ (fun x a => Explains x.1.family x.1.current x.2 a) tr acts)
    ∧ ∀ e f, step k e = .error f → f.Expected := by
  obtain ⟨g₀, p, stk, rest, hf⟩ := init_spec h0
  obtain ⟨acts, hist, hall⟩ := g₀.history hrun
  exact ⟨⟨p, stk, rest, acts, hf ▸ hist, hall⟩, fun e f => (reachable_good h0 hrun).expected⟩

/-- `init` forks and waits; the child forks and exits. -/
theorem runs_refine_family_fork : ∃ k₀ tr k, init someImage lowPageUsed 0 = .ok k₀
    ∧ Steps step k₀ tr k ∧ tr.length = 4
    ∧ (∃ p stk rest acts, Family.History (Family.first p stk rest) acts k.family
      ∧ List.Forall₂ (fun x a => Explains x.1.family x.1.current x.2 a) tr acts)
    ∧ ∀ e f, step k e = .error f → f.Expected := by
  obtain ⟨k₀, tr, k, h0, hrun, hes, -⟩ := run_of_test
    [call 3 0 0 0, call 6 0 0 0, call 3 0 0 0, call 0 7 0 0] (fun _ => true) (by decide +kernel)
  have hlen := congrArg List.length hes
  rw [List.length_map] at hlen
  exact ⟨k₀, tr, k, h0, hrun, hlen, runs_refine_family h0 hrun⟩

theorem reachable_elder (h0 : init image mm pages = .ok k₀) (hrun : Steps step k₀ tr k) :
    k.family.Elder := by
  obtain ⟨g₀, p, stk, rest, hf⟩ := init_spec h0
  obtain ⟨acts, hist, -⟩ := g₀.history hrun
  refine hist.elder g₀.family ?_
  intro q hq hi
  rw [hf] at hq hi
  exact absurd (Family.first_only hq) hi

/-- In every reachable state the processes are a tree below `init`: who is
not `init` has one parent, parents are processes, every line of ancestors
leads to `init`, and nobody is its own ancestor. In the rest of the run a
process gets no ancestors that it does not have already. -/
theorem process_tree (h0 : init image mm pages = .ok k₀) (hrun : Steps step k₀ tr k) :
    (∀ x, k.family.HasPid x → x ≠ pidInit → ∃! y, k.family.Parent x y)
    ∧ (∀ x y, k.family.Parent x y → k.family.HasPid x ∧ k.family.HasPid y)
    ∧ (∀ x, k.family.HasPid x → ReflTransGen k.family.Parent x pidInit)
    ∧ (∀ x, ¬TransGen k.family.Parent x x)
    ∧ ∀ tr' k', Steps step k tr' k' → ∀ x y, k.family.HasPid x →
        TransGen k'.family.Parent x y → TransGen k.family.Parent x y := by
  have g := reachable_good h0 hrun
  have hroot := g.family.rooted (reachable_elder h0 hrun)
  refine ⟨fun x hx hne => ?_, fun x y hxy => ?_, fun x hx => hroot.reaches hx, hroot.not_own,
    fun tr' k' hrun' x y hx hxy => ?_⟩
  · obtain ⟨y, hy⟩ := hroot.parent x hx hne
    refine ⟨y, hy, ?_⟩
    rintro z ⟨q, hq, -, hqx, rfl⟩
    obtain ⟨p, hp, -, rfl, rfl⟩ := hy
    rw [g.family.pidInj q p hq hp hqx]
  · obtain ⟨p, hp, -, rfl, rfl⟩ := hxy
    exact ⟨⟨p, hp, rfl⟩, g.family.parent p hp⟩
  · obtain ⟨acts, hist, -⟩ := g.history hrun'
    exact hist.ancestors g.family (reachable_elder h0 hrun) hx hxy

/-- A grandchild whose parent exits: what was its grandparent is its parent. -/
theorem process_tree_adopted : ∃ k₀ tr k tr' k', init someImage lowPageUsed 0 = .ok k₀
    ∧ Steps step k₀ tr k ∧ Steps step k tr' k' ∧ k.family.Parent 101 100
    ∧ k'.family.Parent 101 pidInit ∧ TransGen k.family.Parent 101 pidInit := by
  -- `init` forks and sleeps, the child forks; then the child exits
  obtain ⟨k₀, tr, k, h0, hrun, -, ht⟩ := run_of_test
    [call 3 0 0 0, call 7 10 0 0, call 3 0 0 0]
    (fun k => decide ((k.family.members 2).mode ≠ .free) && decide (2 ≠ k.initPcb)
      && decide ((k.pcbs 2).pid = 101 ∧ (k.pcbs 2).ppid = 100)
      && okAnd (step k (call 0 0 0 0)) fun k' =>
        decide ((k'.family.members 2).mode ≠ .free ∧ 2 ≠ k'.initPcb
          ∧ (k'.pcbs 2).pid = 101 ∧ (k'.pcbs 2).ppid = pidInit)) (by decide +kernel)
  simp only [Bool.and_eq_true, decide_eq_true_eq] at ht
  obtain ⟨⟨⟨hmode, hinit⟩, hpid, hppid⟩, ht⟩ := ht
  obtain ⟨k', hk', ht'⟩ := of_okAnd ht
  obtain ⟨hmode', hinit', hpid', hppid'⟩ := of_decide_eq_true ht'
  have hrun' : Steps step k [(k, call 0 0 0 0)] k' := Steps.refl.tail hk'
  have hparent : k.family.Parent 101 100 := ⟨2, hmode, hinit, hpid, hppid⟩
  have hparent' : k'.family.Parent 101 pidInit := ⟨2, hmode', hinit', hpid', hppid'⟩
  exact ⟨k₀, tr, k, _, k', h0, hrun, hrun', hparent, hparent',
    (process_tree h0 hrun).2.2.2.2 _ k' hrun' 101 pidInit ⟨2, hmode, hpid⟩ (.single hparent')⟩

end SpKernel
