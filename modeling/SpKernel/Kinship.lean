import SpKernel.Family

/-!
# Acts preserve the family invariant

One section for each act, with the change of every `kidsOf` first: the
invariant needs only a lower bound on the counters, but the exact sets
are what the results on child accounting rest on.

- A birth gives its parent one child and nobody else any
  (`kidsOf_fork_parent`, `kidsOf_fork_child`, `kidsOf_fork_other`). The
  fields of the invariant are kept one by one, since most of them need
  only a part of what a birth does, and `Inv.fork` puts them together.
- A release takes one slot out of every set of children
  (`kidsOf_release`). Collecting is a release and one less to count
  (`reap_eq`).
- A death is in two parts, as in the source: `orphan` hands on the
  children, and `lay` either wakes the parent or leaves a zombie.
  Reparenting moves the children of the dead member to `init` and leaves
  every other set as it was (`Inv.kidsOf_orphan`), so `init` has as many
  children more as are strangers less (`Inv.card_strangers_orphan`),
  which is why its counter does not overflow
  (`Inv.orphan_init_children`). `Inv.lay_cases` says that the one parent
  is found, and whether it waits.

`Inv.act` is the result, by cases on the act, and the only one that is
used to follow a family through a run.
-/

namespace SpKernel

open Function (update update_self update_of_ne)

namespace Family

variable {f g : Family}

/-- Only who is a member, who is dead and who is whose child matters; a
counter may go down as long as it stays above the number of children. -/
theorem Inv.recount (h : f.Inv) (hinit : g.init = f.init) (hnext : g.nextPid = f.nextPid)
    (hstk : g.freeStacks = f.freeStacks)
    (hfree : ∀ p, (g.members p).mode = .free ↔ (f.members p).mode = .free)
    (hdead : ∀ p, (g.members p).mode.Dead → (f.members p).mode.Dead)
    (hpid : ∀ p, (g.members p).pid = (f.members p).pid)
    (hppid : ∀ p, (g.members p).ppid = (f.members p).ppid)
    (hown : ∀ p, (g.members p).stack = (f.members p).stack)
    (hcount : ∀ p, (g.members p).mode.Live →
      (f.kidsOf p).card ≤ (g.members p).children.toNat)
    (hless : ∀ p, (g.members p).children.toNat ≤ (f.members p).children.toNat) : g.Inv := by
  have hk : ∀ p, g.kidsOf p = f.kidsOf p := fun p => kidsOf_congr hfree hppid (hpid p)
  have hs : g.strangers = f.strangers := strangers_congr hinit hfree hppid
  constructor <;> simp only [hinit, hnext, hstk, hfree, hpid, hppid, hown, hk, hs, ne_eq]
  · exact h.initMode
  · exact h.initPid
  · exact h.initPpid
  · exact h.nextPid
  · exact h.pids
  · exact h.pidInj
  · exact h.freed
  · exact h.parent
  · exact h.notSelf
  · exact hcount
  · exact fun p hp => h.barren p (hdead p hp)
  · exact fun p hp hi => le_trans (Nat.add_le_add_right (hless p) _) (h.bounded p hp hi)
  · have := h.spare
    have := hless f.init
    omega
  · exact h.stackNodup
  · exact h.owns
  · exact h.ownsInj

theorem Inv.reports (h : f.Inv) (rs : List Report) : ({ f with reports := rs } : Family).Inv :=
  h.recount rfl rfl rfl (fun _ => Iff.rfl) (fun _ => id) (fun _ => rfl) (fun _ => rfl)
    (fun _ => rfl) h.counted fun _ => le_refl _

theorem members_set (f : Family) (p q : PcbId) (m : Member) :
    (f.set p m).members q = if q = p then m else f.members q :=
  Function.update_apply ..

theorem ne_of_mode {p q : PcbId} {m m' : Mode} (hp : (f.members p).mode = m)
    (hq : (f.members q).mode = m') (hm : m' ≠ m) : q ≠ p := by
  rintro rfl
  exact hm (hq.symm.trans hp)

theorem toNat_succ {x : Half} (h : x.toNat < 65535) : (x + 1).toNat = x.toNat + 1 := by
  rw [BitVec.toNat_add, show (1 : Half).toNat = 1 from rfl]
  omega

theorem Inv.pid_lt (h : f.Inv) {p : PcbId} (hp : (f.members p).mode ≠ .free) :
    (f.members p).pid.toNat < f.nextPid.toNat := by
  rcases eq_or_ne p f.init with rfl | hi
  · rw [h.initPid]
    exact lt_of_lt_of_le (by decide) h.nextPid.1
  · exact (h.pids p hp hi).2

theorem Inv.children_le (h : f.Inv) {p : PcbId} (hp : (f.members p).mode ≠ .free) :
    (f.members p).children.toNat + 100 ≤ f.nextPid.toNat := by
  rcases eq_or_ne p f.init with rfl | hi
  · have := h.spare
    omega
  · exact h.bounded p hp hi

theorem Inv.setMode (h : f.Inv) {p : PcbId} {m : Mode} (hp : (f.members p).mode.Live)
    (hm : m.Live) : (f.set p ((f.members p).setMode m)).Inv := by
  refine h.recount rfl rfl rfl (fun q => ?_) (fun q => ?_) (fun q => ?_) (fun q => ?_)
    (fun q => ?_) (fun q => ?_) (fun q => ?_) <;> rw [members_set] <;> split
  · rename_i hq
    simp [hq, hp.ne_free, hm.ne_free]
  · exact Iff.rfl
  · exact fun hd => absurd hm hd.not_live
  · exact id
  iterate 3
    · rename_i hq
      rw [hq]
      rfl
    · rfl
  · rename_i hq
    exact fun _ => hq ▸ h.counted p hp
  · exact h.counted q
  · rename_i hq
    exact hq ▸ le_refl _
  · exact le_refl _

/-- A counter above the number of children can go down by one. -/
theorem Inv.uncount (h : f.Inv) {p : PcbId}
    (hc : (f.kidsOf p).card + 1 ≤ (f.members p).children.toNat) :
    (f.set p ((f.members p).setChildren ((f.members p).children - 1))).Inv := by
  have hdec : ((f.members p).children - 1).toNat = (f.members p).children.toNat - 1 := by
    have := (f.members p).children.isLt
    rw [BitVec.toNat_sub, show (1 : Half).toNat = 1 from rfl]
    omega
  refine h.recount rfl rfl rfl (fun q => ?_) (fun q => ?_) (fun q => ?_) (fun q => ?_)
    (fun q => ?_) (fun q => ?_) (fun q => ?_) <;> rw [members_set] <;> split
  · rename_i hq
    rw [hq]
    rfl
  · exact Iff.rfl
  · rename_i hq
    rw [hq]
    exact id
  · exact id
  iterate 3
    · rename_i hq
      rw [hq]
      rfl
    · rfl
  · rename_i hq
    rw [Member.setChildren_children, hdec, hq]
    exact fun _ => by omega
  · exact h.counted q
  · rename_i hq
    rw [Member.setChildren_children, hdec, hq]
    omega
  · exact le_refl _

/-! ## Birth -/

section Fork

variable {p new : PcbId} {stk : StackId}

theorem fork_members (f : Family) (q : PcbId) :
    (f.fork p new stk).members q
      = if q = p then (f.members p).setChildren ((f.members p).children + 1)
        else if q = new then (f.members p).born f.nextPid stk
        else f.members q := by
  simp only [fork, Function.update_apply]

theorem kidsOf_fork_parent (hp : (f.members p).mode = .active)
    (hnew : (f.members new).mode = .free) :
    (f.fork p new stk).kidsOf p = insert new (f.kidsOf p) := by
  have hne : new ≠ p := ne_of_mode hp hnew (by decide)
  ext q
  simp only [mem_kidsOf, Finset.mem_insert, fork_members f]
  rcases eq_or_ne q p with rfl | hqp
  · simp [hne.symm]
  · rcases eq_or_ne q new with rfl | hqn
    · simp [hqp]
    · simp [hqp, hqn]

theorem kidsOf_fork_child (h : f.Inv) (hp : (f.members p).mode = .active)
    (hnew : (f.members new).mode = .free) : (f.fork p new stk).kidsOf new = ∅ := by
  have hne : new ≠ p := ne_of_mode hp hnew (by decide)
  -- nobody can already have the next PID for a parent
  have hfresh : ∀ q, (f.members q).mode ≠ .free → (f.members q).ppid ≠ f.nextPid := by
    intro q hq he
    obtain ⟨r, hr, hpid⟩ := h.parent q hq
    rcases eq_or_ne r f.init with rfl | hri
    · rw [h.initPid, he] at hpid
      have := h.nextPid.1
      rw [← hpid] at this
      exact absurd this (by decide)
    · have := (h.pids r hr hri).2
      rw [hpid, he] at this
      exact absurd this (lt_irrefl _)
  rw [Finset.eq_empty_iff_forall_notMem]
  intro q
  simp only [mem_kidsOf, fork_members f]
  rintro ⟨hqn, hq, he⟩
  simp only [hqn, ↓reduceIte, hne] at hq he
  rcases eq_or_ne q p with rfl | hqp
  · exact hfresh q (by simp [hp]) (by simpa using he)
  · simp only [hqp, ↓reduceIte] at hq he
    exact hfresh q hq he

theorem kidsOf_fork_other (h : f.Inv) (hp : (f.members p).mode = .active)
    (hnew : (f.members new).mode = .free) {x : PcbId} (hx : (f.members x).mode ≠ .free)
    (hxp : x ≠ p) : (f.fork p new stk).kidsOf x = f.kidsOf x := by
  have hne : new ≠ p := ne_of_mode hp hnew (by decide)
  have hxn : x ≠ new := by rintro rfl; exact hx hnew
  have hpp : (f.members p).pid ≠ (f.members x).pid := by
    intro he
    exact hxp (h.pidInj x p hx (by simp [hp]) he.symm)
  ext q
  simp only [mem_kidsOf, fork_members f, hxp, hxn, ↓reduceIte]
  rcases eq_or_ne q p with rfl | hqp
  · simp
  · rcases eq_or_ne q new with rfl | hqn
    · simp [hqp, hpp, hnew]
    · simp [hqp, hqn]

theorem strangers_fork (hp : (f.members p).mode = .active)
    (hnew : (f.members new).mode = .free) :
    (f.fork p new stk).strangers ⊆ insert new f.strangers
    ∧ ((f.members p).pid = pidInit → (f.fork p new stk).strangers = f.strangers) := by
  have hne : new ≠ p := ne_of_mode hp hnew (by decide)
  have key : ∀ q, q ∈ (f.fork p new stk).strangers ↔
      q ∈ f.strangers ∨ q = new ∧ q ≠ f.init ∧ (f.members p).pid ≠ pidInit := by
    intro q
    simp only [mem_strangers, fork_members f,
      show (f.fork p new stk).init = f.init from rfl]
    rcases eq_or_ne q p with rfl | hqp
    · simp [hne.symm]
    · rcases eq_or_ne q new with rfl | hqn
      · simp [hqp, hnew]
      · simp [hqp, hqn]
  constructor
  · intro q hq
    rcases (key q).mp hq with hq | ⟨rfl, -⟩
    · exact Finset.mem_insert_of_mem hq
    · exact Finset.mem_insert_self ..
  · intro h1
    ext q
    simp [key, h1]

/-- A birth changes nothing about the others but the parent's counter. -/
theorem fork_old (f : Family) (p : PcbId) (stk : StackId) {q : PcbId} (hq : q ≠ new) :
    ((f.fork p new stk).members q).mode = (f.members q).mode
    ∧ ((f.fork p new stk).members q).pid = (f.members q).pid
    ∧ ((f.fork p new stk).members q).ppid = (f.members q).ppid
    ∧ ((f.fork p new stk).members q).stack = (f.members q).stack := by
  rw [fork_members f]
  rcases eq_or_ne q p with rfl | hqp
  · simp
  · simp [hqp, hq]

theorem fork_new (f : Family) (stk : StackId) (hne : new ≠ p) :
    (f.fork p new stk).members new = (f.members p).born f.nextPid stk := by
  rw [fork_members, if_neg hne, if_pos rfl]

theorem fork_parent (f : Family) (p new : PcbId) (stk : StackId) :
    (f.fork p new stk).members p = (f.members p).setChildren ((f.members p).children + 1) := by
  rw [fork_members, if_pos rfl]

theorem fork_other (f : Family) (stk : StackId) {q : PcbId} (hqn : q ≠ new) (hqp : q ≠ p) :
    (f.fork p new stk).members q = f.members q := by
  rw [fork_members, if_neg hqp, if_neg hqn]

theorem fork_ne_free {q : PcbId} (hq : ((f.fork p new stk).members q).mode ≠ .free)
    (hqn : q ≠ new) : (f.members q).mode ≠ .free :=
  (fork_old f p stk hqn).1 ▸ hq

theorem fork_stacks (hstk : f.freeStacks.head? = some stk) :
    f.freeStacks = stk :: (f.fork p new stk).freeStacks :=
  List.eq_cons_of_mem_head? hstk

theorem Inv.fork_children (h : f.Inv) (hp : (f.members p).mode = .active) :
    ((f.fork p new stk).members p).children.toNat = (f.members p).children.toNat + 1 := by
  have hle := h.children_le (p := p) (hp.trans_ne (by decide))
  have hn := h.nextPid.2
  rw [fork_parent, Member.setChildren_children, toNat_succ (by omega)]

/-- A value that nobody else has keeps a field injective. -/
theorem injective_of_fresh {α β : Type*} {P : α → Prop} (field : α → β) {new : α} {v : β}
    (hv : field new = v) (hfresh : ∀ x, x ≠ new → P x → field x ≠ v)
    (hold : ∀ q r, q ≠ new → r ≠ new → P q → P r → field q = field r → q = r) {q r : α}
    (hq : P q) (hr : P r) (he : field q = field r) : q = r := by
  rcases eq_or_ne q new with rfl | hqn
  · by_contra hrq
    exact hfresh r (Ne.symm hrq) hr (he.symm.trans hv)
  · rcases eq_or_ne r new with rfl | hrn
    · exact absurd (he.trans hv) (hfresh q hqn hq)
    · exact hold q r hqn hrn hq hr he

section Preserve

variable (h : f.Inv) (hp : (f.members p).mode = .active) (hnew : (f.members new).mode = .free)
include h hp hnew

theorem Inv.fork_pids {q : PcbId}
    (hq : ((f.fork p new stk).members q).mode ≠ .free) (hqi : q ≠ f.init) :
    100 ≤ ((f.fork p new stk).members q).pid.toNat
      ∧ ((f.fork p new stk).members q).pid.toNat < f.nextPid.toNat + 1 := by
  rcases eq_or_ne q new with rfl | hqn
  · rw [fork_new f stk (ne_of_mode hp hnew (by decide))]
    exact ⟨h.nextPid.1, Nat.lt_succ_self _⟩
  · rw [(fork_old f p stk hqn).2.1]
    have := h.pids q (fork_ne_free hq hqn) hqi
    omega

theorem Inv.fork_pidInj {q r : PcbId} (hq : ((f.fork p new stk).members q).mode ≠ .free)
    (hr : ((f.fork p new stk).members r).mode ≠ .free)
    (he : ((f.fork p new stk).members q).pid = ((f.fork p new stk).members r).pid) : q = r := by
  have hN : ((f.fork p new stk).members new).pid = f.nextPid := by
    rw [fork_new f stk (ne_of_mode hp hnew (by decide)), Member.born_pid]
  -- nobody else has the next PID
  have hfresh : ∀ x, x ≠ new → ((f.fork p new stk).members x).mode ≠ .free →
      ((f.fork p new stk).members x).pid ≠ f.nextPid := by
    intro x hxn hx hc
    rw [(fork_old f p stk hxn).2.1] at hc
    exact absurd (hc ▸ h.pid_lt (fork_ne_free hx hxn)) (lt_irrefl _)
  refine injective_of_fresh (fun x => ((f.fork p new stk).members x).pid) hN hfresh
    (fun q r hqn hrn hq hr he => ?_) hq hr he
  rw [(fork_old f p stk hqn).2.1, (fork_old f p stk hrn).2.1] at he
  exact h.pidInj q r (fork_ne_free hq hqn) (fork_ne_free hr hrn) he

theorem Inv.fork_hasParent {q : PcbId} (hq : ((f.fork p new stk).members q).mode ≠ .free) :
    ∃ r, ((f.fork p new stk).members r).mode ≠ .free
      ∧ ((f.fork p new stk).members r).pid = ((f.fork p new stk).members q).ppid := by
  have hne : new ≠ p := ne_of_mode hp hnew (by decide)
  rcases eq_or_ne q new with rfl | hqn
  · obtain ⟨hmode, hpid, -, -⟩ := fork_old f p stk hne.symm
    refine ⟨p, by rw [hmode, hp]; decide, ?_⟩
    rw [fork_new f stk hne, hpid, Member.born_ppid]
  · obtain ⟨r, hr, he⟩ := h.parent q (fork_ne_free hq hqn)
    have hrn : r ≠ new := fun hc => hr (hc ▸ hnew)
    obtain ⟨hmode, hpid, -, -⟩ := fork_old f p stk hrn
    refine ⟨r, hmode ▸ hr, ?_⟩
    rw [hpid, (fork_old f p stk hqn).2.2.1, he]

theorem Inv.fork_notSelf {q : PcbId} (hq : ((f.fork p new stk).members q).mode ≠ .free)
    (he : ((f.fork p new stk).members q).ppid = ((f.fork p new stk).members q).pid) :
    q = f.init := by
  rcases eq_or_ne q new with rfl | hqn
  · rw [fork_new f stk (ne_of_mode hp hnew (by decide)), Member.born_ppid, Member.born_pid] at he
    have := h.pid_lt (p := p) (hp.trans_ne (by decide))
    rw [he] at this
    exact absurd this (lt_irrefl _)
  · rw [(fork_old f p stk hqn).2.1, (fork_old f p stk hqn).2.2.1] at he
    exact h.notSelf q (fork_ne_free hq hqn) he

theorem Inv.fork_counted {q : PcbId} (hq : ((f.fork p new stk).members q).mode.Live) :
    ((f.fork p new stk).kidsOf q).card ≤ ((f.fork p new stk).members q).children.toNat := by
  rcases eq_or_ne q new with rfl | hqn
  · rw [kidsOf_fork_child h hp hnew]
    exact Nat.zero_le _
  · rcases eq_or_ne q p with rfl | hqp
    · rw [kidsOf_fork_parent hp hnew, h.fork_children hp, Finset.card_insert_of_notMem]
      · exact Nat.succ_le_succ (h.counted q (.inl hp))
      · exact fun hc => (mem_kidsOf.mp hc).2.1 hnew
    · rw [fork_other f stk hqn hqp] at hq ⊢
      rw [kidsOf_fork_other h hp hnew hq.ne_free hqp]
      exact h.counted q hq

theorem Inv.fork_barren {q : PcbId} (hq : ((f.fork p new stk).members q).mode.Dead)
    (hqi : q ≠ f.init) : (f.fork p new stk).kidsOf q = ∅ := by
  rcases eq_or_ne q new with rfl | hqn
  · exact kidsOf_fork_child h hp hnew
  · rcases eq_or_ne q p with rfl | hqp
    · rw [fork_parent] at hq
      exact absurd (.inl hp) hq.not_live
    · rw [fork_other f stk hqn hqp] at hq
      rw [kidsOf_fork_other h hp hnew hq.ne_free hqp]
      exact h.barren q hq hqi

theorem Inv.fork_bounded {q : PcbId} (hq : ((f.fork p new stk).members q).mode ≠ .free)
    (hqi : q ≠ f.init) :
    ((f.fork p new stk).members q).children.toNat + 100 ≤ f.nextPid.toNat + 1 := by
  have hle := h.children_le (p := p) (hp.trans_ne (by decide))
  rcases eq_or_ne q new with rfl | hqn
  · rw [fork_new f stk (ne_of_mode hp hnew (by decide)), Member.born_children]
    omega
  · rcases eq_or_ne q p with rfl | hqp
    · rw [h.fork_children hp]
      omega
    · rw [fork_other f stk hqn hqp]
      have := h.bounded q (fork_ne_free hq hqn) hqi
      omega

theorem Inv.fork_spare : ((f.fork p new stk).members f.init).children.toNat
    + (f.fork p new stk).strangers.card + 100 ≤ f.nextPid.toNat + 1 := by
  have hinit : f.init ≠ new := fun hc => h.initMode (hc ▸ hnew)
  obtain ⟨hsub, hsame⟩ : (f.fork p new stk).strangers ⊆ _ ∧ _ := strangers_fork hp hnew
  have hsp := h.spare
  rcases eq_or_ne p f.init with rfl | hpi
  · rw [hsame h.initPid, h.fork_children hp]
    omega
  · have hcard := (Finset.card_le_card hsub).trans (Finset.card_insert_le ..)
    rw [fork_other f stk hinit hpi.symm]
    omega

theorem Inv.fork_owns (hstk : f.freeStacks.head? = some stk) {q : PcbId}
    (hq : ((f.fork p new stk).members q).mode ≠ .free) :
    ∃ s, ((f.fork p new stk).members q).stack = some s ∧ s ∉ (f.fork p new stk).freeStacks := by
  have hrest : f.freeStacks = stk :: (f.fork p new stk).freeStacks := fork_stacks hstk
  have hnd := hrest ▸ h.stackNodup
  rcases eq_or_ne q new with rfl | hqn
  · rw [fork_new f stk (ne_of_mode hp hnew (by decide))]
    exact ⟨stk, rfl, (List.nodup_cons.mp hnd).1⟩
  · obtain ⟨s, hs, hnot⟩ := h.owns q (fork_ne_free hq hqn)
    rw [hrest] at hnot
    exact ⟨s, (fork_old f p stk hqn).2.2.2.trans hs, fun hc => hnot (List.mem_cons_of_mem _ hc)⟩

theorem Inv.fork_ownsInj (hstk : f.freeStacks.head? = some stk) {q r : PcbId}
    (hq : ((f.fork p new stk).members q).mode ≠ .free)
    (hr : ((f.fork p new stk).members r).mode ≠ .free)
    (he : ((f.fork p new stk).members q).stack = ((f.fork p new stk).members r).stack) :
    q = r := by
  have hrest : f.freeStacks = stk :: (f.fork p new stk).freeStacks := fork_stacks hstk
  have hN : ((f.fork p new stk).members new).stack = some stk := by
    rw [fork_new f stk (ne_of_mode hp hnew (by decide)), Member.born_stack]
  -- the stack was free, so nobody else has it
  have hfresh : ∀ x, x ≠ new → ((f.fork p new stk).members x).mode ≠ .free →
      ((f.fork p new stk).members x).stack ≠ some stk := by
    intro x hxn hx hc
    obtain ⟨s, hs, hnot⟩ := h.owns x (fork_ne_free hx hxn)
    rw [(fork_old f p stk hxn).2.2.2, hs] at hc
    rw [Option.some.inj hc, hrest] at hnot
    exact hnot (List.mem_cons_self ..)
  refine injective_of_fresh (fun x => ((f.fork p new stk).members x).stack) hN hfresh
    (fun q r hqn hrn hq hr he => ?_) hq hr he
  rw [(fork_old f p stk hqn).2.2.2, (fork_old f p stk hrn).2.2.2] at he
  exact h.ownsInj q r (fork_ne_free hq hqn) (fork_ne_free hr hrn) he

end Preserve

theorem Inv.fork (h : f.Inv) (hen : (Act.fork p new stk).Enabled f) :
    (f.fork p new stk).Inv := by
  obtain ⟨hp, hnew, hstk, hlt⟩ := hen
  have hinit : f.init ≠ new := fun hc => h.initMode (hc ▸ hnew)
  obtain ⟨hmode, hpid, hppid, -⟩ := fork_old f p stk hinit
  have hnext : (f.fork p new stk).nextPid.toNat = f.nextPid.toNat + 1 := toNat_succ (by omega)
  have hn := h.nextPid
  have hrest : f.freeStacks = stk :: (f.fork p new stk).freeStacks := fork_stacks hstk
  refine ⟨hmode ▸ h.initMode, hpid.trans h.initPid, hppid.trans h.initPpid, ?_, ?_, ?_, ?_, ?_, ?_,
    ?_, ?_, ?_, ?_, ?_, ?_, ?_⟩
  · rw [hnext]
    omega
  · rw [hnext]
    exact fun q hq hqi => h.fork_pids hp hnew hq hqi
  · exact fun q r hq hr => h.fork_pidInj hp hnew hq hr
  · intro q hq
    have hqn : q ≠ new := by
      rintro rfl
      rw [fork_new f stk (ne_of_mode hp hnew (by decide))] at hq
      cases hq
    obtain ⟨hmode, hpid, hppid, -⟩ := fork_old f p stk hqn
    rw [hpid, hppid]
    exact h.freed q (hmode ▸ hq)
  · exact fun q hq => h.fork_hasParent hp hnew hq
  · exact fun q hq => h.fork_notSelf hp hnew hq
  · exact fun q hq => h.fork_counted hp hnew hq
  · exact fun q hq hqi => h.fork_barren hp hnew hq hqi
  · rw [hnext]
    exact fun q hq hqi => h.fork_bounded hp hnew hq hqi
  · rw [hnext]
    exact h.fork_spare hp hnew
  · exact (List.nodup_cons.mp (hrest ▸ h.stackNodup)).2
  · exact fun q hq => h.fork_owns hp hnew hstk hq
  · exact fun q r hq hr => h.fork_ownsInj hp hnew hstk hq hr

end Fork

/-! ## Release -/

section Release

variable {p v z : PcbId}

theorem members_release (f : Family) (v q : PcbId) :
    (f.release v).members q = if q = v then (f.members v).gone else f.members q :=
  Function.update_apply ..

theorem kidsOf_release {x : PcbId} (hx : x ≠ v) :
    (f.release v).kidsOf x = (f.kidsOf x).erase v := by
  ext q
  simp only [mem_kidsOf, members_release, Finset.mem_erase, hx, ↓reduceIte]
  rcases eq_or_ne q v with rfl | hq
  · simp
  · simp [hq]

theorem strangers_release : (f.release v).strangers = f.strangers.erase v := by
  ext q
  simp only [mem_strangers, members_release, Finset.mem_erase,
    show (f.release v).init = f.init from rfl]
  rcases eq_or_ne q v with rfl | hq
  · simp
  · simp [hq]

theorem Inv.release (h : f.Inv) (hv : (f.members v).mode.Dead) (hi : v ≠ f.init) :
    (f.release v).Inv := by
  have hM := members_release f v
  have hO : ∀ {q}, q ≠ v → (f.release v).members q = f.members q := by
    intro q hq
    rw [hM, if_neg hq]
  have hne : ∀ {q}, ((f.release v).members q).mode ≠ .free → q ≠ v := by
    rintro q hq rfl
    rw [hM, if_pos rfl] at hq
    exact hq rfl
  obtain ⟨s, hs, hsf⟩ := h.owns v hv.ne_free
  have hstk : (f.release v).freeStacks = f.freeStacks ++ [s] := by
    simp [Family.release, hs]
  have hlive : ∀ {q : PcbId}, ((f.release v).members q).mode.Live → q ≠ v :=
    fun hq => hne hq.ne_free
  refine ⟨?_, ?_, ?_, h.nextPid, ?_, ?_, ?_, ?_, ?_, ?_, ?_, ?_, ?_, ?_, ?_, ?_⟩
  · exact hO hi.symm ▸ h.initMode
  · exact hO hi.symm ▸ h.initPid
  · exact hO hi.symm ▸ h.initPpid
  · intro q hq hqi
    have hqv := hne hq
    rw [hO hqv] at hq ⊢
    exact h.pids q hq hqi
  · intro q r hq hr
    have hqv := hne hq
    have hrv := hne hr
    rw [hO hqv] at hq ⊢
    rw [hO hrv] at hr ⊢
    exact h.pidInj q r hq hr
  · intro q hq
    rcases eq_or_ne q v with rfl | hqv
    · rw [hM, if_pos rfl]
      exact ⟨rfl, rfl⟩
    · rw [hO hqv] at hq ⊢
      exact h.freed q hq
  · intro q hq
    have hqv := hne hq
    rw [hO hqv] at hq ⊢
    obtain ⟨r, hr, he⟩ := h.parent q hq
    -- the parent is not the one released: that one had no children
    have hrv : r ≠ v := by
      rintro rfl
      have hmem : q ∈ f.kidsOf r := mem_kidsOf.mpr ⟨hqv, hq, he.symm⟩
      rw [h.barren r hv hi] at hmem
      simp at hmem
    exact ⟨r, by rw [hO hrv]; exact hr, by rw [hO hrv]; exact he⟩
  · intro q hq he
    have hqv := hne hq
    rw [hO hqv] at hq he
    exact h.notSelf q hq he
  · intro q hq
    have hqv := hlive hq
    rw [hO hqv] at hq ⊢
    rw [kidsOf_release hqv]
    exact (Finset.card_erase_le).trans (h.counted q hq)
  · intro q hq hqi
    have hqv := hne hq.ne_free
    rw [hO hqv] at hq
    rw [kidsOf_release hqv, h.barren q hq hqi, Finset.erase_empty]
  · intro q hq hqi
    have hqv := hne hq
    rw [hO hqv] at hq ⊢
    exact h.bounded q hq hqi
  · have hcard : (f.release v).strangers.card ≤ f.strangers.card := by
      rw [strangers_release]
      exact Finset.card_erase_le
    have := h.spare
    rw [show (f.release v).init = f.init from rfl, hO hi.symm]
    exact le_trans (by omega) this
  · rw [hstk, List.nodup_append_comm]
    exact List.nodup_cons.mpr ⟨hsf, h.stackNodup⟩
  · intro q hq
    have hqv := hne hq
    rw [hO hqv] at hq ⊢
    obtain ⟨t, ht, hnot⟩ := h.owns q hq
    refine ⟨t, ht, ?_⟩
    rw [hstk, List.mem_append, List.mem_singleton]
    rintro (hc | rfl)
    · exact hnot hc
    · exact hqv (h.ownsInj q v hq hv.ne_free (ht.trans hs.symm))
  · intro q r hq hr
    have hqv := hne hq
    have hrv := hne hr
    rw [hO hqv] at hq ⊢
    rw [hO hrv] at hr ⊢
    exact h.ownsInj q r hq hr

/-! ## Collecting a dead child -/

theorem reap_eq (hne : z ≠ p) : ∃ rs, f.reap p z
    = { (f.release z).set p (((f.release z).members p).setChildren
        (((f.release z).members p).children - 1)) with reports := rs } := by
  refine ⟨(f.reap p z).reports, ?_⟩
  have hz : (f.set p ((f.members p).setChildren ((f.members p).children - 1))).members z
      = f.members z := by
    rw [members_set, if_neg hne]
  have hp : (f.release z).members p = f.members p := by
    rw [members_release, if_neg hne.symm]
  rw [hp]
  simp only [reap, handOver, Family.release, hz]
  simp only [Family.set, Function.update_comm hne]

theorem Inv.reap (h : f.Inv) (hen : (Act.reap p z).Enabled f) : (f.reap p z).Inv := by
  obtain ⟨hp, hc, hz, he⟩ := hen
  have hne : z ≠ p := ne_of_mode hp hz (by decide)
  have hzi : z ≠ f.init := by
    rintro rfl
    have hpi : p = f.init :=
      h.pidInj p f.init (by simp [hp]) h.initMode (by rw [← he, h.initPpid, h.initPid])
    exact hne hpi.symm
  have hrel := h.release (.inr hz) hzi
  have hpM : (f.release z).members p = f.members p := by
    rw [members_release, if_neg hne.symm]
  have hmem : z ∈ f.kidsOf p := mem_kidsOf.mpr ⟨hne, by simp [hz], he⟩
  obtain ⟨rs, hrs⟩ := reap_eq (f := f) hne
  rw [hrs]
  refine (hrel.uncount ?_).reports rs
  rw [hpM, kidsOf_release hne.symm, Finset.card_erase_add_one hmem]
  exact h.counted p (.inl hp)

end Release

/-! ## Death -/

section Death

variable {p v : PcbId} {m : Mode} {status : Word}

/-- `v` is marked as dead and its children are reparented. -/
def orphan (f : Family) (v : PcbId) (m : Mode) (status : Word) : Family :=
  (f.set v ((f.members v).die m status)).reparent v

theorem kids_length (f : Family) (pid : Half) :
    (f.kids pid).length = (Finset.univ.filter fun p => (f.members p).ppid = pid).card := by
  have hnd : (f.kids pid).Nodup := (List.nodup_finRange _).filter _
  rw [← List.toFinset_card_of_nodup hnd]
  congr 1
  ext p
  simp [kids]

theorem set_die_pid (f : Family) (v q : PcbId) :
    ((f.set v ((f.members v).die m status)).members q).pid = (f.members q).pid := by
  rw [members_set]
  split
  · rename_i h; rw [h]; rfl
  · rfl

theorem set_die_ppid (f : Family) (v q : PcbId) :
    ((f.set v ((f.members v).die m status)).members q).ppid = (f.members q).ppid := by
  rw [members_set]
  split
  · rename_i h; rw [h]; rfl
  · rfl

theorem set_die_children (f : Family) (v q : PcbId) :
    ((f.set v ((f.members v).die m status)).members q).children = (f.members q).children := by
  rw [members_set]
  split
  · rename_i h; rw [h]; rfl
  · rfl

theorem orphan_mode (f : Family) (v q : PcbId) :
    ((f.orphan v m status).members q).mode = if q = v then m else (f.members q).mode := by
  simp only [orphan, reparent, members_set]
  split <;> rfl

theorem orphan_pid (f : Family) (v q : PcbId) :
    ((f.orphan v m status).members q).pid = (f.members q).pid :=
  set_die_pid ..

theorem orphan_ppid (f : Family) (v q : PcbId) :
    ((f.orphan v m status).members q).ppid
      = if (f.members q).ppid = (f.members v).pid then pidInit else (f.members q).ppid := by
  simp only [orphan, reparent, set_die_pid, set_die_ppid]

theorem orphan_children (f : Family) (v q : PcbId) :
    ((f.orphan v m status).members q).children
      = if q = v then 0
        else if q = f.init then
          (f.members q).children + BitVec.ofNat 16 (f.kids (f.members v).pid).length
        else (f.members q).children := by
  simp only [orphan, reparent, set_die_pid, set_die_children, kids, set_die_ppid]
  rfl

theorem orphan_exitstatus (f : Family) (v q : PcbId) :
    ((f.orphan v m status).members q).exitstatus
      = if q = v then status else (f.members q).exitstatus := by
  simp only [orphan, reparent, members_set]
  split <;> rfl

theorem orphan_stack (f : Family) (v q : PcbId) :
    ((f.orphan v m status).members q).stack = (f.members q).stack := by
  simp only [orphan, reparent, members_set]
  split
  · rename_i h; rw [h]; rfl
  · rfl

theorem orphan_free (hv : (f.members v).mode.Live) (hm : m.Dead) (q : PcbId) :
    ((f.orphan v m status).members q).mode = .free ↔ (f.members q).mode = .free := by
  rw [orphan_mode]
  split
  · rename_i h
    simp [h, hm.ne_free, hv.ne_free]
  · exact Iff.rfl

/-- The slots with `v` for a parent are its children, unless `v` is `init`. -/
theorem Inv.kids_eq (h : f.Inv) (hv : (f.members v).mode ≠ .free) (hi : v ≠ f.init) :
    (Finset.univ.filter fun p => (f.members p).ppid = (f.members v).pid) = f.kidsOf v := by
  ext q
  simp only [Finset.mem_filter, Finset.mem_univ, true_and, mem_kidsOf]
  refine ⟨fun he => ⟨?_, ?_, he⟩, fun hq => hq.2.2⟩
  · rintro rfl
    exact hi (h.notSelf q hv he)
  · intro hz
    rw [(h.freed q hz).2] at he
    exact h.pid_ne_free hv he.symm

/-- Where the counter is zero there is nobody to reparent. -/
theorem Inv.reparent_zero (h : f.Inv) (hv : (f.members v).mode.Live)
    (h0 : (f.members v).children = 0) :
    f.set v ((f.members v).die m status) = f.orphan v m status := by
  have hcard : (f.kidsOf v).card = 0 := by
    have := h.counted v hv
    rw [h0] at this
    exact Nat.le_zero.mp this
  have hnone : f.kidsOf v = ∅ := Finset.card_eq_zero.mp hcard
  have hpp : ∀ q, (f.members q).ppid = (f.members v).pid → (f.members q).ppid = pidInit := by
    intro q he
    rcases eq_or_ne v f.init with rfl | hi
    · rw [he, h.initPid]
    · have hmem : q ∈ Finset.univ.filter fun p => (f.members p).ppid = (f.members v).pid := by
        simpa using he
      rw [h.kids_eq hv.ne_free hi, hnone] at hmem
      simp at hmem
  have hlen : v ≠ f.init → (f.kids (f.members v).pid).length = 0 := by
    intro hi
    rw [kids_length, h.kids_eq hv.ne_free hi, hnone, Finset.card_empty]
  have hmem : ∀ q, (f.set v ((f.members v).die m status)).members q
      = (f.orphan v m status).members q := by
    intro q
    have hppid : ((f.orphan v m status).members q).ppid = _ := orphan_ppid f v q
    have hch : ((f.orphan v m status).members q).children = _ := orphan_children f v q
    have hmode : ((f.orphan v m status).members q).mode = _ := orphan_mode f v q
    have hex : ((f.orphan v m status).members q).exitstatus = _ := orphan_exitstatus f v q
    have hstk : ((f.orphan v m status).members q).stack = _ := orphan_stack f v q
    have hpid : ((f.orphan v m status).members q).pid = _ := orphan_pid f v q
    have hppid' : ((f.orphan v m status).members q).ppid = (f.members q).ppid := by
      rw [hppid]
      split
      · rename_i he
        exact (hpp q he).symm
      · rfl
    have hch' : ((f.orphan v m status).members q).children = (f.members q).children := by
      rw [hch]
      split
      · rename_i hq
        rw [hq, h0]
      · split
        · rename_i hqv hqi
          rw [hlen (by rintro rfl; exact hqv hqi)]
          exact BitVec.add_zero _
        · rfl
    rw [members_set]
    cases hO : (f.orphan v m status).members q with
    | mk mode pid ppid children exitstatus stack =>
        rw [hO] at hmode hex hstk hpid hppid' hch'
        dsimp only at hmode hex hstk hpid hppid' hch'
        subst hmode hex hstk hpid hppid' hch'
        split
        · rename_i hq
          subst hq
          rfl
        · rfl
  exact congrArg (fun ms => ({ f with members := ms } : Family)) (funext hmem)

theorem Inv.terminate_eq (h : f.Inv) (hv : (f.members v).mode.Live) :
    f.terminate v m status = (f.orphan v m status).lay v := by
  have hc : ((f.set v ((f.members v).die m status)).members v).children
      = (f.members v).children := set_die_children ..
  simp only [terminate, hc]
  split
  · rfl
  · rename_i h0
    rw [h.reparent_zero hv (BitVec.not_lt.mp h0 |> BitVec.le_zero_iff.mp)]

section Orphan

variable (h : f.Inv) (hv : (f.members v).mode.Live) (hm : m.Dead)
include h hv hm

theorem Inv.kidsOf_orphan {x : PcbId} (hx : (f.members x).mode ≠ .free) (hxv : x ≠ v)
    (hxi : x ≠ f.init) : (f.orphan v m status).kidsOf x = f.kidsOf x := by
  have hpv : (f.members v).pid ≠ (f.members x).pid := fun he =>
    hxv (h.pidInj x v hx hv.ne_free he.symm)
  have hp1 : pidInit ≠ (f.members x).pid := fun he => h.pid_ne_one hx hxi he.symm
  ext q
  simp only [mem_kidsOf, orphan_free hv hm, orphan_ppid, orphan_pid, ne_eq]
  by_cases he : (f.members q).ppid = (f.members v).pid
  · simp [he, hp1, hpv]
  · simp [he]

omit hm in
theorem Inv.kidsOf_orphan_self (hi : v ≠ f.init) : (f.orphan v m status).kidsOf v = ∅ := by
  have hp1 : pidInit ≠ (f.members v).pid := fun he => h.pid_ne_one hv.ne_free hi he.symm
  rw [Finset.eq_empty_iff_forall_notMem]
  intro q
  simp only [mem_kidsOf, orphan_ppid, orphan_pid]
  by_cases he : (f.members q).ppid = (f.members v).pid
  · simp [he, hp1]
  · simp [he]

/-- `init` has its own children and, now, those of `v`. -/
theorem Inv.card_kidsOf_orphan_init (hi : v ≠ f.init) :
    ((f.orphan v m status).kidsOf f.init).card = (f.kidsOf f.init).card + (f.kidsOf v).card := by
  have hset : (f.orphan v m status).kidsOf f.init = f.kidsOf f.init ∪ f.kidsOf v := by
    ext q
    simp only [Finset.mem_union, mem_kidsOf, orphan_free hv hm, orphan_ppid, orphan_pid,
      h.initPid, ne_eq]
    by_cases he : (f.members q).ppid = (f.members v).pid
    · have hqv : (f.members q).mode ≠ .free → q ≠ v := by
        rintro hq rfl
        exact hi (h.notSelf q hq he)
      have hqi : q ≠ f.init := by
        rintro rfl
        rw [h.initPpid] at he
        exact h.pid_ne_one hv.ne_free hi he.symm
      have h1 : (f.members v).pid ≠ pidInit := h.pid_ne_one hv.ne_free hi
      simp only [he, ↓reduceIte, hqi, not_false_eq_true, true_and, and_true, h1, and_false,
        false_or]
      exact ⟨fun hq => ⟨hqv hq, hq⟩, fun hq => hq.2⟩
    · simp [he]
  rw [hset, Finset.card_union_of_disjoint]
  rw [Finset.disjoint_left]
  intro q hq hq'
  have h1 := (mem_kidsOf.mp hq).2.2
  have h2 := (mem_kidsOf.mp hq').2.2
  rw [h1, h.initPid] at h2
  exact h.pid_ne_one hv.ne_free hi h2.symm

theorem Inv.kidsOf_orphan_init (hi : v = f.init) {x : PcbId} :
    (f.orphan v m status).kidsOf x = f.kidsOf x := by
  refine kidsOf_congr (orphan_free hv hm) (fun q => ?_) (orphan_pid ..)
  rw [orphan_ppid, hi, h.initPid]
  split
  · rename_i he
    exact he.symm
  · rfl

theorem Inv.card_strangers_orphan (hi : v ≠ f.init) :
    (f.orphan v m status).strangers.card + (f.kidsOf v).card = f.strangers.card := by
  have hsub : f.kidsOf v ⊆ f.strangers := by
    intro q hq
    obtain ⟨-, hq, he⟩ := mem_kidsOf.mp hq
    have h1 : (f.members q).ppid ≠ pidInit := he ▸ h.pid_ne_one hv.ne_free hi
    refine mem_strangers.mpr ⟨?_, hq, h1⟩
    rintro rfl
    exact h1 h.initPpid
  have hset : (f.orphan v m status).strangers = f.strangers \ f.kidsOf v := by
    ext q
    simp only [Finset.mem_sdiff, mem_strangers, mem_kidsOf, orphan_free hv hm, orphan_ppid,
      show (f.orphan v m status).init = f.init from rfl, ne_eq]
    by_cases he : (f.members q).ppid = (f.members v).pid
    · have hqv : (f.members q).mode ≠ .free → q ≠ v := by
        rintro hq rfl
        exact hi (h.notSelf q hq he)
      simp only [he, ↓reduceIte, not_true_eq_false, and_false, and_true, false_iff]
      rintro ⟨⟨-, hq, -⟩, hc⟩
      exact hc ⟨hqv hq, hq⟩
    · simp [he]
  rw [hset]
  exact Finset.card_sdiff_add_card_eq_card hsub

theorem Inv.strangers_orphan_init (hi : v = f.init) :
    (f.orphan v m status).strangers = f.strangers := by
  refine strangers_congr rfl (orphan_free hv hm) fun q => ?_
  rw [orphan_ppid, hi, h.initPid]
  split
  · rename_i he
    exact he.symm
  · rfl

theorem Inv.orphan_init_children (hi : v ≠ f.init) :
    ((f.orphan v m status).members f.init).children.toNat
      = (f.members f.init).children.toNat + (f.kidsOf v).card := by
  have hsp := h.spare
  have hst : (f.orphan v m status).strangers.card + _ = _ := h.card_strangers_orphan hv hm hi
  have hn := h.nextPid.2
  rw [orphan_children, if_neg hi.symm, if_pos rfl, kids_length, h.kids_eq hv.ne_free hi,
    BitVec.toNat_add, BitVec.toNat_ofNat]
  omega

theorem Inv.orphan : (f.orphan v m status).Inv := by
  have hF : ∀ q, ((f.orphan v m status).members q).mode = .free ↔ _ := orphan_free hv hm
  have hnf : ∀ {q}, ((f.orphan v m status).members q).mode ≠ .free →
      (f.members q).mode ≠ .free := fun hq hc => hq ((hF _).mpr hc)
  have hnf' : ∀ {q}, (f.members q).mode ≠ .free →
      ((f.orphan v m status).members q).mode ≠ .free := fun hq hc => hq ((hF _).mp hc)
  refine ⟨hnf' h.initMode, ?_, ?_, h.nextPid, ?_, ?_, ?_, ?_, ?_, ?_, ?_, ?_, ?_,
    h.stackNodup, ?_, ?_⟩
  · exact (orphan_pid ..).trans h.initPid
  · rw [orphan_ppid]
    split
    · rfl
    · exact h.initPpid
  · intro q hq hqi
    rw [orphan_pid]
    exact h.pids q (hnf hq) hqi
  · intro q r hq hr
    rw [orphan_pid, orphan_pid]
    exact h.pidInj q r (hnf hq) (hnf hr)
  · intro q hq
    have hz := (hF q).mp hq
    rw [orphan_pid, orphan_ppid, if_neg]
    · exact h.freed q hz
    · rw [(h.freed q hz).2]
      exact (h.pid_ne_free hv.ne_free).symm
  · intro q hq
    rw [orphan_ppid]
    split
    · exact ⟨f.init, hnf' h.initMode, (orphan_pid ..).trans h.initPid⟩
    · obtain ⟨r, hr, he⟩ := h.parent q (hnf hq)
      exact ⟨r, hnf' hr, (orphan_pid ..).trans he⟩
  · intro q hq he
    rw [orphan_pid, orphan_ppid] at he
    split at he
    · by_contra hqi
      exact h.pid_ne_one (hnf hq) hqi he.symm
    · exact h.notSelf q (hnf hq) he
  · intro q hq
    rw [orphan_mode] at hq
    split at hq
    · exact absurd hq hm.not_live
    · rename_i hqv
      by_cases hi : v = f.init
      · have hqi : q ≠ f.init := fun hc => hqv (hc.trans hi.symm)
        rw [h.kidsOf_orphan_init hv hm hi, orphan_children, if_neg hqv, if_neg hqi]
        exact h.counted q hq
      · rcases eq_or_ne q f.init with rfl | hqi
        · have := h.counted f.init hq
          rw [h.card_kidsOf_orphan_init hv hm hi, h.orphan_init_children hv hm hi]
          omega
        · rw [h.kidsOf_orphan hv hm hq.ne_free hqv hqi, orphan_children, if_neg hqv, if_neg hqi]
          exact h.counted q hq
  · intro q hq hqi
    rw [orphan_mode] at hq
    by_cases hi : v = f.init
    · have hqv : q ≠ v := fun hc => hqi (hc.trans hi)
      rw [if_neg hqv] at hq
      rw [h.kidsOf_orphan_init hv hm hi]
      exact h.barren q hq hqi
    · rcases eq_or_ne q v with rfl | hqv
      · exact h.kidsOf_orphan_self hv hi
      · rw [if_neg hqv] at hq
        rw [h.kidsOf_orphan hv hm hq.ne_free hqv hqi]
        exact h.barren q hq hqi
  · intro q hq hqi
    have := h.bounded q (hnf hq) hqi
    rw [orphan_children, if_neg (show q ≠ f.init from hqi),
      show (f.orphan v m status).nextPid = f.nextPid from rfl]
    split
    · exact le_trans (by simp) h.nextPid.1
    · exact this
  · rw [show (f.orphan v m status).init = f.init from rfl,
      show (f.orphan v m status).nextPid = f.nextPid from rfl]
    have hsp := h.spare
    by_cases hi : v = f.init
    · rw [h.strangers_orphan_init hv hm hi, orphan_children, if_pos hi.symm]
      exact le_trans (by simp) hsp
    · have hst : (f.orphan v m status).strangers.card + _ = _ := h.card_strangers_orphan hv hm hi
      rw [h.orphan_init_children hv hm hi]
      omega
  · intro q hq
    obtain ⟨s, hs, hnot⟩ := h.owns q (hnf hq)
    exact ⟨s, (orphan_stack ..).trans hs, hnot⟩
  · intro q r hq hr
    rw [orphan_stack, orphan_stack]
    exact h.ownsInj q r (hnf hq) (hnf hr)

end Orphan

/-- The status of `v` goes to `q`, who wakes up. -/
def wake (f : Family) (q v : PcbId) : Family :=
  (f.handOver q v).set q (((f.handOver q v).members q).setMode .active)

theorem Inv.lay_cases (h : f.Inv) (hv : (f.members v).mode.Dead) :
    ∃ q, (f.members q).mode ≠ .free ∧ (f.members q).pid = (f.members v).ppid
      ∧ f.find (f.members v).ppid = some q
      ∧ (f.lay v = f ∧ (f.members q).mode ≠ .waiting
        ∨ f.lay v = f.wake q v ∧ (f.members q).mode = .waiting ∧ q ≠ v ∧ v ≠ f.init) := by
  obtain ⟨q, hq, he⟩ := h.parent v hv.ne_free
  have hfind : f.find (f.members v).ppid = some q := he ▸ h.find_eq hq
  refine ⟨q, hq, he, hfind, ?_⟩
  simp only [lay, hfind]
  split
  · rename_i hw
    have hne : q ≠ v := by
      rintro rfl
      exact hv.not_live (.inr hw)
    refine .inr ⟨rfl, hw, hne, ?_⟩
    rintro rfl
    have : q = f.init := h.pidInj q f.init hq h.initMode (by rw [he, h.initPpid, h.initPid])
    exact hne this
  · exact .inl ⟨rfl, ‹_›⟩

theorem handOver_members (f : Family) (p v q : PcbId) :
    (f.handOver p v).members q = if q = v then (f.members v).gone else f.members q :=
  Function.update_apply ..

/-- After a hand-over `v` is gone and `q` is awake; all others are as they
were. -/
theorem wake_members (f : Family) {q v : PcbId} (hne : q ≠ v) (x : PcbId) :
    (f.wake q v).members x
      = if x = q then (f.members q).setMode .active
        else if x = v then (f.members v).gone
        else f.members x := by
  rw [wake, members_set, handOver_members, handOver_members, if_neg hne]

theorem Inv.lay (h : f.Inv) (hv : (f.members v).mode.Dead) : (f.lay v).Inv := by
  obtain ⟨q, hq, -, -, ⟨hl, -⟩ | ⟨hl, hw, hne, hi⟩⟩ := h.lay_cases hv
  · rw [hl]
    exact h
  · rw [hl]
    have hrel : (f.handOver q v).Inv := (h.reports _).release hv hi
    refine hrel.setMode ?_ (.inl rfl)
    rw [handOver_members, if_neg hne]
    exact .inr hw

theorem orphan_dead (f : Family) (hm : m.Dead) :
    ((f.orphan v m status).members v).mode.Dead := by
  rw [orphan_mode, if_pos rfl]
  exact hm

/-- Everything a death can do: the children go to `init`, and then `v`
stays or goes to its parent `q`. -/
theorem Inv.terminate_cases (h : f.Inv) (hen : (Act.terminate v m status).Enabled f) :
    ∃ q, ((f.orphan v m status).members q).mode ≠ .free
      ∧ ((f.orphan v m status).members q).pid = ((f.orphan v m status).members v).ppid
      ∧ (f.terminate v m status = f.orphan v m status
          ∧ ((f.orphan v m status).members q).mode ≠ .waiting
        ∨ f.terminate v m status = (f.orphan v m status).wake q v
          ∧ ((f.orphan v m status).members q).mode = .waiting ∧ q ≠ v ∧ v ≠ f.init) := by
  obtain ⟨hv, hm⟩ := hen
  rw [h.terminate_eq hv]
  obtain ⟨q, hq, hpid, -, hcases⟩ := (h.orphan hv hm).lay_cases (orphan_dead f hm)
  exact ⟨q, hq, hpid, hcases⟩

theorem Inv.terminate (h : f.Inv) (hen : (Act.terminate v m status).Enabled f) :
    (f.terminate v m status).Inv := by
  rw [h.terminate_eq hen.1]
  exact (h.orphan hen.1 hen.2).lay (orphan_dead f hen.2)

end Death

theorem Inv.act (h : f.Inv) {a : Act} (hen : a.Enabled f) : (a.apply f).Inv := by
  cases a with
  | quiet => exact h
  | fork p new stk => exact h.fork hen
  | block p => exact h.setMode (.inl hen.1) (.inr rfl)
  | reap p z => exact h.reap hen
  | terminate v m status => exact h.terminate hen

end Family

end SpKernel
