import SpKernel.Children
import SpKernel.Kinship

/-!
# Every PCB in its place

`Placed k off run` says where the PCBs are while the kernel is at work:
every PCB outside `off` is on the queue its state names and on no other,
`off` holds those that are in transit between two queues, and `run` is
the one that has the CPU. Between two events nobody is in transit.
Handlers move PCBs one at a time, so each primitive has a rule that puts
one PCB into `off` or takes one out; the fields of a PCB in `off` may be
changed at will.

- `Placed.deque` and `Placed.remove` take a PCB off its queue, and
  `Placed.enque` puts one from `off` on the queue that is the `home` of
  its state.
- `Placed.start` and `Placed.stop` are the same for the CPU.
- `Placed.set` and `Placed.setOff` change fields of a PCB; if it is in
  its place the change must not touch what its place depends on
  (`home_congr`).

The pool of queue nodes is conserved by every queue operation
(`total_enque`, `total_deque`, `total_remove`), and the queues can hold
every PCB and every stack at once with five nodes to spare, so no
operation ever runs out of them (`Placed.nodes`).
-/

namespace SpKernel

open Function (update update_self update_of_ne)
open Lib

/-! ## Conservation of nodes -/

namespace QPool

variable {ι : Type} {β : ι → Type} [DecidableEq ι] [Fintype ι]

/-- All nodes, free and in use. -/
def total (P : QPool ι β) : Nat := P.nodes + ∑ q, (P.items q).length

theorem sum_update (P : QPool ι β) (q : ι) (l : List (β q)) :
    ∑ x, (update P.items q l x).length + (P.items q).length
      = ∑ x, (P.items x).length + l.length := by
  have h1 := Finset.add_sum_erase Finset.univ (fun x => (update P.items q l x).length)
    (Finset.mem_univ q)
  have h2 := Finset.add_sum_erase Finset.univ (fun x => (P.items x).length) (Finset.mem_univ q)
  have h3 : ∑ x ∈ Finset.univ.erase q, (update P.items q l x).length
      = ∑ x ∈ Finset.univ.erase q, (P.items x).length :=
    Finset.sum_congr rfl fun x hx => by rw [update_of_ne (Finset.ne_of_mem_erase hx)]
  rw [update_self] at h1
  omega

theorem total_enque (P : QPool ι β) (q : ι) (ord : Option (β q → β q → Int)) (d : β q) :
    (P.enque q ord d).2.total = P.total := by
  rw [enque]
  split
  · rfl
  · have := sum_update P q (insertItem ord d (P.items q))
    rw [length_insertItem] at this
    simp only [total]
    omega

theorem total_deque {P : QPool ι β} {q : ι} : (P.deque q).2.2.total = P.total := by
  rw [deque]
  split
  · rfl
  · rename_i d l hq
    have := sum_update P q l
    rw [hq, List.length_cons] at this
    simp only [total]
    omega

theorem total_remove {P : QPool ι β} {q : ι} [DecidableEq (β q)] {d : β q} :
    (P.remove q d).2.total = P.total := by
  rw [remove]
  split
  · rename_i hd
    have := sum_update P q ((P.items q).erase d)
    have hlen := List.length_erase_of_mem hd
    have hpos := List.length_pos_of_mem hd
    simp only [total]
    omega
  · rfl

end QPool

/-! ## Places -/

/-- The queue a PCB's state says it is on. -/
def home (x : Pcb) : Option PQueue :=
  match x.state with
  | .free => some .free
  | .ready => some (.ready (Fin.ofNat nPrios x.prio.toNat))
  | .sleeping => some .sleeping
  | .waiting => some .waiting
  | .blocked => some .reading
  | .killed | .zombie => some .zombie
  | .running | .new | .invalid => none

/-- A state a process can have between two events. -/
structure Legal (x : Pcb) : Prop where
  new : x.state ≠ .new
  invalid : x.state ≠ .invalid
  prio : x.state = .ready → x.prio.toNat < nPrios

structure Placed (k : Kernel) (off : Set PcbId) (run : Option PcbId) : Prop where
  mem : ∀ p q, p ∈ k.on q ↔ p ∉ off ∧ home (k.pcbs p) = some q
  nodup : ∀ q, (k.on q).Nodup
  stackNodup : k.freeStacks.Nodup
  total : k.queues.total = nQnodes
  legal : ∀ p, p ∉ off → Legal (k.pcbs p)
  running : ∀ p, p ∉ off → ((k.pcbs p).state = .running ↔ run = some p)
  runOn : ∀ p, run = some p → p ∉ off

variable {k : Kernel} {off : Set PcbId} {run : Option PcbId} {p : PcbId} {q : PQueue}

/-- The queued PCBs and stacks are all different, so there are at most as
many as PCBs and stacks. -/
theorem Placed.nodes (h : Placed k off run) : 5 ≤ k.queues.nodes := by
  classical
  have hsum : ∑ x, (k.queues.items x).length ≤ nPcbs + nStacks := by
    have hcard : ∑ x, (k.queues.items x).length
        = (Finset.univ.sigma fun x => (k.queues.items x).toFinset).card := by
      have hnd : ∀ x, (k.queues.items x).Nodup := by
        intro x
        cases x with
        | pcbs q => exact h.nodup q
        | freeStacks => exact h.stackNodup
      rw [Finset.card_sigma]
      exact Finset.sum_congr rfl fun x _ => (List.toFinset_card_of_nodup (hnd x)).symm
    have hle : (Finset.univ.sigma fun x => (k.queues.items x).toFinset).card
        ≤ (Finset.univ : Finset (PcbId ⊕ StackId)).card := by
      refine Finset.card_le_card_of_injOn
        (fun x : (x : QueueId) × Entry x => match x with
          | ⟨.pcbs _, p⟩ => Sum.inl p
          | ⟨.freeStacks, s⟩ => Sum.inr s) (fun _ _ => Finset.mem_univ _) ?_
      rintro ⟨x, a⟩ hx ⟨y, b⟩ hy he
      have hx' := List.mem_toFinset.mp (Finset.mem_sigma.mp hx).2
      have hy' := List.mem_toFinset.mp (Finset.mem_sigma.mp hy).2
      cases x with
      | pcbs q =>
          cases y with
          | pcbs q' =>
              obtain rfl : a = b := Sum.inl.inj he
              have h1 := ((h.mem a q).mp hx').2
              have h2 := ((h.mem a q').mp hy').2
              obtain rfl := Option.some.inj (h1.symm.trans h2)
              rfl
          | freeStacks => cases he
      | freeStacks =>
          cases y with
          | pcbs q' => cases he
          | freeStacks => exact congrArg _ (Sum.inr.inj he)
    rw [hcard]
    refine hle.trans (le_of_eq ?_)
    rw [Finset.card_univ, Fintype.card_sum, Fintype.card_fin]
  have ht := h.total
  simp only [QPool.total, nQnodes, nPcbs, nStacks] at ht hsum
  omega

/-! ## Rules for changes of fields -/

theorem home_congr {x y : Pcb} (hs : y.state = x.state)
    (hp : x.state = .ready → y.prio = x.prio) : home y = home x := by
  simp only [home, hs]
  split
  all_goals first | rfl | (rename_i hr; rw [hp hr])

/-- Only the queues, the states and the priorities of ready processes
matter. -/
theorem Placed.of_states {k' : Kernel} (h : Placed k off run) (hq : k'.queues = k.queues)
    (hs : ∀ x, (k'.pcbs x).state = (k.pcbs x).state)
    (hp : ∀ x, (k.pcbs x).state = .ready → (k'.pcbs x).prio = (k.pcbs x).prio) :
    Placed k' off run := by
  have hon : k'.on = k.on := by
    funext q
    rw [Kernel.on, hq, Kernel.on]
  have hstk : k'.freeStacks = k.freeStacks := by rw [Kernel.freeStacks, hq, Kernel.freeStacks]
  refine ⟨fun x q => ?_, ?_, ?_, ?_, fun x hx => ⟨?_, ?_, ?_⟩, fun x hx => ?_, h.runOn⟩
  · rw [hon, home_congr (hs x) (hp x)]
    exact h.mem x q
  · rw [hon]
    exact h.nodup
  · rw [hstk]
    exact h.stackNodup
  · rw [hq]
    exact h.total
  · rw [hs]
    exact (h.legal x hx).new
  · rw [hs]
    exact (h.legal x hx).invalid
  · rw [hs]
    exact fun hr => hp x hr ▸ (h.legal x hx).prio hr
  · rw [hs]
    exact h.running x hx

theorem Placed.congr {k' : Kernel} (h : Placed k off run) (hp : k'.pcbs = k.pcbs)
    (hq : k'.queues = k.queues) : Placed k' off run :=
  h.of_states hq (fun x => by rw [hp]) fun x _ => by rw [hp]

theorem setPcb_self (k : Kernel) (p : PcbId) (f : Pcb → Pcb) :
    (k.setPcb p f).pcbs p = f (k.pcbs p) :=
  update_self ..

theorem setPcb_other (k : Kernel) {p x : PcbId} (f : Pcb → Pcb) (h : x ≠ p) :
    (k.setPcb p f).pcbs x = k.pcbs x :=
  update_of_ne h ..

theorem setPcb_state (k : Kernel) (p : PcbId) {f : Pcb → Pcb}
    (hf : (f (k.pcbs p)).state = (k.pcbs p).state) (q : PcbId) :
    ((k.setPcb p f).pcbs q).state = (k.pcbs q).state := by
  rcases eq_or_ne q p with rfl | hq
  · rw [setPcb_self, hf]
  · rw [setPcb_other _ _ hq]

theorem Placed.setOff (h : Placed k off run) (hp : p ∈ off) (f : Pcb → Pcb) :
    Placed (k.setPcb p f) off run := by
  have hother : ∀ x, x ∉ off → (k.setPcb p f).pcbs x = k.pcbs x := fun x hx =>
    setPcb_other k f fun he => hx (he ▸ hp)
  refine ⟨fun x q => ?_, h.nodup, h.stackNodup, h.total, fun x hx => ?_, fun x hx => ?_, h.runOn⟩
  · refine (h.mem x q).trans (and_congr_right fun hx => ?_)
    rw [hother x hx]
  · rw [hother x hx]
    exact h.legal x hx
  · rw [hother x hx]
    exact h.running x hx

/-- Any PCB may change as long as its state, and its priority while it is
ready, stay. -/
theorem Placed.set (h : Placed k off run) (f : Pcb → Pcb)
    (hs : (f (k.pcbs p)).state = (k.pcbs p).state)
    (hprio : (k.pcbs p).state = .ready → (f (k.pcbs p)).prio = (k.pcbs p).prio) :
    Placed (k.setPcb p f) off run := by
  refine h.of_states rfl (fun x => ?_) fun x hr => ?_ <;> rcases eq_or_ne x p with rfl | hx
  · rw [setPcb_self, hs]
  · rw [setPcb_other k f hx]
  · rw [setPcb_self, hprio hr]
  · rw [setPcb_other k f hx]

/-! ## Rules for moves -/

theorem Placed.stop (h : Placed k off (some p)) : Placed k (insert p off) none := by
  have hp := h.runOn p rfl
  have hrun : (k.pcbs p).state = .running := (h.running p hp).mpr rfl
  refine ⟨fun x q => ?_, h.nodup, h.stackNodup, h.total, fun x hx => ?_, fun x hx => ?_, nofun⟩
  · rcases eq_or_ne x p with rfl | hxp
    · simp [h.mem, home, hrun]
    · simp [h.mem, hxp]
  · exact h.legal x fun hc => hx (Set.mem_insert_of_mem p hc)
  · have hxp : x ≠ p := fun he => hx (he ▸ Set.mem_insert p off)
    have := h.running x fun hc => hx (Set.mem_insert_of_mem p hc)
    simp [this, hxp.symm]

theorem Placed.start (h : Placed k {p} none) (hs : (k.pcbs p).state = .running) :
    Placed k ∅ (some p) := by
  have hout : ∀ x, x ≠ p → x ∉ ({p} : Set PcbId) := fun x hx hc => hx hc
  refine ⟨fun x q => ?_, h.nodup, h.stackNodup, h.total, fun x _ => ?_, fun x _ => ?_,
    fun _ _ => id⟩
  · rw [h.mem]
    rcases eq_or_ne x p with rfl | hx
    · simp [home, hs]
    · simp [hx]
  · rcases eq_or_ne x p with rfl | hx
    · exact ⟨by simp [hs], by simp [hs], by simp [hs]⟩
    · exact h.legal x (hout x hx)
  · rcases eq_or_ne x p with rfl | hx
    · simp [hs]
    · simp [h.running x (hout x hx), hx.symm]

theorem on_update (k : Kernel) (q q' : PQueue) (l : List PcbId) (n : Nat) :
    ({ k with queues := ⟨n, update k.queues.items (.pcbs q) l⟩ } : Kernel).on q'
      = if q' = q then l else k.on q' := by
  simp only [Kernel.on]
  split
  · rename_i he
    subst he
    exact update_self ..
  · rename_i hne
    exact update_of_ne (fun he => hne (QueueId.pcbs.inj he)) ..

theorem freeStacks_update (k : Kernel) (q : PQueue) (l : List PcbId) (n : Nat) :
    ({ k with queues := ⟨n, update k.queues.items (.pcbs q) l⟩ } : Kernel).freeStacks
      = k.freeStacks := by
  have hne : QueueId.freeStacks ≠ .pcbs q := nofun
  simp only [Kernel.freeStacks, update_of_ne hne]

theorem Placed.enque (h : Placed k off run) (hp : p ∈ off) (hq : home (k.pcbs p) = some q)
    (hl : Legal (k.pcbs p)) :
    ∃ Q, k.enque q p = (.success, { k with queues := Q })
      ∧ Placed { k with queues := Q } (off \ {p}) run
      ∧ Q.items .freeStacks = k.freeStacks := by
  have hn : k.queues.nodes ≠ 0 := by have := h.nodes; omega
  have htot := QPool.total_enque k.queues (.pcbs q) (k.order q) p
  have hout : ∀ q', p ∉ k.on q' := fun q' hc => ((h.mem p q').mp hc).1 hp
  rw [QPool.enque, if_neg hn] at htot
  refine ⟨⟨k.queues.nodes - 1, update k.queues.items (.pcbs q)
    (insertItem (k.order q) p (k.queues.items (.pcbs q)))⟩, ?_, ?_, freeStacks_update ..⟩
  · simp only [Kernel.enque, QPool.enque, hn, ↓reduceIte]
  have hrun : (k.pcbs p).state ≠ .running := by
    intro hr
    simp [home, hr] at hq
  refine ⟨fun x q' => ?_, fun q' => ?_, ?_, htot.trans h.total, fun x hx => ?_, fun x hx => ?_,
    fun x hx hc => h.runOn x hx hc.1⟩
  · rw [on_update]
    have hx := h.mem x q'
    split
    · rename_i he
      subst he
      rw [mem_insertItem]
      rcases eq_or_ne x p with rfl | hxp
      · simp [hq]
      · change x = p ∨ x ∈ k.on q' ↔ _
        rw [hx]
        simp [hxp]
    · rename_i hne
      rcases eq_or_ne x p with rfl | hxp
      · have : some q ≠ some q' := fun he => hne (Option.some.inj he).symm
        simp [hout, hq, this]
      · rw [hx]
        simp [hxp]
  · rw [on_update]
    split
    · rename_i he
      subst he
      exact nodup_insertItem.mpr ⟨hout q', h.nodup q'⟩
    · exact h.nodup q'
  · rw [freeStacks_update]
    exact h.stackNodup
  · rcases eq_or_ne x p with rfl | hxp
    · exact hl
    · exact h.legal x fun hc => hx ⟨hc, hxp⟩
  · rcases eq_or_ne x p with rfl | hxp
    · refine iff_of_false hrun fun he => h.runOn x he hp
    · exact h.running x fun hc => hx ⟨hc, hxp⟩

theorem Placed.takeOut (h : Placed k off run) {l : List PcbId} {n : Nat} (hp : p ∈ k.on q)
    (hmem : ∀ x, x ∈ l ↔ x ≠ p ∧ x ∈ k.on q) (hnd : l.Nodup)
    (htot : (⟨n, update k.queues.items (.pcbs q) l⟩ : QPool QueueId Entry).total
      = k.queues.total) :
    Placed { k with queues := ⟨n, update k.queues.items (.pcbs q) l⟩ } (insert p off) run := by
  have hq := ((h.mem p q).mp hp).2
  have hrun : (k.pcbs p).state ≠ .running := by
    intro hr
    simp [home, hr] at hq
  refine ⟨fun x q' => ?_, fun q' => ?_, ?_, htot.trans h.total, fun x hx => ?_, fun x hx => ?_,
    fun x hx hc => ?_⟩
  · rw [on_update]
    have hx := h.mem x q'
    split
    · rename_i he
      subst he
      rw [hmem, hx]
      rw [Set.mem_insert_iff, not_or, and_assoc]
    · rename_i hne
      rcases eq_or_ne x p with rfl | hxp
      · have hno : x ∉ k.on q' := fun hc =>
          hne (Option.some.inj (((h.mem x q').mp hc).2.symm.trans hq))
        simp [hno]
      · rw [hx]
        simp [hxp]
  · rw [on_update]
    split
    · exact hnd
    · exact h.nodup q'
  · rw [freeStacks_update]
    exact h.stackNodup
  · exact h.legal x fun hc => hx (Set.mem_insert_of_mem p hc)
  · exact h.running x fun hc => hx (Set.mem_insert_of_mem p hc)
  · rcases Set.mem_insert_iff.mp hc with rfl | hc
    · have hoff := h.runOn x hx
      exact hrun ((h.running x hoff).mpr hx)
    · exact h.runOn x hx hc

theorem Placed.deque (h : Placed k off run) {l : List PcbId} (hq : k.on q = p :: l) :
    ∃ Q, k.deque q = (.success, some p, { k with queues := Q })
      ∧ Placed { k with queues := Q } (insert p off) run
      ∧ Q.items .freeStacks = k.freeStacks := by
  have hq' : k.queues.items (.pcbs q) = p :: l := hq
  have htot := QPool.total_deque (P := k.queues) (q := .pcbs q)
  have hnd := hq ▸ h.nodup q
  refine ⟨⟨k.queues.nodes + 1, update k.queues.items (.pcbs q) l⟩, ?_, ?_, freeStacks_update ..⟩
  · simp only [Kernel.deque, QPool.deque, hq']
  · refine h.takeOut (hq ▸ List.mem_cons_self ..) (fun x => ?_) (List.nodup_cons.mp hnd).2 ?_
    · rw [hq, List.mem_cons]
      have := (List.nodup_cons.mp hnd).1
      constructor
      · intro hx
        exact ⟨fun he => this (he ▸ hx), .inr hx⟩
      · rintro ⟨hne, rfl | hx⟩
        · exact absurd rfl hne
        · exact hx
    · simpa only [QPool.deque, hq'] using htot

theorem Placed.remove (h : Placed k off run) (hp : p ∈ k.on q) :
    ∃ Q, k.remove q p = (.success, { k with queues := Q })
      ∧ Placed { k with queues := Q } (insert p off) run
      ∧ Q.items .freeStacks = k.freeStacks := by
  have hp' : p ∈ k.queues.items (.pcbs q) := hp
  have htot := QPool.total_remove (P := k.queues) (q := .pcbs q) (d := p)
  refine ⟨⟨k.queues.nodes + 1, update k.queues.items (.pcbs q) ((k.on q).erase p)⟩, ?_, ?_,
    freeStacks_update ..⟩
  · simp only [Kernel.remove, QPool.remove, hp', ↓reduceIte]
    rfl
  · refine h.takeOut hp (fun x => (h.nodup q).mem_erase_iff) ((h.nodup q).erase p) ?_
    rw [QPool.remove, if_pos hp'] at htot
    exact htot

end SpKernel
