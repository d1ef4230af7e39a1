import SpKernel.Lib.Segment
import SpKernel.Lib.Outcome
import SpKernel.Queue

/-!
# The queue representation

`Rep h free chain` is the ownership picture of a heap `h`: the free list
visits the nodes `free`, queue `q` visits `chain q`, all of them end in
`NULL`, and every node of the pool is on exactly one of these lists.
`link` and `unlink` say what one insertion and one removal must do to the
links for the picture to stay intact; each operation of the module is
then one of the two, at a position its traversal finds.

The position is found by `traverse_spec`: the loop that all operations
share stops behind the entries it is told to pass, with the pointers to
the node in front and the one behind, and it ends because a chain is no
longer than the pool.

- `qEnque_spec` says that an insertion succeeds if a node is free and
  fails if none is, and where the newcomer is: behind the entries that it
  is not less than (`spot`), or at the end if there is no comparison
  function.
- `qDeque_cons`, `qDeque_nil` and `qRemove_spec` say what the removals
  return and what chain they leave.
- `qPeek_spec` changes nothing.

The operations' effect on the *entries* (`items`) is that of an ordered
list: `insertItem` for an insertion, `List.tail` and `List.erase` for the
removals. `QPool` is that list-level module on its own.
-/

namespace SpKernel

open Function (update update_self update_of_ne)
open Lib

variable {ι α κ : Type}

/-- The free list visits `free`, queue `q` visits `chain q`, and together
these lists hold every node exactly once. -/
structure Rep (h : QHeap ι α κ) (free : List QPtr) (chain : ι → List QPtr) :
    Prop where
  freeSeg : Seg h.next h.freeQnodes free none
  seg : ∀ q, Seg h.next (h.ques q).head (chain q) none
  tail : ∀ q, (h.ques q).tail = (chain q).getLast?
  size : ∀ q, (h.ques q).size.toNat = (chain q).length
  cover : ∀ n, n ∈ free ∨ ∃ q, n ∈ chain q
  freeApart : ∀ q, ∀ n ∈ free, n ∉ chain q
  apart : ∀ q q' n, n ∈ chain q → n ∈ chain q' → q = q'

/-- The entries of a queue, front first. -/
def items (h : QHeap ι α κ) (chain : ι → List QPtr) (q : ι) : List (Option α) :=
  (chain q).map h.data

namespace Rep

variable {h h' : QHeap ι α κ} {free : List QPtr} {chain : ι → List QPtr}

theorem free_nodup (R : Rep h free chain) : free.Nodup := R.freeSeg.nodup

theorem nodup (R : Rep h free chain) (q : ι) : (chain q).Nodup := (R.seg q).nodup

theorem length_le (R : Rep h free chain) (q : ι) : (chain q).length ≤ nQnodes := by
  simpa using (R.nodup q).length_le_card

theorem head (R : Rep h free chain) (q : ι) : (h.ques q).head = (chain q).head? :=
  (R.seg q).head

theorem free_head (R : Rep h free chain) : h.freeQnodes = free.head? :=
  R.freeSeg.head

theorem size_eq_zero (R : Rep h free chain) (q : ι) :
    (h.ques q).size = 0 ↔ chain q = [] := by
  rw [← List.length_eq_zero_iff, ← R.size q, ← BitVec.toNat_inj]
  rfl

/-- `size == 0`, `head == NULL` and `tail == NULL` say the same thing. -/
theorem ends_null (R : Rep h free chain) (q : ι) :
    ((h.ques q).head = none ∧ (h.ques q).tail = none) ↔ (h.ques q).size = 0 := by
  rw [R.size_eq_zero, R.head, R.tail]
  simp

/-! ## Linking a node in and out of a queue -/

variable [DecidableEq ι]

/-- The first free node is linked into queue `q` between `l₁` and `l₂`. -/
theorem link {new : QPtr} {q : ι} {l₁ l₂ : List QPtr}
    (R : Rep h (new :: free) chain) (hq : chain q = l₁ ++ l₂)
    (hfree : h'.freeQnodes = free.head?)
    (hsame : ∀ n, n ≠ new → l₁.getLast? ≠ some n → h'.next n = h.next n)
    (hlast : ∀ n, l₁.getLast? = some n → h'.next n = some new)
    (hnew : h'.next new = l₂.head?)
    (hother : ∀ q', q' ≠ q → h'.ques q' = h.ques q')
    (hhead : (h'.ques q).head = (l₁ ++ new :: l₂).head?)
    (htail : (h'.ques q).tail = (l₁ ++ new :: l₂).getLast?)
    (hsize : (h'.ques q).size = (h.ques q).size + 1) :
    Rep h' free (update chain q (l₁ ++ new :: l₂)) := by
  have hnq : new ∉ l₁ ++ l₂ := hq ▸ R.freeApart q new (List.mem_cons_self ..)
  have hne : ∀ {n}, n ∈ l₁ ++ l₂ → n ≠ new := fun hn he => hnq (he ▸ hn)
  have hlq : ∀ {n}, l₁.getLast? = some n → n ∈ chain q := fun hn =>
    hq ▸ List.mem_append_left _ (List.mem_of_getLast? hn)
  -- a node of another list is neither the new one nor the predecessor
  have houter : ∀ {n}, n ≠ new → n ∉ chain q → h'.next n = h.next n := fun hn hc =>
    hsame _ hn fun hl => hc (hlq hl)
  refine ⟨?_, fun q' => ?_, fun q' => ?_, fun q' => ?_, fun n => ?_, ?_, ?_⟩
  · rw [hfree]
    refine R.freeSeg.2.frame_head fun n hn => houter ?_ ?_
    · rintro rfl
      exact (List.nodup_cons.mp R.free_nodup).1 hn
    · exact R.freeApart q n (List.mem_cons_of_mem _ hn)
  · rcases eq_or_ne q' q with rfl | hne'
    · rw [update_self, hhead]
      exact Seg.insert (hq ▸ R.seg q') (hq ▸ R.nodup q')
        (fun n hn hl => hsame n (hne hn) hl) hlast hnew
    · rw [update_of_ne hne', hother q' hne']
      refine (R.seg q').frame fun n hn => houter ?_ fun hc => hne' (R.apart _ _ n hn hc)
      rintro rfl
      exact R.freeApart q' n (List.mem_cons_self ..) hn
  · rcases eq_or_ne q' q with rfl | hne'
    · rw [update_self, htail]
    · rw [update_of_ne hne', hother q' hne', R.tail]
  · rcases eq_or_ne q' q with rfl | hne'
    · have hlen := R.size q'
      have hle := R.length_le q'
      rw [hq, List.length_append] at hlen hle
      rw [update_self, hsize, BitVec.toNat_add, hlen, List.length_append,
        List.length_cons, Nat.mod_eq_of_lt]
      · exact Nat.add_assoc ..
      · exact Nat.lt_of_le_of_lt (Nat.add_le_add_right hle 1) (by decide)
    · rw [update_of_ne hne', hother q' hne', R.size]
  · rcases R.cover n with hn | ⟨q', hn⟩
    · rcases List.mem_cons.mp hn with rfl | hn
      · exact Or.inr ⟨q, by simp⟩
      · exact Or.inl hn
    · refine Or.inr ⟨q', ?_⟩
      rcases eq_or_ne q' q with rfl | hne'
      · rw [update_self]
        rw [hq] at hn
        simp only [List.mem_append, List.mem_cons] at hn ⊢
        tauto
      · rwa [update_of_ne hne']
  · intro q' n hn
    have hnn : n ≠ new := fun he => (List.nodup_cons.mp R.free_nodup).1 (he ▸ hn)
    have hnc := R.freeApart q' n (List.mem_cons_of_mem _ hn)
    rcases eq_or_ne q' q with rfl | hne'
    · rw [update_self]
      rw [hq] at hnc
      simp only [List.mem_append, List.mem_cons] at hnc ⊢
      tauto
    · rwa [update_of_ne hne']
  · have hmem : ∀ {q' n}, n ∈ update chain q (l₁ ++ new :: l₂) q' →
        (q' = q ∧ n = new) ∨ n ∈ chain q' := by
      intro q' n hn
      rcases eq_or_ne q' q with rfl | hne'
      · rw [update_self] at hn
        rw [hq]
        simp only [List.mem_append, List.mem_cons] at hn ⊢
        tauto
      · rw [update_of_ne hne'] at hn
        exact Or.inr hn
    intro q₁ q₂ n h1 h2
    have hnew' := fun q' => R.freeApart q' new (List.mem_cons_self ..)
    rcases hmem h1 with ⟨hq₁, hn⟩ | hc₁ <;> rcases hmem h2 with ⟨hq₂, hn'⟩ | hc₂
    · exact hq₁.trans hq₂.symm
    · exact absurd (hn ▸ hc₂) (hnew' q₂)
    · exact absurd (hn' ▸ hc₁) (hnew' q₁)
    · exact R.apart _ _ n hc₁ hc₂

/-- Node `n` is linked out of queue `q` and put back on the free list. -/
theorem unlink {n : QPtr} {q : ι} {l₁ l₂ : List QPtr}
    (R : Rep h free chain) (hq : chain q = l₁ ++ n :: l₂)
    (hfree : h'.freeQnodes = some n)
    (hsame : ∀ m, m ≠ n → l₁.getLast? ≠ some m → h'.next m = h.next m)
    (hlast : ∀ m, l₁.getLast? = some m → h'.next m = l₂.head?)
    (hold : h'.next n = h.freeQnodes)
    (hother : ∀ q', q' ≠ q → h'.ques q' = h.ques q')
    (hhead : (h'.ques q).head = (l₁ ++ l₂).head?)
    (htail : (h'.ques q).tail = (l₁ ++ l₂).getLast?)
    (hsize : (h'.ques q).size = (h.ques q).size - 1) :
    Rep h' (n :: free) (update chain q (l₁ ++ l₂)) := by
  have hnq : n ∈ chain q := by simp [hq]
  have hnd : (l₁ ++ n :: l₂).Nodup := hq ▸ R.nodup q
  have hnot : n ∉ l₁ ++ l₂ := (List.nodup_middle.mp hnd |> List.nodup_cons.mp).1
  have hlq : ∀ {m}, l₁.getLast? = some m → m ∈ chain q := fun hm =>
    hq ▸ List.mem_append_left _ (List.mem_of_getLast? hm)
  have houter : ∀ {m}, m ∉ chain q → h'.next m = h.next m := fun hc =>
    hsame _ (fun he => hc (he ▸ hnq)) fun hl => hc (hlq hl)
  have hmem : ∀ {q' m}, m ∈ update chain q (l₁ ++ l₂) q' ↔ m ∈ chain q' ∧ m ≠ n := by
    intro q' m
    rcases eq_or_ne q' q with rfl | hne'
    · rw [update_self, hq]
      constructor
      · intro hm
        refine ⟨?_, fun he => hnot (he ▸ hm)⟩
        simp only [List.mem_append, List.mem_cons] at hm ⊢
        tauto
      · rintro ⟨hm, hmn⟩
        simp only [List.mem_append, List.mem_cons] at hm ⊢
        tauto
    · rw [update_of_ne hne']
      exact ⟨fun hm => ⟨hm, fun he => hne' (R.apart _ _ n (he ▸ hm) hnq)⟩, And.left⟩
  refine ⟨⟨hfree, ?_⟩, fun q' => ?_, fun q' => ?_, fun q' => ?_, fun m => ?_, ?_, ?_⟩
  · rw [hold]
    exact R.freeSeg.frame fun m hm => houter (R.freeApart q m hm)
  · rcases eq_or_ne q' q with rfl | hne'
    · rw [update_self, hhead]
      refine Seg.remove (hq ▸ R.seg q') hnd (fun m hm hl => hsame m ?_ hl) hlast
      exact fun he => hnot (he ▸ hm)
    · rw [update_of_ne hne', hother q' hne']
      exact (R.seg q').frame fun m hm => houter fun hc => hne' (R.apart _ _ m hm hc)
  · rcases eq_or_ne q' q with rfl | hne'
    · rw [update_self, htail]
    · rw [update_of_ne hne', hother q' hne', R.tail]
  · rcases eq_or_ne q' q with rfl | hne'
    · have hlen := R.size q'
      rw [hq, List.length_append, List.length_cons] at hlen
      rw [update_self, hsize, List.length_append, BitVec.toNat_sub_of_le, hlen]
      · rfl
      · rw [BitVec.le_def, hlen]
        exact Nat.le_add_left ..
    · rw [update_of_ne hne', hother q' hne', R.size]
  · rcases R.cover m with hm | ⟨q', hm⟩
    · exact Or.inl (List.mem_cons_of_mem _ hm)
    · rcases eq_or_ne m n with rfl | hmn
      · exact Or.inl (List.mem_cons_self ..)
      · exact Or.inr ⟨q', hmem.mpr ⟨hm, hmn⟩⟩
  · intro q' m hm hc
    obtain ⟨hc, hmn⟩ := hmem.mp hc
    rcases List.mem_cons.mp hm with rfl | hm
    · exact hmn rfl
    · exact R.freeApart q' m hm hc
  · intro q₁ q₂ m h1 h2
    exact R.apart _ _ m (hmem.mp h1).1 (hmem.mp h2).1

end Rep

/-! ## The traversal -/

/-- On a null-terminated chain the traversal stops at the first node that
fails `go`; `prev` is the node before it. -/
theorem traverse_spec {h : QHeap ι α κ} {go : QPtr → Bool} :
    ∀ {l : List QPtr} {fuel : Nat} {prev curr : Option QPtr},
      Seg h.next curr l none → l.length ≤ fuel →
      traverse h go fuel prev curr
        = .ok ((l.takeWhile go).getLast?.or prev, (l.dropWhile go).head?)
  | [], fuel, prev, _, rfl, _ => by simp [traverse]
  | n :: l, 0, _, _, _, hf => by simp at hf
  | n :: l, fuel + 1, prev, _, ⟨rfl, hl⟩, hf => by
      by_cases hg : go n = true
      · have ih : traverse h go fuel (some n) (h.next n) = _ :=
          traverse_spec hl (Nat.le_of_succ_le_succ hf)
        rw [traverse, if_pos hg, ih, List.takeWhile_cons_of_pos hg,
          List.dropWhile_cons_of_pos hg]
        cases l.takeWhile go with
        | nil => simp
        | cons a m => simp [List.getLast?_cons]
      · rw [traverse, if_neg hg, List.takeWhile_cons_of_neg hg,
          List.dropWhile_cons_of_neg hg]
        simp

/-! ## Insertion -/

variable [DecidableEq ι]

/-- The position at which `_q_enque` inserts: at the end of a FIFO queue,
behind every entry that does not compare greater in an ordered one. -/
def spot (ord : Option (Option α → Option α → Int)) (d : Option α)
    (key : QPtr → Option α) (l : List QPtr) : List QPtr × List QPtr :=
  match ord with
  | none => (l, [])
  | some c => (l.takeWhile fun n => decide (0 ≤ c d (key n)),
      l.dropWhile fun n => decide (0 ≤ c d (key n)))

theorem spot_append (ord : Option (Option α → Option α → Int)) (d : Option α)
    (key : QPtr → Option α) (l : List QPtr) :
    (spot ord d key l).1 ++ (spot ord d key l).2 = l := by
  cases ord with
  | none => simp [spot]
  | some c => simp [spot]

/-- What a successful `_q_enque` leaves behind: the node `new` holds `d`
and is linked in at its `spot`. -/
structure Enqueued (cmpf : κ → Option α → Option α → Int) (h h' : QHeap ι α κ)
    (chain : ι → List QPtr) (q : ι) (d : Option α) (new : QPtr)
    (rest : List QPtr) : Prop where
  data : h'.data = update h.data new d
  cmp : ∀ q', (h'.ques q').cmp = (h.ques q').cmp
  rep : Rep h' rest (update chain q
    ((spot ((h.ques q).cmp.map cmpf) d h'.data (chain q)).1
      ++ new :: (spot ((h.ques q).cmp.map cmpf) d h'.data (chain q)).2))

/-- The heap once `new` is off the free list and its fields are filled in. -/
def taken (h : QHeap ι α κ) (new : QPtr) (d : Option α) : QHeap ι α κ :=
  { (h.setData new d).setNext new none with freeQnodes := h.next new }

section Insert

variable {h : QHeap ι α κ} {rest : List QPtr} {chain : ι → List QPtr} {new : QPtr}
  {q : ι} {d : Option α} {cmpf : κ → Option α → Option α → Int}

theorem cmp_update {h : QHeap ι α κ} {q : ι} {u : Que κ} (hu : u.cmp = (h.ques q).cmp)
    (q' : ι) : (update h.ques q u q').cmp = (h.ques q').cmp := by
  rcases eq_or_ne q' q with rfl | hne
  · rw [update_self, hu]
  · rw [update_of_ne hne]

theorem enqueued_first (R : Rep h (new :: rest) chain) (hz : (h.ques q).size = 0) :
    Enqueued cmpf h
      ((taken h new d).setQue q
        { h.ques q with head := some new, tail := some new, size := 1 })
      chain q d new rest := by
  refine ⟨rfl, cmp_update rfl, ?_⟩
  have hnil : chain q = [] := (R.size_eq_zero q).mp hz
  have hspot : ∀ key : QPtr → Option α,
      spot ((h.ques q).cmp.map cmpf) d key (chain q) = ([], []) := by
    intro key
    rw [hnil]
    cases (h.ques q).cmp <;> rfl
  rw [hspot]
  refine R.link (by simpa using hnil) R.freeSeg.2.head ?_ ?_ ?_ ?_ ?_ ?_ ?_
  · intro n hn _
    exact update_of_ne hn ..
  · intro n hn
    cases hn
  · exact update_self ..
  · intro q' hq'
    exact update_of_ne hq' ..
  · simp [QHeap.setQue]
  · simp [QHeap.setQue]
  · simp [QHeap.setQue, hz]

theorem enqueued_fifo (R : Rep h (new :: rest) chain) (hc : (h.ques q).cmp = none)
    {t : QPtr} (ht : (chain q).getLast? = some t) :
    Enqueued cmpf h
      (((taken h new d).setNext t (some new)).setQue q
        { h.ques q with tail := some new, size := (h.ques q).size + 1 })
      chain q d new rest := by
  refine ⟨rfl, cmp_update rfl, ?_⟩
  have hnq : new ∉ chain q := R.freeApart q new (List.mem_cons_self ..)
  have htn : t ≠ new := fun he => hnq (he ▸ List.mem_of_getLast? ht)
  have hne : chain q ≠ [] := fun hn => by simp [hn] at ht
  rw [hc]
  refine R.link (by simp [spot]) R.freeSeg.2.head ?_ ?_ ?_ ?_ ?_ ?_ ?_
  · intro n hn hl
    have hnt : n ≠ t := fun he => hl (by simpa [spot, he] using ht)
    simp [taken, QHeap.setNext, QHeap.setQue, QHeap.setData, hn, hnt]
  · intro n hn
    have hnt : t = n := Option.some.inj (ht.symm.trans hn)
    simp [QHeap.setNext, QHeap.setQue, hnt]
  · simp [taken, QHeap.setNext, QHeap.setQue, spot, htn.symm]
  · intro q' hq'
    exact update_of_ne hq' ..
  · simp [QHeap.setQue, spot, R.head q, List.head?_append_of_ne_nil _ hne]
  · simp [QHeap.setQue, spot]
  · simp [QHeap.setQue]

/-- An entry in front of every other one of an ordered queue. -/
theorem enqueued_front (R : Rep h (new :: rest) chain) {c : κ}
    (hc : (h.ques q).cmp = some c) (hne : chain q ≠ [])
    (hspot : spot (some (cmpf c)) d (update h.data new d) (chain q) = ([], chain q)) :
    Enqueued cmpf h
      (((taken h new d).setNext new (chain q).head?).setQue q
        { h.ques q with head := some new, size := (h.ques q).size + 1 })
      chain q d new rest := by
  refine ⟨rfl, cmp_update rfl, ?_⟩
  rw [hc, show QHeap.data _ = update h.data new d from rfl, Option.map_some, hspot]
  refine R.link (List.nil_append _).symm R.freeSeg.2.head ?_ ?_ ?_ ?_ ?_ ?_ ?_
  · intro n hn _
    simp [taken, QHeap.setNext, QHeap.setQue, QHeap.setData, hn]
  · intro n hn
    cases hn
  · simp [QHeap.setNext, QHeap.setQue]
  · intro q' hq'
    exact update_of_ne hq' ..
  · simp [QHeap.setQue]
  · simp [QHeap.setQue, R.tail q, List.getLast?_cons, List.getLast?_eq_some_getLast hne]
  · simp [QHeap.setQue]

/-- An entry right behind the node `p` of an ordered queue. -/
theorem enqueued_behind (R : Rep h (new :: rest) chain) {c : κ}
    (hc : (h.ques q).cmp = some c) {p : QPtr} {l₁ l₂ : List QPtr}
    (hspot : spot (some (cmpf c)) d (update h.data new d) (chain q) = (l₁, l₂))
    (hp : l₁.getLast? = some p) :
    Enqueued cmpf h
      ((((taken h new d).setNext new l₂.head?).setNext p (some new)).setQue q
        { h.ques q with
          tail := if l₂.head? = none then some new else (h.ques q).tail
          size := (h.ques q).size + 1 })
      chain q d new rest := by
  refine ⟨rfl, cmp_update rfl, ?_⟩
  have hsplit : chain q = l₁ ++ l₂ := by
    have := spot_append (some (cmpf c)) d (update h.data new d) (chain q)
    rw [hspot] at this
    exact this.symm
  have hnq : new ∉ l₁ ++ l₂ := hsplit ▸ R.freeApart q new (List.mem_cons_self ..)
  have hpn : p ≠ new := fun he =>
    hnq (he ▸ List.mem_append_left _ (List.mem_of_getLast? hp))
  have hl₁ : l₁ ≠ [] := fun hn => by simp [hn] at hp
  rw [hc, show QHeap.data _ = update h.data new d from rfl, Option.map_some, hspot]
  refine R.link hsplit R.freeSeg.2.head ?_ ?_ ?_ ?_ ?_ ?_ ?_
  · intro n hn hl
    have hnp : n ≠ p := fun he => hl (he ▸ hp)
    simp [taken, QHeap.setNext, QHeap.setQue, QHeap.setData, hn, hnp]
  · intro n hn
    have hnp : p = n := Option.some.inj (hp.symm.trans hn)
    simp [QHeap.setNext, QHeap.setQue, hnp]
  · simp [QHeap.setNext, QHeap.setQue, hpn.symm]
  · intro q' hq'
    exact update_of_ne hq' ..
  · simp only [QHeap.setQue, update_self, R.head q, hsplit]
    rw [List.head?_append_of_ne_nil _ hl₁, List.head?_append_of_ne_nil _ hl₁]
  · simp only [QHeap.setQue, update_self, R.tail q, hsplit]
    cases l₂ with
    | nil => simp
    | cons a m => simp [List.getLast?_append, List.getLast?_cons]
  · simp [QHeap.setQue]

end Insert

/-- `_q_enque` fails for lack of a node and then changes nothing, or links
the first free node in. -/
theorem qEnque_spec {h : QHeap ι α κ} {free : List QPtr} {chain : ι → List QPtr}
    (R : Rep h free chain) (cmpf : κ → Option α → Option α → Int) (q : ι)
    (d : Option α) :
    (free = [] ∧ qEnque cmpf h (some q) d = .ok (.noQnodes, h)) ∨
    ∃ new rest h', free = new :: rest
      ∧ qEnque cmpf h (some q) d = .ok (.success, h')
      ∧ Enqueued cmpf h h' chain q d new rest := by
  cases free with
  | nil =>
      have hfree : h.freeQnodes = none := R.free_head
      exact Or.inl ⟨rfl, by simp only [qEnque, qnAlloc, hfree]⟩
  | cons new rest =>
      refine Or.inr ⟨new, rest, ?_⟩
      have hfree : h.freeQnodes = some new := R.free_head
      have hnq : new ∉ chain q := R.freeApart q new (List.mem_cons_self ..)
      have htaken : (QHeap.setData { h with freeQnodes := h.next new } new d).setNext
          new none = taken h new d := rfl
      simp only [qEnque, qnAlloc, hfree, htaken]
      by_cases hz : (h.ques q).size = 0
      · refine ⟨_, trivial, ?_, enqueued_first R hz⟩
        exact if_pos hz
      · have hne : chain q ≠ [] := fun hn => hz ((R.size_eq_zero q).mpr hn)
        cases hc : (h.ques q).cmp with
        | none =>
            have ht := List.getLast?_eq_some_getLast hne
            refine ⟨_, trivial, ?_, enqueued_fifo R hc ht⟩
            refine (if_neg hz).trans ?_
            simp only [show (taken h new d).ques q = h.ques q from rfl, hc, R.tail q, ht]
        | some c =>
            obtain ⟨l₁, l₂, hspot⟩ :
                ∃ l₁ l₂, spot (some (cmpf c)) d (update h.data new d) (chain q) = (l₁, l₂) :=
              ⟨_, _, rfl⟩
            have hwalk : traverse (taken h new d)
                (fun n => decide (0 ≤ cmpf c d ((taken h new d).data n))) nQnodes none
                (h.ques q).head = .ok (l₁.getLast?, l₂.head?) := by
              obtain ⟨rfl, rfl⟩ := Prod.mk.injEq .. |>.mp hspot
              refine (traverse_spec ((R.seg q).frame fun n hn => ?_) (R.length_le q)).trans ?_
              · exact update_of_ne (fun (he : n = new) => hnq (he ▸ hn)) ..
              · rw [Option.or_none]
                rfl
            cases hp : l₁.getLast? with
            | none =>
                have hnil : l₁ = [] := List.getLast?_eq_none_iff.mp hp
                have hl₂' : l₂ = chain q := by
                  have := spot_append (some (cmpf c)) d (update h.data new d) (chain q)
                  rwa [hspot, hnil] at this
                subst hnil hl₂'
                have ha := List.head?_eq_some_head hne
                refine ⟨_, trivial, ?_, enqueued_front R hc hne hspot⟩
                refine (if_neg hz).trans ?_
                simp only [show (taken h new d).ques q = h.ques q from rfl, hc, hwalk,
                  ok_bind, hp, ha]
            | some p =>
                refine ⟨_, trivial, ?_, enqueued_behind R hc hspot hp⟩
                refine (if_neg hz).trans ?_
                simp only [show (taken h new d).ques q = h.ques q from rfl, hc, hwalk,
                  ok_bind, hp]

/-! ## Removal -/

/-- What a successful removal leaves behind: the node `n` is back at the
front of the free list. -/
structure Removed (h h' : QHeap ι α κ) (chain : ι → List QPtr) (q : ι) (n : QPtr)
    (free l : List QPtr) : Prop where
  data : h'.data = update h.data n none
  cmp : ∀ q', (h'.ques q').cmp = (h.ques q').cmp
  rep : Rep h' (n :: free) (update chain q l)

omit [DecidableEq ι] in
theorem qPeek_spec {h : QHeap ι α κ} {free : List QPtr} {chain : ι → List QPtr}
    (R : Rep h free chain) (q : ι) (old : Option α) :
    qPeek h (some q) (some old) =
      match chain q with
      | [] => .ok (.emptyQueue, old)
      | n :: _ => .ok (.success, h.data n) := by
  cases hq : chain q with
  | nil => simp [qPeek, (R.size_eq_zero q).mpr hq]
  | cons n l =>
      have hz : (h.ques q).size ≠ 0 := fun hz => by
        rw [(R.size_eq_zero q).mp hz] at hq
        cases hq
      have hhead : (h.ques q).head = some n := by rw [R.head, hq]; rfl
      have htail : (h.ques q).tail = some ((n :: l).getLast (List.cons_ne_nil n l)) := by
        rw [R.tail, hq, List.getLast?_eq_some_getLast]
      simp only [qPeek, hz, ↓reduceIte, hhead, htail]

theorem qDeque_nil {h : QHeap ι α κ} {free : List QPtr} {chain : ι → List QPtr}
    (R : Rep h free chain) {q : ι} (hq : chain q = []) (old : Option α) :
    qDeque h (some q) (some old) = .ok (.emptyQueue, old, h) := by
  have hpeek := qPeek_spec R q old
  rw [hq] at hpeek
  simp only [qDeque, hpeek, ok_bind]
  rfl

theorem qDeque_cons {h : QHeap ι α κ} {free : List QPtr} {chain : ι → List QPtr}
    (R : Rep h free chain) {q : ι} {n : QPtr} {l : List QPtr} (hq : chain q = n :: l)
    (old : Option α) :
    ∃ h', qDeque h (some q) (some old) = .ok (.success, h.data n, h')
      ∧ Removed h h' chain q n free l := by
  have hpeek := qPeek_spec R q old
  rw [hq] at hpeek
  have hhead : (h.ques q).head = some n := by rw [R.head, hq]; rfl
  have hnext : h.next n = l.head? := by
    have := hq ▸ R.seg q
    exact this.2.head
  have hlen : (h.ques q).size.toNat = l.length + 1 := by rw [R.size, hq]; rfl
  have hsize : ¬(h.next n = none ∧ (h.ques q).size - 1 ≠ 0) := by
    rintro ⟨hn, hs⟩
    rw [hnext, List.head?_eq_none_iff] at hn
    refine hs ?_
    rw [hn] at hlen
    have : (h.ques q).size = 1 := BitVec.eq_of_toNat_eq hlen
    rw [this]
    rfl
  simp only [qDeque, hpeek, ok_bind, hhead]
  refine ⟨_, if_neg hsize, rfl, cmp_update rfl, ?_⟩
  rw [← List.nil_append (n :: l)] at hq
  refine R.unlink hq rfl ?_ ?_ ?_ ?_ ?_ ?_ ?_
  · intro m hm _
    simp [qnDealloc, QHeap.setNext, QHeap.setQue, QHeap.setData, hm]
  · intro m hm
    cases hm
  · simp [qnDealloc, QHeap.setNext, QHeap.setQue]
  · intro q' hq'
    exact update_of_ne hq' ..
  · simp [qnDealloc, QHeap.setNext, QHeap.setData, QHeap.setQue, hnext]
  · simp only [qnDealloc, QHeap.setNext, QHeap.setData, QHeap.setQue, update_self,
      hnext, R.tail q, hq, List.nil_append]
    cases l with
    | nil => rfl
    | cons a m => simp [List.getLast?_cons_cons]
  · simp [qnDealloc, QHeap.setNext, QHeap.setData, QHeap.setQue]

variable [DecidableEq α]

/-- `_q_remove` reports an absent entry and changes nothing, or unlinks the
first node that holds it. -/
theorem qRemove_spec {h : QHeap ι α κ} {free : List QPtr} {chain : ι → List QPtr}
    (R : Rep h free chain) (q : ι) (d : Option α) :
    (d ∉ items h chain q ∧ qRemove h (some q) d = .ok (.noProcess, h)) ∨
    ∃ l₁ n l₂ h', chain q = l₁ ++ n :: l₂ ∧ d ∉ l₁.map h.data ∧ h.data n = d
      ∧ qRemove h (some q) d = .ok (.success, h')
      ∧ Removed h h' chain q n free (l₁ ++ l₂) := by
  have hwalk : traverse h (fun n => decide (h.data n ≠ d)) nQnodes none (h.ques q).head = _ :=
    traverse_spec (R.seg q) (R.length_le q)
  rw [Option.or_none] at hwalk
  have hsplit : (chain q).takeWhile (fun n => decide (h.data n ≠ d))
      ++ (chain q).dropWhile (fun n => decide (h.data n ≠ d)) = chain q :=
    List.takeWhile_append_dropWhile
  have hbefore : ∀ m ∈ (chain q).takeWhile (fun n => decide (h.data n ≠ d)),
      h.data m ≠ d := by
    intro m hm
    simpa using List.mem_takeWhile_imp hm
  generalize (chain q).takeWhile (fun n => decide (h.data n ≠ d)) = l₁
    at hwalk hsplit hbefore
  have hd₁ : d ∉ l₁.map h.data := by
    rw [List.mem_map]
    rintro ⟨m, hm, he⟩
    exact hbefore m hm he
  simp only [qRemove, hwalk, ok_bind]
  cases hdrop : (chain q).dropWhile (fun n => decide (h.data n ≠ d)) with
  | nil =>
      rw [hdrop, List.append_nil] at hsplit
      refine Or.inl ⟨?_, rfl⟩
      rw [items, ← hsplit]
      exact hd₁
  | cons n l₂ =>
      have hn : h.data n = d := by
        have := List.head?_dropWhile_not (fun n => decide (h.data n ≠ d)) (chain q)
        rw [hdrop] at this
        simpa using this
      rw [hdrop] at hsplit
      have hnd : (l₁ ++ n :: l₂).Nodup := hsplit ▸ R.nodup q
      refine Or.inr ⟨l₁, n, l₂, _, hsplit.symm, hd₁, hn, rfl, ?_⟩
      have hseg : Seg h.next (h.ques q).head (l₁ ++ n :: l₂) none := hsplit ▸ R.seg q
      have hnext : h.next n = l₂.head? := by
        obtain ⟨r, -, hr⟩ := seg_append.mp hseg
        exact hr.2.head
      have htail : (if (h.ques q).tail = some n then l₁.getLast? else (h.ques q).tail)
          = (l₁ ++ l₂).getLast? := by
        rw [R.tail q, ← hsplit]
        cases l₂ with
        | nil => simp
        | cons a m =>
            have hlast : (l₁ ++ n :: a :: m).getLast? = (l₁ ++ a :: m).getLast? := by
              simp [List.getLast?_append, List.getLast?_cons]
            have hne : (l₁ ++ a :: m).getLast? ≠ some n := fun he =>
              (List.nodup_middle.mp hnd |> List.nodup_cons.mp).1 (List.mem_of_getLast? he)
            rw [hlast, if_neg hne]
      cases hp : l₁.getLast? with
      | none =>
          have hnil : l₁ = [] := List.getLast?_eq_none_iff.mp hp
          subst hnil
          refine ⟨rfl, cmp_update rfl, ?_⟩
          refine R.unlink hsplit.symm rfl ?_ ?_ ?_ ?_ ?_ ?_ ?_
          · intro m hm _
            simp [qnDealloc, QHeap.setNext, QHeap.setQue, QHeap.setData, hm]
          · intro m hm
            cases hm
          · simp [qnDealloc, QHeap.setNext, QHeap.setQue]
          · intro q' hq'
            exact update_of_ne hq' ..
          · simp [qnDealloc, QHeap.setNext, QHeap.setData, QHeap.setQue, hnext]
          · simpa [qnDealloc, QHeap.setNext, QHeap.setData, QHeap.setQue] using htail
          · simp [qnDealloc, QHeap.setNext, QHeap.setData, QHeap.setQue]
      | some p =>
          have hpn : p ≠ n := fun he => by
            have := (List.nodup_middle.mp hnd |> List.nodup_cons.mp).1
            exact this (he ▸ List.mem_append_left _ (List.mem_of_getLast? hp))
          have hl₁ : l₁ ≠ [] := fun hn => by simp [hn] at hp
          refine ⟨rfl, cmp_update rfl, ?_⟩
          refine R.unlink hsplit.symm rfl ?_ ?_ ?_ ?_ ?_ ?_ ?_
          · intro m hm hl
            have hmp : m ≠ p := fun he => hl (he ▸ hp)
            simp [qnDealloc, QHeap.setNext, QHeap.setQue, QHeap.setData, hm, hmp]
          · intro m hm
            obtain rfl := Option.some.inj (hp.symm.trans hm)
            simp [qnDealloc, QHeap.setNext, QHeap.setQue, QHeap.setData, hpn, hnext]
          · simp [qnDealloc, QHeap.setNext, QHeap.setQue]
          · intro q' hq'
            exact update_of_ne hq' ..
          · simp only [qnDealloc, QHeap.setNext, QHeap.setData, QHeap.setQue, update_self]
            rw [R.head q, ← hsplit, List.head?_append_of_ne_nil _ hl₁,
              List.head?_append_of_ne_nil _ hl₁]
          · rw [hp] at htail
            simpa [qnDealloc, QHeap.setNext, QHeap.setData, QHeap.setQue] using htail
          · simp [qnDealloc, QHeap.setNext, QHeap.setData, QHeap.setQue]

end SpKernel
