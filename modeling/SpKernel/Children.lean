import SpKernel.Machine

/-!
# The child iterator

`_pcb_find_child_of` keeps its position in statics and is used as an
iterator, while the loop body changes the very fields it searches on.
Both loops that use it run through `kidsFrom`, the PCBs at or after the
position whose `ppid` is the target, in table order: the body only
touches the PCB the iterator stands on, and the iterator only looks
further up.

`Iter k target l` says that the iterator stands on the head of `l` and
has the tail before it. `pcbFindChildOf_start` begins a search at the
first PCB of the table, and `pcbFindChildOf_next` continues it behind the
one that was found last; both return the head of the list of those that
are left.

From these two the loops are inductions over that list. `reparent_ok`
says that the reparenting of `_zombify` returns, and that it changes the
parent of exactly the PCBs whose `ppid` was the one of the dead process,
and one counter. `findZombie_ok` says that the search of `_sys_wait` ends
with the first child that is a zombie, if there is one.

A call with -1 in the place of the PID goes on with the search. No
process has that PID, so that a search for the children of one is never
taken for such a call (`signExtend_ne`).
-/

namespace SpKernel

open Function (update update_self update_of_ne)
open Lib

/-- The PCBs from index `i` on whose `ppid` is the target. -/
def kidsFrom (k : Kernel) (target : Word) (i : Nat) : List PcbId :=
  (List.finRange nPcbs).filter fun p =>
    decide (i ≤ p.val) && (k.pcbs p).ppid.signExtend 32 == target

theorem findChildFrom_eq (k : Kernel) (target : Word) (i : Nat) :
    findChildFrom k target i = (kidsFrom k target i).head? :=
  (List.head?_filter ..).symm

theorem mem_kidsFrom {k : Kernel} {target : Word} {i : Nat} {p : PcbId} :
    p ∈ kidsFrom k target i ↔ i ≤ p.val ∧ (k.pcbs p).ppid.signExtend 32 = target := by
  simp [kidsFrom]

theorem kidsFrom_tail {k : Kernel} {target : Word} {i : Nat} {c : PcbId} {l : List PcbId}
    (h : kidsFrom k target i = c :: l) : kidsFrom k target (c.val + 1) = l := by
  have hc := mem_kidsFrom.mp (h ▸ List.mem_cons_self ..)
  have hsorted : (c :: l).Pairwise (· < ·) :=
    h ▸ (List.pairwise_lt_finRange nPcbs).filter _
  have hsplit : kidsFrom k target (c.val + 1)
      = (kidsFrom k target i).filter fun p => decide (c.val + 1 ≤ p.val) := by
    rw [kidsFrom, kidsFrom, List.filter_filter]
    refine List.filter_congr fun p _ => ?_
    by_cases hp : c.val + 1 ≤ p.val
    · have : i ≤ p.val := by omega
      simp [hp, this]
    · simp [hp]
  rw [hsplit, h, List.filter_cons, if_neg (by simp), List.filter_eq_self]
  intro p hp
  have hlt : c.val < p.val := List.rel_of_pairwise_cons hsorted hp
  exact decide_eq_true hlt

theorem kidsFrom_congr {k k' : Kernel} {target : Word} {i : Nat}
    (h : ∀ p : PcbId, i ≤ p.val → (k'.pcbs p).ppid = (k.pcbs p).ppid) :
    kidsFrom k' target i = kidsFrom k target i := by
  refine List.filter_congr fun p _ => ?_
  by_cases hp : i ≤ p.val
  · rw [h p hp]
  · simp [hp]

/-- The iterator's statics after it has returned the head of `l`. -/
def iterAt (k : Kernel) (target : Word) (l : List PcbId) : Kernel :=
  match l with
  | [] => { k with childCurr := none, childTarget := -1 }
  | c :: _ => { k with childCurr := some c, childTarget := target }

/-- The iterator stands on the head of `l` and has the tail before it. -/
def Iter (k : Kernel) (target : Word) : List PcbId → Prop
  | [] => True
  | c :: l => k.childCurr = some c ∧ k.childTarget = target
      ∧ kidsFrom k target (c.val + 1) = l

theorem iter_iterAt (k : Kernel) (target : Word) (i : Nat) :
    Iter (iterAt k target (kidsFrom k target i)) target (kidsFrom k target i) := by
  cases h : kidsFrom k target i with
  | nil => trivial
  | cons c l => exact ⟨rfl, rfl, kidsFrom_tail h⟩

@[simp] theorem iterAt_pcbs (k : Kernel) (target : Word) (l : List PcbId) :
    (iterAt k target l).pcbs = k.pcbs := by
  cases l <;> rfl

/-- Up to the iterator's statics. -/
def SameButIter (k k' : Kernel) : Prop :=
  k' = { k with childCurr := k'.childCurr, childTarget := k'.childTarget }

theorem SameButIter.trans {k₁ k₂ k₃ : Kernel} (h : SameButIter k₁ k₂)
    (h' : SameButIter k₂ k₃) : SameButIter k₁ k₃ := by
  rw [SameButIter] at h h' ⊢
  rw [h', h]

theorem iterAt_same (k : Kernel) (target : Word) (l : List PcbId) :
    SameButIter k (iterAt k target l) := by
  cases l <;> rfl

theorem search_eq (k : Kernel) (target : Word) (i : Nat) :
    pcbFindChildOf.search k target i
      = .ok ((kidsFrom k target i).head?, iterAt k target (kidsFrom k target i)) := by
  rw [pcbFindChildOf.search, findChildFrom_eq]
  cases kidsFrom k target i with
  | nil => rfl
  | cons c l => rfl

theorem pcbFindChildOf_start {k : Kernel} {ppid : Word} (h : ppid ≠ -1) :
    pcbFindChildOf k ppid
      = .ok ((kidsFrom k ppid 0).head?, iterAt k ppid (kidsFrom k ppid 0)) := by
  rw [pcbFindChildOf, ← search_eq]
  cases k.childCurr with
  | none => simp only [h, ↓reduceIte]
  | some c => simp only [h, ne_eq, not_false_eq_true, ↓reduceIte]

theorem pcbFindChildOf_next {k : Kernel} {c : PcbId} (h : k.childCurr = some c) :
    pcbFindChildOf k (-1)
      = .ok ((kidsFrom k k.childTarget (c.val + 1)).head?,
          iterAt k k.childTarget (kidsFrom k k.childTarget (c.val + 1))) := by
  rw [pcbFindChildOf, ← search_eq, h]
  simp

/-! ## Reparenting -/

@[simp] theorem adopt_childCurr (k : Kernel) (p : PcbId) :
    (adopt k p).childCurr = k.childCurr := rfl

@[simp] theorem adopt_childTarget (k : Kernel) (p : PcbId) :
    (adopt k p).childTarget = k.childTarget := rfl

@[simp] theorem adopt_initPcb (k : Kernel) (p : PcbId) : (adopt k p).initPcb = k.initPcb := rfl

/-- One round changes one `ppid` and the counter of `init`. -/
theorem adopt_pcbs (k : Kernel) (whom p : PcbId) :
    (adopt k whom).pcbs p =
      { k.pcbs p with
        ppid := if p = whom then pidInit else (k.pcbs p).ppid
        children := if p = k.initPcb then (k.pcbs p).children + 1 else (k.pcbs p).children } := by
  simp only [adopt, Kernel.setPcb, Function.update_apply]
  by_cases hi : p = k.initPcb
  · by_cases hw : p = whom
    · subst hi
      simp [← hw]
    · subst hi
      simp [hw]
  · by_cases hw : p = whom
    · subst hw
      simp [hi]
    · simp [hi, hw]

theorem foldl_adopt_pcbs : ∀ (l : List PcbId) (k : Kernel) (p : PcbId),
    (l.foldl adopt k).pcbs p =
      { k.pcbs p with
        ppid := if p ∈ l then pidInit else (k.pcbs p).ppid
        children := if p = k.initPcb then (k.pcbs p).children + BitVec.ofNat 16 l.length
          else (k.pcbs p).children }
  | [], k, p => by simp
  | c :: l, k, p => by
      rw [List.foldl_cons, foldl_adopt_pcbs l, adopt_pcbs]
      have hlen : BitVec.ofNat 16 (c :: l).length = 1#16 + BitVec.ofNat 16 l.length := by
        rw [List.length_cons, Nat.add_comm, BitVec.ofNat_add]
      simp only [adopt_initPcb, hlen]
      by_cases hi : p = k.initPcb
      · by_cases hc : p = c
        · simp [hi ▸ hc, hi, BitVec.add_assoc]
        · by_cases hl : p ∈ l
          · simp [← hi, hc, hl, BitVec.add_assoc]
          · simp [← hi, hc, hl, BitVec.add_assoc]
      · by_cases hc : p = c
        · subst hc
          simp [hi]
        · simp [hi, hc]

theorem foldl_adopt_rest : ∀ (l : List PcbId) (k : Kernel),
    l.foldl adopt k = { k with pcbs := (l.foldl adopt k).pcbs }
  | [], _ => rfl
  | c :: l, k => by
      rw [List.foldl_cons, foldl_adopt_rest l]
      rfl

theorem SameButIter.foldl_adopt {k k' : Kernel} (h : SameButIter k k') (l : List PcbId) :
    SameButIter (l.foldl adopt k) (l.foldl adopt k') := by
  have hpcbs : (l.foldl adopt k').pcbs = (l.foldl adopt k).pcbs := by
    funext p
    rw [foldl_adopt_pcbs, foldl_adopt_pcbs, h]
  rw [SameButIter, foldl_adopt_rest l k', foldl_adopt_rest l k, hpcbs, h]

theorem reparentLoop_spec : ∀ (fuel : Nat) (l : List PcbId) (k : Kernel) (target : Word),
    l.length ≤ fuel → Iter k target l →
    ∃ k', reparentLoop fuel k l.head? = .ok k' ∧ SameButIter (l.foldl adopt k) k'
  | _, [], k, _, _, _ => ⟨k, by simp [reparentLoop], rfl⟩
  | 0, _ :: _, _, _, hlen, _ => absurd hlen (by simp)
  | fuel + 1, c :: l, k, target, hlen, h => by
      obtain ⟨hcurr, htgt, hkids⟩ := h
      have hnext : kidsFrom (adopt k c) target (c.val + 1) = l := by
        rw [← hkids]
        refine kidsFrom_congr fun p hp => ?_
        have hne : p ≠ c := by
          rintro rfl
          omega
        rw [adopt_pcbs]
        simp [hne]
      have hiter := iter_iterAt (adopt k c) target (c.val + 1)
      rw [hnext] at hiter
      obtain ⟨k', hrec, hsame⟩ := reparentLoop_spec fuel l _ target (by simpa using hlen) hiter
      refine ⟨k', ?_, ((iterAt_same ..).foldl_adopt l).trans hsame⟩
      rw [List.head?_cons, reparentLoop,
        pcbFindChildOf_next (by rw [adopt_childCurr, hcurr]), adopt_childTarget, htgt, hnext]
      exact hrec

theorem kidsFrom_length_le (k : Kernel) (target : Word) (i : Nat) :
    (kidsFrom k target i).length ≤ nPcbs := by
  refine (List.length_filter_le ..).trans ?_
  rw [List.length_finRange]

theorem signExtend_inj {a b : Half} (h : a.signExtend 32 = b.signExtend 32) : a = b := by
  have := congrArg BitVec.toInt h
  rwa [BitVec.toInt_signExtend_of_le (by decide), BitVec.toInt_signExtend_of_le (by decide),
    BitVec.toInt_inj] at this

theorem signExtend_ne {a : Half} (h : a ≠ -1) : a.signExtend 32 ≠ -1 := by
  intro he
  exact h (signExtend_inj (he.trans (by decide)))

theorem kidsFrom_zero (k : Kernel) (pid : Half) :
    kidsFrom k (pid.signExtend 32) 0
      = (List.finRange nPcbs).filter fun p => (k.pcbs p).ppid == pid := by
  refine List.filter_congr fun p _ => ?_
  by_cases h : (k.pcbs p).ppid = pid
  · simp [h]
  · have : (k.pcbs p).ppid.signExtend 32 ≠ pid.signExtend 32 := fun he => h (signExtend_inj he)
    simp [h, this]

theorem reparent_ok {k : Kernel} {p : PcbId} (hpid : (k.pcbs p).pid ≠ -1)
    (hc : 0 < (k.pcbs p).children) :
    ∃ k', reparent k p = .ok (k'.setPcb p fun x => { x with children := 0 })
      ∧ SameButIter ((kidsFrom k ((k.pcbs p).pid.signExtend 32) 0).foldl adopt k) k' := by
  have hiter := iter_iterAt k ((k.pcbs p).pid.signExtend 32) 0
  obtain ⟨k', hloop, hsame⟩ := reparentLoop_spec nPcbs _ _ _ (kidsFrom_length_le ..) hiter
  refine ⟨k', ?_, ((iterAt_same ..).foldl_adopt _).trans hsame⟩
  rw [reparent, if_pos hc, pcbFindChildOf_start (signExtend_ne hpid)]
  simp only [ok_bind, hloop]

/-! ## Looking for a zombie -/

theorem zombieLoop_spec : ∀ (fuel : Nat) (l : List PcbId) (k : Kernel) (target : Word),
    l.length ≤ fuel → Iter k target l →
    ∃ k', zombieLoop fuel k l.head?
        = .ok (l.find? fun p => decide ((k.pcbs p).state = .zombie), k')
      ∧ SameButIter k k'
  | _, [], k, _, _, _ => ⟨k, by simp [zombieLoop], rfl⟩
  | 0, _ :: _, _, _, hlen, _ => absurd hlen (by simp)
  | fuel + 1, c :: l, k, target, hlen, h => by
      obtain ⟨hcurr, htgt, hkids⟩ := h
      rw [List.head?_cons, zombieLoop]
      split
      · rename_i hz
        exact ⟨k, by simp [hz], rfl⟩
      · rename_i hz
        have hiter := iter_iterAt k target (c.val + 1)
        rw [hkids] at hiter
        obtain ⟨k', hrec, hsame⟩ := zombieLoop_spec fuel l _ target (by simpa using hlen) hiter
        refine ⟨k', ?_, (iterAt_same ..).trans hsame⟩
        rw [pcbFindChildOf_next hcurr, htgt, hkids]
        simp only [ok_bind, hrec, iterAt_pcbs, List.find?_cons, hz, decide_false]

/-- The search of `_sys_wait`: the first child that is a zombie. -/
theorem findZombie_ok {k : Kernel} {p : PcbId} (hpid : (k.pcbs p).pid ≠ -1) :
    ∃ k', (do
        let (child, k) ← pcbFindChildOf k ((k.pcbs p).pid.signExtend 32)
        zombieLoop nPcbs k child)
      = .ok ((kidsFrom k ((k.pcbs p).pid.signExtend 32) 0).find? fun z =>
          decide ((k.pcbs z).state = .zombie), k')
      ∧ SameButIter k k' := by
  have hiter := iter_iterAt k ((k.pcbs p).pid.signExtend 32) 0
  obtain ⟨k', hloop, hsame⟩ := zombieLoop_spec nPcbs _ _ _ (kidsFrom_length_le ..) hiter
  refine ⟨k', ?_, (iterAt_same ..).trans hsame⟩
  rw [pcbFindChildOf_start (signExtend_ne hpid)]
  simp only [ok_bind, hloop, iterAt_pcbs]

end SpKernel
