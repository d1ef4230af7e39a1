import Mathlib

/-!
# Order in queues

General facts on lists used as queues, over entries of any type.

`Follows old new` says that `new` is what first-in-first-out service can
make of `old`: some entries have left, from anywhere, and entries that
were not there have joined at the end. It is reflexive, and a sublist of
the old queue with newcomers behind it follows it (`Follows.of_sublist`,
`Follows.append`). `Ahead p q l` is that `p` comes before `q`; in a list
without repetitions two entries have exactly one order (`order_unique`,
`order_total`). Whoever was ahead of somebody who is still there stays
ahead of him (`Ahead.follows`): nobody overtakes. This is the step from
which fairness of a queue follows by induction over a run.

The second part is about lists that are sorted by a key, with ties in the
order of arrival (`Ranked`): the entries whose key is small are a prefix
(`Ranked.takeWhile_le`), the others are what is left
(`Ranked.dropWhile_le`), and an insertion behind all keys that are not
greater keeps the order (`Ranked.insert`). Only the keys and the times of
the entries matter (`Ranked.congr`), so a change of other data keeps a
list ranked.
-/

namespace SpKernel.Lib

variable {α : Type*}

/-! ## First in, first out -/

/-- Entries of `old` may have left, and others joined at the end. -/
def Follows (old new : List α) : Prop :=
  ∃ l r, new = l ++ r ∧ l.Sublist old ∧ ∀ x ∈ r, x ∉ old

namespace Follows

variable {old new : List α}

theorem refl (l : List α) : Follows l l :=
  ⟨l, [], (List.append_nil l).symm, List.Sublist.refl l, by simp⟩

theorem of_sublist {new' : List α} (h : Follows old new) (hs : new'.Sublist new) :
    Follows old new' := by
  obtain ⟨l, r, rfl, hl, hr⟩ := h
  obtain ⟨l', r', rfl, hl', hr'⟩ := List.sublist_append_iff.mp hs
  exact ⟨l', r', rfl, hl'.trans hl, fun x hx => hr x (hr'.subset hx)⟩

theorem append {x : α} (h : Follows old new) (hx : x ∉ old) : Follows old (new ++ [x]) := by
  obtain ⟨l, r, rfl, hl, hr⟩ := h
  refine ⟨l, r ++ [x], List.append_assoc .., hl, fun y hy => ?_⟩
  rcases List.mem_append.mp hy with hy | hy
  · exact hr y hy
  · exact List.mem_singleton.mp hy ▸ hx

end Follows

/-- `q` is in the queue, and if `p` is, then behind `q`. -/
def Ahead (q p : α) (l : List α) : Prop := q ∈ l ∧ (p ∈ l → [q, p].Sublist l)

theorem order_unique {p q : α} {l : List α} (hnd : l.Nodup) (h : [p, q].Sublist l)
    (h' : [q, p].Sublist l) : False := by
  induction l with
  | nil => cases h
  | cons a l ih =>
      obtain ⟨ha, hnd⟩ := List.nodup_cons.mp hnd
      cases h with
      | cons _ h =>
          cases h' with
          | cons _ h' => exact ih hnd h h'
          | cons_cons _ h' => exact ha (h.subset (by simp))
      | cons_cons _ h =>
          cases h' with
          | cons _ h' => exact ha (h'.subset (by simp))
          | cons_cons _ h' => exact ha (h.subset (by simp))

theorem order_total {p q : α} {l : List α} (hp : p ∈ l) (hq : q ∈ l) (hne : p ≠ q) :
    [p, q].Sublist l ∨ [q, p].Sublist l := by
  obtain ⟨a, b, rfl⟩ := List.append_of_mem hq
  rcases List.mem_append.mp hp with hpa | hpb
  · exact .inl ((List.singleton_sublist.mpr hpa).append (List.singleton_sublist.mpr (by simp)))
  · have hpb' : p ∈ b := (List.mem_cons.mp hpb).resolve_left hne
    refine .inr (List.Sublist.trans ?_ (List.sublist_append_right a _))
    exact (List.singleton_sublist.mpr hpb').cons_cons q

/-- Nobody overtakes: as long as `q` is in the queue it stays ahead. -/
theorem Ahead.follows {p q : α} {old new : List α} (h : Ahead q p old) (hnd : old.Nodup)
    (hne : p ≠ q) (hf : Follows old new) (hq : q ∈ new) : Ahead q p new := by
  refine ⟨hq, fun hp => ?_⟩
  obtain ⟨l, r, rfl, hl, hr⟩ := hf
  have hql : q ∈ l := by
    rcases List.mem_append.mp hq with hq | hq
    · exact hq
    · exact absurd h.1 (hr q hq)
  rcases List.mem_append.mp hp with hpl | hpr
  · refine List.Sublist.trans ?_ (List.sublist_append_left l r)
    rcases order_total hpl hql hne with hpq | hqp
    · exact (order_unique hnd (hpq.trans hl) (h.2 (hl.subset hpl))).elim
    · exact hqp
  · exact (List.singleton_sublist.mpr hql).append (List.singleton_sublist.mpr hpr)

theorem Ahead.not_head {p q : α} {l : List α} (h : Ahead q p (p :: l)) (hnd : (p :: l).Nodup) :
    False := by
  have hsub := h.2 (List.mem_cons_self ..)
  obtain ⟨hp, -⟩ := List.nodup_cons.mp hnd
  cases hsub with
  | cons _ hs => exact hp (hs.subset (by simp))
  | cons_cons _ hs => exact hp (hs.subset (by simp))

/-! ## Sorted by a key, first come first served -/

section Key

variable {κ : Type*} [LinearOrder κ] {key : α → κ} {since : α → Nat}

/-- Sorted by `key`, ties in the order of `since`. -/
def Ranked (key : α → κ) (since : α → Nat) (l : List α) : Prop :=
  l.Pairwise fun x y => key x < key y ∨ key x = key y ∧ since x < since y

theorem Ranked.sublist {l l' : List α} (h : Ranked key since l) (hs : l'.Sublist l) :
    Ranked key since l' :=
  List.Pairwise.sublist hs h

/-- Only the keys and the times of the entries matter. -/
theorem Ranked.congr {key' : α → κ} {since' : α → Nat} {l : List α} (h : Ranked key since l)
    (hk : ∀ x ∈ l, key' x = key x) (hs : ∀ x ∈ l, since' x = since x) : Ranked key' since' l := by
  refine List.Pairwise.imp_of_mem (fun {x y} hx hy hxy => ?_) h
  rwa [hk x hx, hk y hy, hs x hx, hs y hy]

theorem Ranked.key_le {x : α} {l : List α} (h : Ranked key since (x :: l)) {y : α} (hy : y ∈ l) :
    key x ≤ key y := by
  rcases (List.pairwise_cons.mp h).1 y hy with hlt | ⟨he, -⟩
  · exact le_of_lt hlt
  · exact le_of_eq he

theorem Ranked.takeWhile_le {l : List α} (h : Ranked key since l) (b : κ) :
    l.takeWhile (fun x => decide (key x ≤ b)) = l.filter fun x => decide (key x ≤ b) := by
  induction l with
  | nil => rfl
  | cons x l ih =>
      by_cases hx : key x ≤ b
      · rw [List.takeWhile_cons_of_pos (by simpa using hx), List.filter_cons_of_pos
          (by simpa using hx), ih (h.sublist (List.sublist_cons_self x l))]
      · rw [List.takeWhile_cons_of_neg (by simpa using hx), List.filter_cons_of_neg
          (by simpa using hx), eq_comm, List.filter_eq_nil_iff]
        intro y hy hyb
        exact hx ((h.key_le hy).trans (of_decide_eq_true hyb))

theorem Ranked.dropWhile_le {l : List α} (h : Ranked key since l) (b : κ) :
    l.dropWhile (fun x => decide (key x ≤ b)) = l.filter fun x => decide (b < key x) := by
  induction l with
  | nil => rfl
  | cons x l ih =>
      by_cases hx : key x ≤ b
      · rw [List.dropWhile_cons_of_pos (by simpa using hx), List.filter_cons_of_neg
          (by simpa using hx), ih (h.sublist (List.sublist_cons_self x l))]
      · rw [List.dropWhile_cons_of_neg (by simpa using hx), eq_comm, List.filter_eq_self]
        intro y hy
        rcases List.mem_cons.mp hy with rfl | hy
        · simpa using hx
        · exact decide_eq_true ((not_le.mp hx).trans_le (h.key_le hy))

/-- A newcomer goes behind all keys that are not greater. -/
theorem Ranked.insert {l : List α} {d : α} (h : Ranked key since l)
    (hnew : ∀ x ∈ l, since x < since d) :
    Ranked key since (l.takeWhile (fun x => decide (key x ≤ key d))
      ++ d :: l.dropWhile fun x => decide (key x ≤ key d)) := by
  have hall : Ranked key since (l.takeWhile (fun x => decide (key x ≤ key d))
      ++ l.dropWhile fun x => decide (key x ≤ key d)) := by
    rw [List.takeWhile_append_dropWhile]
    exact h
  obtain ⟨h1, h2, h12⟩ := List.pairwise_append.mp hall
  have hd : ∀ y ∈ l.dropWhile (fun x => decide (key x ≤ key d)), key d < key y := by
    intro y hy
    rw [h.dropWhile_le] at hy
    exact of_decide_eq_true (List.mem_filter.mp hy).2
  refine List.pairwise_append.mpr ⟨h1, List.pairwise_cons.mpr ⟨fun y hy => .inl (hd y hy), h2⟩,
    fun x hx y hy => ?_⟩
  have hxd : key x ≤ key d := by
    have hx' := hx
    rw [h.takeWhile_le] at hx'
    exact of_decide_eq_true (List.mem_filter.mp hx').2
  rcases List.mem_cons.mp hy with rfl | hy
  · rcases lt_or_eq_of_le hxd with hlt | he
    · exact .inl hlt
    · exact .inr ⟨he, hnew x ((List.takeWhile_prefix _).subset hx)⟩
  · exact h12 x hx y hy

end Key

end SpKernel.Lib
