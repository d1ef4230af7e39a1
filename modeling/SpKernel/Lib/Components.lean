import Mathlib

/-!
# Components between separators

`components sep l` are the maximal nonempty runs of a list without `sep`.
Separators at either end, and all but one in a row, do not matter:
`components_append` cuts a list at a separator, and adding to the end of
a list keeps its components exactly if only separators are added
(`components_append_eq_iff`). What is in no component is a separator
(`flatten_components`).

Two ways of scanning a list are covered. A scan from the front splits off
a first component or drops a separator (`components_cons`,
`components_sep`); two lists with the same components have the same first
element, once they are past their leading separators
(`head_eq_of_components`). A scan that looks one element back counts the
components by the elements that end a run (`length_components_cons`).
-/

namespace SpKernel.Lib

variable {α : Type*} [DecidableEq α] {sep a b : α} {l l' : List α}

/-- The maximal nonempty runs without a separator. -/
def components (sep : α) (l : List α) : List (List α) := (l.splitOn sep).filter (· ≠ [])

@[simp] theorem components_nil : components sep [] = [] := by
  simp [components]

theorem components_append (l l' : List α) :
    components sep (l ++ sep :: l') = components sep l ++ components sep l' := by
  rw [components, List.splitOn_append_cons_self, List.filter_append]
  rfl

@[simp] theorem components_sep (l : List α) : components sep (sep :: l) = components sep l :=
  components_append [] l

/-- A first element that is no separator is the first of a component. -/
theorem components_cons (ha : a ≠ sep) (l : List α) :
    ∃ w, l.splitOn sep = w :: (l.splitOn sep).tail ∧ components sep (a :: l)
      = (a :: w) :: (l.splitOn sep).tail.filter (· ≠ []) := by
  obtain ⟨w, ws, hw⟩ := List.exists_cons_of_ne_nil (List.splitOn_ne_nil sep l)
  refine ⟨w, by rw [hw, List.tail_cons], ?_⟩
  rw [components, List.splitOn_cons_eq_if_modifyHead, if_neg (by simpa using ha), hw,
    List.modifyHead_cons, List.filter_cons_of_pos (by simp), List.tail_cons]

/-- Elements that are in no component are separators. -/
theorem flatten_components (l : List α) :
    (components sep l).flatten = l.filter (· ≠ sep) := by
  induction l with
  | nil => simp
  | cons a l ih =>
      by_cases ha : a = sep
      · rw [ha, components_sep, ih, List.filter_cons_of_neg (by simp)]
      · obtain ⟨w, hw, hc⟩ := components_cons ha l
        have hl : (components sep l).flatten
            = w ++ ((l.splitOn sep).tail.filter (· ≠ [])).flatten := by
          rw [components, hw, List.tail_cons]
          by_cases hnil : w = []
          · rw [List.filter_cons_of_neg (by simpa using hnil), hnil, List.nil_append]
          · rw [List.filter_cons_of_pos (by simpa using hnil), List.flatten_cons]
        rw [hc, List.filter_cons_of_pos (by simpa using ha), ← ih, hl, List.flatten_cons,
          List.cons_append]

theorem components_eq_nil_iff : components sep l = [] ↔ ∀ a ∈ l, a = sep := by
  constructor
  · intro h
    have hf : (components sep l).flatten = l.filter (· ≠ sep) := flatten_components l
    rw [h, List.flatten_nil, eq_comm, List.filter_eq_nil_iff] at hf
    intro a ha
    simpa using hf a ha
  · induction l with
    | nil => simp
    | cons a l ih =>
        intro h
        obtain ⟨rfl, hl⟩ := List.forall_mem_cons.mp h
        rw [components_sep, ih hl]

/-- What is added at the end makes no difference exactly if it consists of
separators. -/
theorem components_append_eq_iff :
    components sep (l ++ l') = components sep l ↔ ∀ a ∈ l', a = sep := by
  constructor
  · intro h
    have hf := congrArg List.flatten h
    rw [flatten_components, flatten_components, List.filter_append, List.append_right_eq_self,
      List.filter_eq_nil_iff] at hf
    intro a ha
    simpa using hf a ha
  · intro h
    cases l' with
    | nil => rw [List.append_nil]
    | cons a l' =>
        obtain ⟨rfl, hl⟩ := List.forall_mem_cons.mp h
        rw [components_append, components_eq_nil_iff.mpr hl, List.append_nil]

theorem length_components_le (l : List α) : (components sep l).length ≤ l.length := by
  have hone : ∀ w ∈ components sep l, 1 ≤ w.length := by
    intro w hw
    rw [components, List.mem_filter] at hw
    exact List.length_pos_of_ne_nil (of_decide_eq_true hw.2)
  have hflat : (components sep l).length ≤ (components sep l).flatten.length := by
    rw [List.length_flatten, ← List.length_map List.length]
    refine List.length_le_sum_of_one_le _ fun k hk => ?_
    obtain ⟨w, hw, rfl⟩ := List.mem_map.mp hk
    exact hone w hw
  refine hflat.trans ?_
  rw [flatten_components]
  exact List.length_filter_le ..

/-- Lists that begin with no separator and have the same components begin
with the same element. -/
theorem head_eq_of_components (ha : a ≠ sep) (hb : b ≠ sep)
    (h : components sep (a :: l) = components sep (b :: l')) : a = b := by
  obtain ⟨w, -, hw⟩ := components_cons ha l
  obtain ⟨w', -, hw'⟩ := components_cons hb l'
  rw [hw, hw'] at h
  exact (List.cons.inj (List.cons.inj h).1).1

theorem components_run (hl : l ≠ []) (h : sep ∉ l) : components sep l = [l] := by
  rw [components, List.splitOn_eq_singleton h, List.filter_cons_of_pos (by simpa using hl),
    List.filter_nil]

theorem components_singleton (ha : a ≠ sep) : components sep [a] = [[a]] :=
  components_run (List.cons_ne_nil _ _) fun h => ha (List.mem_singleton.mp h).symm

theorem length_components_cons (ha : a ≠ sep) (b : α) (l : List α) :
    (components sep (a :: b :: l)).length
      = (components sep (b :: l)).length + if b = sep then 1 else 0 := by
  by_cases hb : b = sep
  · rw [hb, if_pos rfl, components_sep, ← List.singleton_append, components_append,
      components_singleton ha, List.length_append, List.length_singleton, Nat.add_comm]
  · obtain ⟨w, hw, hc⟩ := components_cons hb l
    obtain ⟨w', hw', hc'⟩ := components_cons ha (b :: l)
    have htail : ((b :: l).splitOn sep).tail = (l.splitOn sep).tail := by
      rw [List.splitOn_cons_eq_if_modifyHead, if_neg (by simpa using hb), hw]
      rfl
    rw [if_neg hb, Nat.add_zero, hc, hc', htail, List.length_cons, List.length_cons]

end SpKernel.Lib
