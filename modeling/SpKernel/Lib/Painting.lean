import Mathlib

/-!
# Painting the cells of a memory

A memory is a function from addresses to values. Painted, a cell leaves a
value at each address that it takes up: `cover i a` is what cell `i`
leaves at `a`, and `none` where the cell is not.

`Painted cover S m m'` says that `m'` is `m` with the cells of `S`
painted and nothing else changed. It determines `m'` (`Painted.unique`),
so that all ways of painting the same cells come to the same; and one
painting after another is a painting of both (`Painted.union`), as long
as cells that share an address agree on what is there (`Agree`). Cells
that share none agree (`agree_of_disjoint`), whatever their colours.

A program that paints cells one at a time needs only the rule for one
cell (`painted_foldl`). `paint` is the memory itself, as a function of
the set of cells.
-/

namespace SpKernel.Lib

variable {ι α β : Type*} {cover : ι → α → Option β} {S T : Set ι} {m m' m'' : α → β}

/-- The memory with a cell painted. -/
def paint (cover : ι → α → Option β) (m : α → β) (i : ι) : α → β := fun a =>
  (cover i a).getD (m a)

/-- Cells that share an address leave the same there. -/
def Agree (cover : ι → α → Option β) (S : Set ι) : Prop :=
  ∀ i ∈ S, ∀ j ∈ S, ∀ a b c, cover i a = some b → cover j a = some c → b = c

/-- The cells of `S` are painted, and nothing else is changed. -/
structure Painted (cover : ι → α → Option β) (S : Set ι) (m m' : α → β) : Prop where
  inside : ∀ i ∈ S, ∀ a b, cover i a = some b → m' a = b
  outside : ∀ a, (∀ i ∈ S, cover i a = none) → m' a = m a

theorem Agree.mono (h : Agree cover T) (hST : S ⊆ T) : Agree cover S :=
  fun i hi j hj => h i (hST hi) j (hST hj)

theorem agree_of_disjoint
    (h : ∀ i ∈ S, ∀ j ∈ S, ∀ a b c, cover i a = some b → cover j a = some c → i = j) :
    Agree cover S := by
  intro i hi j hj a b c hb hc
  obtain rfl := h i hi j hj a b c hb hc
  exact Option.some.inj (hb.symm.trans hc)

theorem covered_cases (cover : ι → α → Option β) (S : Set ι) (a : α) :
    (∃ i ∈ S, ∃ b, cover i a = some b) ∨ ∀ i ∈ S, cover i a = none := by
  by_cases h : ∃ i ∈ S, ∃ b, cover i a = some b
  · exact .inl h
  · refine .inr fun i hi => Option.eq_none_iff_forall_ne_some.mpr fun b hb => ?_
    exact h ⟨i, hi, b, hb⟩

theorem Painted.unique (h : Painted cover S m m') (h' : Painted cover S m m'') : m' = m'' := by
  funext a
  rcases covered_cases cover S a with ⟨i, hi, b, hb⟩ | hnone
  · rw [h.inside i hi a b hb, h'.inside i hi a b hb]
  · rw [h.outside a hnone, h'.outside a hnone]

theorem Painted.empty (cover : ι → α → Option β) (m : α → β) : Painted cover ∅ m m where
  inside := fun _ hi => absurd hi (Set.notMem_empty _)
  outside := fun _ _ => rfl

theorem painted_paint (cover : ι → α → Option β) (m : α → β) (i : ι) :
    Painted cover {i} m (paint cover m i) where
  inside := by
    rintro j rfl a b hb
    rw [paint, hb, Option.getD_some]
  outside := by
    intro a hnone
    rw [paint, hnone i rfl, Option.getD_none]

theorem Painted.union (h : Painted cover S m m') (h' : Painted cover T m' m'')
    (ha : Agree cover (S ∪ T)) : Painted cover (S ∪ T) m m'' where
  inside := by
    rintro i (hi | hi) a b hb
    · -- painted first: what comes after leaves it or agrees
      rcases covered_cases cover T a with ⟨j, hj, c, hc⟩ | hnone
      · rw [h'.inside j hj a c hc]
        exact ha j (.inr hj) i (.inl hi) a c b hc hb
      · rw [h'.outside a hnone, h.inside i hi a b hb]
    · exact h'.inside i hi a b hb
  outside := by
    intro a hnone
    rw [h'.outside a fun i hi => hnone i (.inr hi), h.outside a fun i hi => hnone i (.inl hi)]

/-- Cell by cell, in whatever order and however often. -/
theorem painted_foldl : ∀ (l : List ι) (m : α → β), Agree cover {i | i ∈ l} →
    Painted cover {i | i ∈ l} m (l.foldl (paint cover) m)
  | [], m, _ => by
      simp only [List.not_mem_nil, Set.ofPred_false]
      exact .empty cover m
  | i :: l, m, ha => by
      have hset : {j | j ∈ i :: l} = {i} ∪ {j | j ∈ l} := by
        ext j
        simp
      rw [hset] at ha ⊢
      exact (painted_paint cover m i).union
        (painted_foldl l _ (ha.mono Set.subset_union_right)) ha

end SpKernel.Lib
