import Mathlib

/-!
# Lines of ancestors

A relation `R x y`, to be read as "`y` is the parent of `x`", on the
members `S` of a family. When a rank falls from every child to its parent
and only `root` is without a parent (`Rooted`), then every line of
ancestors ends at `root` (`Rooted.reaches`) and nobody is an ancestor of
itself (`Rooted.not_own`). Nothing is said about the number of parents;
where there is one for each member, the relation is a tree.

A family changes when members come and go, and when some get another
parent. If the only new parent that a member ever gets is `root`, then
lines of ancestors become shorter only: whoever is an ancestor afterwards
has been one before (`Rooted.ancestor_of_adopted`). It is stated for one
change, and a history of changes follows by induction.
-/

namespace SpKernel.Lib

open Relation

variable {α : Type*} {R R' : α → α → Prop} {S : α → Prop} {root : α} {rank : α → ℕ}

/-- The members are a tree with this root. -/
structure Rooted (R : α → α → Prop) (S : α → Prop) (root : α) (rank : α → ℕ) : Prop where
  parent : ∀ x, S x → x ≠ root → ∃ y, R x y
  member : ∀ x y, R x y → S y
  falls : ∀ x y, R x y → rank y < rank x

namespace Rooted

/-- Every member descends from the root. The induction is on the rank. -/
theorem reaches (h : Rooted R S root rank) {x : α} (hx : S x) : ReflTransGen R x root := by
  induction hr : rank x using Nat.strong_induction_on generalizing x with
  | _ n ih =>
      by_cases hroot : x = root
      · rw [hroot]
      · obtain ⟨y, hy⟩ := h.parent x hx hroot
        have hlt : rank y < n := hr ▸ h.falls x y hy
        exact .head hy (ih _ hlt (h.member x y hy) rfl)

theorem falls_ancestor (h : Rooted R S root rank) {x y : α} (hxy : TransGen R x y) :
    rank y < rank x := by
  induction hxy with
  | single hxy => exact h.falls _ _ hxy
  | tail _ hyz ih => exact lt_trans (h.falls _ _ hyz) ih

theorem not_own (h : Rooted R S root rank) (x : α) : ¬TransGen R x x :=
  fun hx => lt_irrefl _ (h.falls_ancestor hx)

/-- Who has a parent, other than the root, descends from the root in at
least one step. -/
theorem ancestor_root (h : Rooted R S root rank) {x : α} (hx : S x) (hne : x ≠ root) :
    TransGen R x root := by
  rcases reflTransGen_iff_eq_or_transGen.mp (h.reaches hx) with he | ht
  · exact absurd he.symm hne
  · exact ht

/-- When nobody has got another parent than the root, all ancestors that
are left were ancestors before. -/
theorem ancestor_of_adopted (h : Rooted R S root rank)
    (hkept : ∀ x y, S x → R' x y → R x y ∨ y = root) (htop : ∀ y, ¬R' root y)
    {x y : α} (hx : S x) (hxy : TransGen R' x y) : TransGen R x y := by
  have hstep : ∀ {a b : α}, S a → R' a b → TransGen R a b := by
    intro a b ha hab
    rcases hkept a b ha hab with hR | rfl
    · exact .single hR
    · refine h.ancestor_root ha ?_
      rintro rfl
      exact htop _ hab
  induction hxy using TransGen.head_induction_on with
  | single hab => exact hstep hx hab
  | @head a b hab hby ih =>
      rcases hkept a b hx hab with hR | rfl
      · exact .head hR (ih (h.member a b hR))
      · -- the root has no ancestors
        obtain ⟨c, hc, -⟩ := TransGen.head'_iff.mp hby
        exact absurd hc (htop c)

end Rooted

end SpKernel.Lib
