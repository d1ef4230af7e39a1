import SpKernel.Lib.Order
import SpKernel.Lib.Outcome

/-!
# How long a run can go on waiting

Each step of a run that is of a certain kind uses up at least one unit of
a potential, and no step adds to it. Then there are no more such steps
than there was potential to begin with (`Steps.countP_le`). The potential
may be defined on the states that satisfy an invariant only, which the
steps keep under a condition of their own.

A queue that is served first in, first out gives such a potential: the
place of somebody who waits in it never becomes worse
(`Follows.idxOf_le`), and becomes better when the first is taken
(`Follows.idxOf_lt`). Both hold whatever else happens to the queue:
entries in front may leave, and others join behind, as `Follows` has it.
-/

namespace SpKernel.Lib

/-! ## Potentials -/

section Runs

variable {ε σ Ev : Type*} {step : σ → Ev → Except ε σ}

theorem Steps.countP_le {P : σ → Prop} {Q : σ → Ev → Prop} {Φ : σ → Nat} {c : σ × Ev → Bool}
    {s s' : σ} {tr : List (σ × Ev)}
    (hstep : ∀ t e t', P t → Q t e → step t e = .ok t' →
      P t' ∧ Φ t' + (c (t, e)).toNat ≤ Φ t)
    (h : Steps step s tr s') (hs : P s) (hQ : ∀ x ∈ tr, Q x.1 x.2) :
    P s' ∧ Φ s' + tr.countP c ≤ Φ s := by
  induction h with
  | refl => exact ⟨hs, le_of_eq (Nat.add_zero _)⟩
  | @tail tr t t' e hpre hst ih =>
      obtain ⟨ht, hle⟩ := ih fun x hx => hQ x (List.mem_append_left _ hx)
      obtain ⟨ht', hlast⟩ := hstep t e t' ht (hQ (t, e) (by simp)) hst
      have hcount : [(t, e)].countP c = (c (t, e)).toNat := by
        cases hc : c (t, e) <;> simp [hc]
      refine ⟨ht', ?_⟩
      rw [List.countP_append, hcount]
      omega

end Runs

/-! ## Places in a queue -/

section Queues

variable {α : Type*} [DecidableEq α] {q : α} {old new : List α}

/-- Without those in front who have left, one is nearer to the front. -/
theorem idxOf_le_of_sublist (hnd : old.Nodup) (hs : new.Sublist old) (hq : q ∈ new) :
    new.idxOf q ≤ old.idxOf q := by
  induction hs with
  | slnil => exact le_refl _
  | @cons l₁ l₂ a hs ih =>
      obtain ⟨ha, hnd⟩ := List.nodup_cons.mp hnd
      have hne : a ≠ q := by
        rintro rfl
        exact ha (hs.subset hq)
      rw [List.idxOf_cons_ne _ hne]
      exact (ih hnd hq).trans (Nat.le_succ _)
  | @cons_cons l₁ l₂ a hs ih =>
      by_cases ha : a = q
      · rw [ha, List.idxOf_cons_self, List.idxOf_cons_self]
      · rw [List.idxOf_cons_ne _ ha, List.idxOf_cons_ne _ ha]
        exact Nat.succ_le_succ
          (ih (List.nodup_cons.mp hnd).2 ((List.mem_cons.mp hq).resolve_left (Ne.symm ha)))

theorem Follows.idxOf_le (h : Follows old new) (hnd : old.Nodup) (hold : q ∈ old)
    (hnew : q ∈ new) : new.idxOf q ≤ old.idxOf q := by
  obtain ⟨l, r, rfl, hl, hr⟩ := h
  have hq : q ∈ l := (List.mem_append.mp hnew).resolve_right fun hc => hr q hc hold
  rw [List.idxOf_append_of_mem hq]
  exact idxOf_le_of_sublist hnd hl hq

theorem Follows.idxOf_lt {a : α} (h : Follows old (a :: new)) (hnd : old.Nodup) (hold : q ∈ old)
    (hne : a ≠ q) (hnew : q ∈ new) : new.idxOf q < old.idxOf q := by
  have hle := h.idxOf_le hnd hold (List.mem_cons_of_mem a hnew)
  rw [List.idxOf_cons_ne _ hne] at hle
  exact hle

end Queues

end SpKernel.Lib
