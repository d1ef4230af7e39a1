import Mathlib

/-!
# Ledgers

A ledger lists what somebody has got and what he has given back, oldest
first. `holdings` is what he has at the end, and a ledger is `Balanced`
if everything that was given back was held at that time. Then nothing is
given back twice, and nothing that is not one's own.

Things are counted, not only remembered: what was got twice is held
twice. Ledgers grow at the end, and the two rules are about that
(`holdings_concat`, `Balanced.concat`): a balanced ledger stays so if
what is given back is held.
-/

namespace SpKernel.Lib

variable {α : Type*}

/-- An entry of a ledger. -/
inductive Transfer (α : Type*) where
  | got (a : α)
  | freed (a : α)
deriving Repr, DecidableEq

variable [DecidableEq α]

/-- What is held after a transfer. -/
def Transfer.apply (held : List α) : Transfer α → List α
  | .got a => a :: held
  | .freed a => held.erase a

/-- What is held at the end. -/
def holdings (log : List (Transfer α)) : List α := log.foldl Transfer.apply []

@[simp] theorem holdings_nil : holdings ([] : List (Transfer α)) = [] := rfl

@[simp] theorem holdings_concat (log : List (Transfer α)) (e : Transfer α) :
    holdings (log ++ [e]) = e.apply (holdings log) := by
  rw [holdings, holdings, List.foldl_append, List.foldl_cons, List.foldl_nil]

/-- Whatever is given back is held at that time. -/
def Balanced (log : List (Transfer α)) : Prop :=
  ∀ before a after, log = before ++ .freed a :: after → a ∈ holdings before

theorem Balanced.concat {log : List (Transfer α)} {e : Transfer α} (h : Balanced log)
    (he : ∀ a, e = .freed a → a ∈ holdings log) : Balanced (log ++ [e]) := by
  intro before b after hlog
  rcases List.eq_nil_or_concat after with rfl | ⟨rest, e', rfl⟩
  · obtain ⟨rfl, hlast⟩ := List.append_inj' hlog rfl
    exact he b (List.cons.inj hlast).1
  · rw [List.concat_eq_append, ← List.cons_append, ← List.append_assoc] at hlog
    exact h before b rest (List.append_inj_left' hlog rfl)

end SpKernel.Lib
