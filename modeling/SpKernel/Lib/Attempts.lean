import Mathlib

/-!
# One attempt after the other

A loop goes through a list and returns at the first element its body
gives a value for. The body may also end the loop with an exception.

What the loop should give is the first value of a function `f` that has
no exceptions. The elements that matter for it are those with no value in
front of them (`IsReached`): the loop gives what it should if the body
does what `f` says at these (`attempts_eq_iff`), and only then, unless
the body passes over a value that it finds again further on.

A loop over two lists is one loop after the other (`attempts_append`),
and a loop over the images of a list is one over the list
(`attempts_map`), so that several loops of a program can be made one.
What a loop gives its body gave, at an element that was reached
(`attempts_some`).
-/

namespace SpKernel.Lib

variable {α β ε : Type*} {body : α → Except ε (Option β)} {f : α → Option β} {as bs : List α}
  {a c : α} {b : β}

/-- The loop. -/
def attempts (body : α → Except ε (Option β)) : List α → Except ε (Option β)
  | [] => .ok none
  | a :: as =>
      match body a with
      | .error e => .error e
      | .ok (some b) => .ok (some b)
      | .ok none => attempts body as

/-- An element with no value in front of it. -/
def IsReached (f : α → Option β) (as : List α) (a : α) : Prop :=
  ∃ before after, as = before ++ a :: after ∧ ∀ c ∈ before, f c = none

theorem isReached_cons : IsReached f (c :: as) a ↔ a = c ∨ f c = none ∧ IsReached f as a := by
  constructor
  · rintro ⟨before, after, heq, hnone⟩
    cases before with
    | nil => exact .inl (List.cons.inj heq).1.symm
    | cons d before =>
        obtain ⟨rfl, rfl⟩ := List.cons.inj heq
        exact .inr ⟨hnone c (.head _), before, after, rfl, fun d hd => hnone d (.tail _ hd)⟩
  · rintro (rfl | ⟨hc, before, after, rfl, hnone⟩)
    · exact ⟨[], as, rfl, fun _ h => nomatch h⟩
    · exact ⟨c :: before, after, rfl, List.forall_mem_cons.mpr ⟨hc, hnone⟩⟩

theorem IsReached.mem (h : IsReached f as a) : a ∈ as := by
  obtain ⟨before, after, rfl, -⟩ := h
  exact List.mem_append_right _ (.head _)

/-- The first value is that of an element that is reached. -/
theorem findSome?_eq_some_iff_isReached :
    as.findSome? f = some b ↔ ∃ a, IsReached f as a ∧ f a = some b := by
  rw [List.findSome?_eq_some_iff]
  constructor
  · rintro ⟨before, a, after, rfl, ha, hnone⟩
    exact ⟨a, ⟨before, after, rfl, hnone⟩, ha⟩
  · rintro ⟨a, ⟨before, after, rfl, hnone⟩, ha⟩
    exact ⟨before, a, after, rfl, ha, hnone⟩

theorem attempts_append : attempts body (as ++ bs) = match attempts body as with
    | .ok none => attempts body bs
    | result => result := by
  induction as with
  | nil => rfl
  | cons a as ih =>
      rw [List.cons_append, attempts, attempts]
      split
      · rfl
      · rfl
      · exact ih

theorem attempts_map {γ : Type*} (g : γ → α) (cs : List γ) :
    attempts body (cs.map g) = attempts (fun c => body (g c)) cs := by
  induction cs with
  | nil => rfl
  | cons c cs ih => rw [List.map_cons, attempts, attempts, ih]

theorem attempts_some (h : attempts body as = .ok (some b)) :
    ∃ a ∈ as, body a = .ok (some b) := by
  induction as with
  | nil => cases h
  | cons a as ih =>
      rw [attempts] at h
      split at h
      · cases h
      · next hbody => exact ⟨a, .head _, hbody.trans h⟩
      · obtain ⟨c, hc, hbody⟩ := ih h
        exact ⟨c, .tail _ hc, hbody⟩

/-- The loop gives the first value if and only if the body is right at all
elements that are reached. The body gives no other values than `f`, and one
that it passes over it does not find again. -/
theorem attempts_eq_iff (hsound : ∀ a ∈ as, ∀ b, body a = .ok (some b) → f a = some b)
    (hpassed : as.Pairwise fun a c =>
      body a = .ok none → ∀ b, f a = some b → body c ≠ .ok (some b)) :
    attempts body as = .ok (as.findSome? f) ↔ ∀ a, IsReached f as a → body a = .ok (f a) := by
  induction as with
  | nil => exact ⟨fun _ a h => absurd h.mem List.not_mem_nil, fun _ => rfl⟩
  | cons a as ih =>
      have hrest := ih (fun c hc => hsound c (.tail _ hc)) hpassed.of_cons
      have hlater := (List.pairwise_cons.mp hpassed).1
      have hcons : (∀ c, IsReached f (a :: as) c → body c = .ok (f c))
          ↔ body a = .ok (f a) ∧ (f a = none → ∀ c, IsReached f as c → body c = .ok (f c)) := by
        simp only [isReached_cons]
        refine ⟨fun h => ⟨h a (.inl rfl), fun ha c hc => h c (.inr ⟨ha, hc⟩)⟩, ?_⟩
        rintro ⟨ha, h⟩ c (rfl | ⟨hnone, hc⟩)
        exacts [ha, h hnone c hc]
      rw [hcons, attempts, List.findSome?_cons]
      cases hbody : body a with
      | error e => simp
      | ok value =>
          cases value with
          | some b => simp [hsound a (.head _) b hbody]
          | none =>
              cases hf : f a with
              | none => simpa using hrest
              | some b =>
                  -- a value passed over, and it is not among the later ones
                  refine ⟨fun h => ?_, fun h => absurd h.1 (by simp)⟩
                  obtain ⟨c, hc, hagain⟩ := attempts_some h
                  exact absurd hagain (hlater c hc hbody b hf)

end SpKernel.Lib
