import Mathlib

/-!
# Fallible steps and runs

A computation in `Except ε` either returns or ends in `.error`, the point
where control never comes back. The inversion rule for sequencing such
computations is `bind_eq_ok`: a sequence has returned exactly if both
halves have. Proofs about programs take a computation apart with it, one
step after the other, and unfold nothing.

`Holds x P E` is a pre- and postcondition in one: if `x` returns, the
result satisfies `P`, and if it fails, the fault satisfies `E`.
`Holds.bind` composes, `Holds.mono` weakens, and `Holds.returns` gives a
result where no fault is allowed for.

A *run* is a list of events taken one after the other, none of which
fails. `Steps step s tr s'` records, oldest first, each event together
with the state it was taken in, so that a property of a whole run can
speak about every step of it.

- `Steps.inv_of` is the induction over runs for properties of states:
  what each step preserves, if it is taken under a condition on the state
  and the event, holds at the end of a run whose steps meet the
  condition. `Steps.inv` is the case without a condition.
- `Steps.all_iff` is the induction for properties that hold as long as
  the steps of the run meet a condition, and no longer.
- `run` executes a list of events. `steps_of_run` turns a successful
  execution into a run, and `Steps.run_append` continues one.
-/

namespace SpKernel.Lib

universe u

variable {ε : Type*} {α β : Type u}

theorem bind_eq_ok {x : Except ε α} {f : α → Except ε β} {b : β} :
    (x >>= f) = .ok b ↔ ∃ a, x = .ok a ∧ f a = .ok b := by
  cases x with
  | error e => simp [bind, Except.bind]
  | ok a => simp [bind, Except.bind]

@[simp] theorem ok_bind {a : α} {f : α → Except ε β} :
    (Except.ok a >>= f) = f a := rfl

@[simp] theorem error_bind {e : ε} {f : α → Except ε β} :
    ((Except.error e : Except ε α) >>= f) = .error e := rfl

/-- A change of the state that commutes with both halves of a sequence
commutes with the whole. -/
theorem bind_map_of {γ δ : Type u} {x : Except ε α} {y : Except ε γ} {f : α → Except ε β}
    {f' : γ → Except ε δ} {g : α → γ} {g' : β → δ} (hx : y = x.map g)
    (hf : ∀ a, x = .ok a → f' (g a) = (f a).map g') : (y >>= f') = (x >>= f).map g' := by
  cases x with
  | error e =>
      rw [hx]
      rfl
  | ok a =>
      rw [hx]
      exact hf a rfl

/-! ## Pre- and postconditions -/

/-- The computation ends in `Q`, or fails with a fault `E` allows. -/
def Holds (x : Except ε α) (Q : α → Prop) (E : ε → Prop) : Prop :=
  match x with
  | .ok a => Q a
  | .error e => E e

variable {Q R : α → Prop} {E : ε → Prop}

@[simp] theorem holds_ok {a : α} : Holds (.ok a) Q E ↔ Q a := Iff.rfl

@[simp] theorem holds_error {e : ε} : Holds (.error e : Except ε α) Q E ↔ E e := Iff.rfl

theorem Holds.mono {x : Except ε α} (h : Holds x Q E) (hQ : ∀ a, Q a → R a) :
    Holds x R E := by
  cases x with
  | error e => exact h
  | ok a => exact hQ a h

theorem Holds.bind {x : Except ε α} {f : α → Except ε β} {P : β → Prop} (h : Holds x Q E)
    (hf : ∀ a, Q a → Holds (f a) P E) : Holds (x >>= f) P E := by
  cases x with
  | error e => exact h
  | ok a => exact hf a h

/-- A computation that no fault is allowed for returns. -/
theorem Holds.returns {x : Except ε α} (h : Holds x Q fun _ => False) : ∃ a, x = .ok a ∧ Q a := by
  cases x with
  | error e => exact h.elim
  | ok a => exact ⟨a, rfl, h⟩

/-- The computation returns and the test holds of its result. -/
def okAnd (x : Except ε α) (test : α → Bool) : Bool :=
  match x with
  | .ok a => test a
  | .error _ => false

theorem of_okAnd {x : Except ε α} {test : α → Bool} (h : okAnd x test = true) :
    ∃ a, x = .ok a ∧ test a = true := by
  cases x with
  | error e => cases h
  | ok a => exact ⟨a, rfl, h⟩

/-! ## Runs -/

variable {σ Ev : Type*} {step : σ → Ev → Except ε σ}

/-- A run from `s` to `s'`: the trace lists every step's pre-state and
event, oldest first. -/
inductive Steps (step : σ → Ev → Except ε σ) (s : σ) : List (σ × Ev) → σ → Prop
  | refl : Steps step s [] s
  | tail {tr : List (σ × Ev)} {t t' : σ} {e : Ev} :
      Steps step s tr t → step t e = .ok t' → Steps step s (tr ++ [(t, e)]) t'

theorem Steps.start_mem {s s' : σ} {tr : List (σ × Ev)} (h : Steps step s tr s') :
    s ∈ tr.map Prod.fst ++ [s'] := by
  induction h with
  | refl => exact List.mem_singleton.mpr rfl
  | tail _ _ ih =>
      rw [List.map_append]
      exact List.mem_append_left _ ih

/-- Every state of a run satisfies a predicate that each step preserves,
when the step is taken under a condition `C` on its pre-state and event. -/
theorem Steps.inv_of {P : σ → Prop} {C : σ → Ev → Prop}
    (hstep : ∀ t e t', P t → C t e → step t e = .ok t' → P t')
    {s s' : σ} {tr : List (σ × Ev)} (h : Steps step s tr s') (h0 : P s)
    (hC : ∀ x ∈ tr, C x.1 x.2) : P s' := by
  induction h with
  | refl => exact h0
  | @tail tr t t' e _ hst ih =>
      refine hstep t e t' (ih fun x hx => hC x ?_) (hC (t, e) ?_) hst
      · exact List.mem_append_left _ hx
      · exact List.mem_append_right _ (List.mem_singleton.mpr rfl)

/-- Every state of a run satisfies a predicate that each step preserves. -/
theorem Steps.inv {P : σ → Prop}
    (hstep : ∀ t e t', P t → step t e = .ok t' → P t')
    {s s' : σ} {tr : List (σ × Ev)} (h : Steps step s tr s') (h0 : P s) :
    P s' :=
  h.inv_of (C := fun _ _ => True) (fun t e t' hp _ => hstep t e t' hp) h0
    fun _ _ => trivial

/-- A predicate that each step keeps exactly under a condition `C` holds in
every state of a run exactly when every step is taken under `C`. -/
theorem Steps.all_iff {I P : σ → Prop} {C : σ → Ev → Prop}
    (hI : ∀ t e t', I t → step t e = .ok t' → I t')
    (hstep : ∀ t e t', I t → P t → step t e = .ok t' → (P t' ↔ C t e))
    {s s' : σ} {tr : List (σ × Ev)} (h : Steps step s tr s') (h0 : I s) (hP : P s) :
    ((∀ x ∈ tr, P x.1) ∧ P s') ↔ ∀ x ∈ tr, C x.1 x.2 := by
  induction h with
  | refl => exact ⟨fun _ _ hx => absurd hx List.not_mem_nil, fun _ => ⟨by simp, hP⟩⟩
  | @tail tr t t' e hpre hst ih =>
      simp only [List.forall_mem_append, List.forall_mem_singleton]
      rw [← ih]
      exact and_congr_right fun hall => hstep t e t' (hpre.inv hI h0) hall.2 hst

/-- A predicate `Q` holds all along a run exactly if every step is taken
under `C`: such steps keep a stronger predicate, and others end `Q`. -/
theorem Steps.all_iff_of {P Q : σ → Prop} {C : σ → Ev → Prop} (hPQ : ∀ t, P t → Q t)
    (hkeep : ∀ t e t', P t → step t e = .ok t' → C t e → P t')
    (hend : ∀ t e t', P t → step t e = .ok t' → ¬C t e → ¬Q t')
    {s s' : σ} {tr : List (σ × Ev)} (h : Steps step s tr s') (h0 : P s) :
    ((∀ x ∈ tr, Q x.1) ∧ Q s') ↔ ∀ x ∈ tr, C x.1 x.2 := by
  suffices hboth : ((∀ x ∈ tr, C x.1 x.2) → (∀ x ∈ tr, Q x.1) ∧ P s')
      ∧ ((∀ x ∈ tr, Q x.1) → Q s' → ∀ x ∈ tr, C x.1 x.2) by
    refine ⟨fun hQ => hboth.2 hQ.1 hQ.2, fun hC => ?_⟩
    obtain ⟨hall, hlast⟩ := hboth.1 hC
    exact ⟨hall, hPQ s' hlast⟩
  induction h with
  | refl => exact ⟨fun _ => ⟨fun x hx => absurd hx List.not_mem_nil, h0⟩,
      fun _ _ x hx => absurd hx List.not_mem_nil⟩
  | @tail tr t t' e hpre hst ih =>
      simp only [List.forall_mem_append, List.forall_mem_singleton]
      constructor
      · rintro ⟨hC, hlast⟩
        obtain ⟨hQ, hP⟩ := ih.1 hC
        exact ⟨⟨hQ, hPQ t hP⟩, hkeep t e t' hP hst hlast⟩
      · rintro ⟨hQ, hQt⟩ hQt'
        have hC := ih.2 hQ hQt
        refine ⟨hC, ?_⟩
        by_contra hlast
        exact hend t e t' (ih.1 hC).2 hst hlast hQt'

/-- Take the events one after the other. -/
def run (step : σ → Ev → Except ε σ) : σ → List Ev → Except ε σ
  | s, [] => .ok s
  | s, e :: es => do
      let t ← step s e
      run step t es

theorem Steps.run_append {s t s' : σ} {tr : List (σ × Ev)} (h : Steps step s tr t) :
    ∀ {es : List Ev}, run step t es = .ok s' →
      ∃ tr', Steps step s (tr ++ tr') s' ∧ tr'.map Prod.snd = es := by
  intro es
  induction es generalizing tr t with
  | nil =>
      intro hrun
      obtain rfl := Except.ok.inj hrun
      exact ⟨[], by simpa using h, rfl⟩
  | cons e es ih =>
      intro hrun
      obtain ⟨u, hu, hrun⟩ := bind_eq_ok.mp hrun
      obtain ⟨tr', h', hes⟩ := ih (h.tail hu) hrun
      refine ⟨(t, e) :: tr', ?_, by rw [List.map_cons, hes]⟩
      rwa [List.append_assoc] at h'

theorem steps_of_run {s s' : σ} {es : List Ev} (h : run step s es = .ok s') :
    ∃ tr, Steps step s tr s' ∧ tr.map Prod.snd = es :=
  Steps.refl.run_append h

end SpKernel.Lib
