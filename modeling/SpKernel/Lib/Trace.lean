import SpKernel.Lib.Outcome

/-!
# Properties of the steps of a run

`Steps.inv_of` and `Steps.all_iff` are about the states of a run. Here a
property is about its steps, the state before and the event: it holds of
all of them exactly if every step is taken under a condition, when the
two agree in the states that steps under the condition lead to
(`Steps.forall_iff`). A run is cut at one of its steps by `Steps.split`.

The other half is about making runs. `steps_of_test` gives the run that
an execution has made, with what a test has found of its last state, and
`steps_of_checked` one whose steps have all been tested, each in the
state it was taken in. `steps_of_total` gives one for every list of
events when no step fails.
-/

namespace SpKernel.Lib

variable {ε σ Ev : Type*} {step : σ → Ev → Except ε σ}

theorem Steps.forall_iff {P : σ → Prop} {Q C : σ → Ev → Prop}
    (hkeep : ∀ t e t', P t → C t e → step t e = .ok t' → P t')
    (hiff : ∀ t e, P t → (Q t e ↔ C t e))
    {s s' : σ} {tr : List (σ × Ev)} (h : Steps step s tr s') (h0 : P s) :
    (∀ x ∈ tr, Q x.1 x.2) ↔ ∀ x ∈ tr, C x.1 x.2 := by
  induction h with
  | refl =>
      exact iff_of_true (fun x hx => absurd hx List.not_mem_nil)
        (fun x hx => absurd hx List.not_mem_nil)
  | @tail tr t t' e hpre hst ih =>
      simp only [List.forall_mem_append, List.forall_mem_singleton]
      rw [ih]
      exact and_congr_right fun hall => hiff t e (hpre.inv_of hkeep h0 hall)

/-- A run is one up to any of its steps, that step, and one from there on. -/
theorem Steps.split {s s' t : σ} {e : Ev} {tr₁ tr₂ : List (σ × Ev)}
    (h : Steps step s (tr₁ ++ (t, e) :: tr₂) s') :
    Steps step s tr₁ t ∧ ∃ t', step t e = .ok t' ∧ Steps step t' tr₂ s' := by
  generalize hl : tr₁ ++ (t, e) :: tr₂ = l at h
  induction h generalizing tr₂ with
  | refl => exact absurd hl (by simp)
  | @tail tr u u' e' hpre hst ih =>
      rcases List.eq_nil_or_concat tr₂ with rfl | ⟨init, last, rfl⟩
      · obtain ⟨rfl, hlast⟩ := List.append_inj' hl rfl
        obtain ⟨rfl, rfl⟩ := Prod.mk.inj (List.singleton_inj.mp hlast)
        exact ⟨hpre, u', hst, .refl⟩
      · rw [List.concat_eq_append, ← List.cons_append, ← List.append_assoc] at hl
        obtain ⟨hinit, hlast⟩ := List.append_inj' hl rfl
        obtain ⟨hbefore, t', ht', hrest⟩ := ih hinit
        obtain rfl := List.singleton_inj.mp hlast
        exact ⟨hbefore, t', ht', by rw [List.concat_eq_append]; exact hrest.tail hst⟩

/-- When no step fails, there is a run for every list of events. -/
theorem steps_of_total (htotal : ∀ s e, ∃ s', step s e = .ok s') (s : σ) (es : List Ev) :
    ∃ tr s', Steps step s tr s' ∧ tr.map Prod.snd = es := by
  have hrun : ∀ (es : List Ev) (s : σ), ∃ s', run step s es = .ok s' := by
    intro es
    induction es with
    | nil => exact fun s => ⟨s, rfl⟩
    | cons e es ih =>
        intro s
        obtain ⟨t, ht⟩ := htotal s e
        obtain ⟨s', hs'⟩ := ih t
        exact ⟨s', bind_eq_ok.mpr ⟨t, ht, hs'⟩⟩
  obtain ⟨s', hs'⟩ := hrun es s
  obtain ⟨tr, h⟩ := steps_of_run hs'
  exact ⟨tr, s', h⟩

/-- A run that is executed, and passes a test at its end. -/
theorem steps_of_test {s : σ} {es : List Ev} {test : σ → Bool}
    (h : okAnd (run step s es) test = true) :
    ∃ tr s', Steps step s tr s' ∧ tr.map Prod.snd = es ∧ test s' = true := by
  obtain ⟨s', hs, ht⟩ := of_okAnd h
  obtain ⟨tr, hrun, hes⟩ := steps_of_run hs
  exact ⟨tr, s', hrun, hes, ht⟩

/-- Execute the events, each if it passes a check, and test the end. -/
def checkedRun (step : σ → Ev → Except ε σ) (check : σ → Ev → Bool) (test : σ → Bool) :
    List Ev → σ → Bool
  | [], s => test s
  | e :: es, s => check s e && okAnd (step s e) (checkedRun step check test es)

theorem Steps.checked_append {check : σ → Ev → Bool} {test : σ → Bool} {s t : σ}
    {tr : List (σ × Ev)} {es : List Ev} (h : Steps step s tr t)
    (hall : ∀ x ∈ tr, check x.1 x.2 = true) (hrun : checkedRun step check test es t = true) :
    ∃ tr' s', Steps step s tr' s' ∧ tr'.map Prod.snd = tr.map Prod.snd ++ es
      ∧ (∀ x ∈ tr', check x.1 x.2 = true) ∧ test s' = true := by
  induction es generalizing tr t with
  | nil => exact ⟨tr, t, h, (List.append_nil _).symm, hall, hrun⟩
  | cons e es ih =>
      rw [checkedRun, Bool.and_eq_true] at hrun
      obtain ⟨hcheck, hrun⟩ := hrun
      obtain ⟨u, hu, hrun⟩ := of_okAnd hrun
      have hall' : ∀ x ∈ tr ++ [(t, e)], check x.1 x.2 = true :=
        List.forall_mem_append.mpr ⟨hall, List.forall_mem_singleton.mpr hcheck⟩
      obtain ⟨tr', s', h', hes, hall', htest⟩ := ih (h.tail hu) hall' hrun
      refine ⟨tr', s', h', ?_, hall', htest⟩
      rw [hes, List.map_append, List.append_assoc]
      rfl

theorem steps_of_checked {check : σ → Ev → Bool} {test : σ → Bool} {s : σ} {es : List Ev}
    (h : checkedRun step check test es s = true) :
    ∃ tr s', Steps step s tr s' ∧ tr.map Prod.snd = es
      ∧ (∀ x ∈ tr, check x.1 x.2 = true) ∧ test s' = true :=
  Steps.refl.checked_append nofun h

end SpKernel.Lib
