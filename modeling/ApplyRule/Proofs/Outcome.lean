/-
# ApplyRule.Proofs.Outcome -- what a run comes to

A run ends with an answer or is refused, and leaves a state in both cases.
`Outcome run state ok failed` says what holds of either end; `Outcome.bind` and
`Outcome.forM` carry it along a run.
-/
import ApplyRule.Pass

namespace ApplyRule

set_option autoImplicit false

variable {ε σ α β : Type}

/-- What a run comes to from a state: one thing holds if it succeeds and another if
it is refused. -/
def Outcome (run : EStateM ε σ α) (state : σ) (ok : α → σ → Prop) (failed : ε → σ → Prop) :
    Prop :=
  match run state with
  | .ok answer after => ok answer after
  | .error error after => failed error after

/-- What can be computed of an answer holds of it. -/
theorem exists_ok_of_any (result : Except ε α) (p : α → Bool)
    (holds : result.toOption.any p = true) : ∃ answer, result = .ok answer ∧ p answer = true := by
  cases result with
  | ok answer => exact ⟨answer, rfl, holds⟩
  | error error => cases holds

theorem exists_error_of_isNone (result : Except ε α) (failed : result.toOption.isNone = true) :
    ∃ error, result = .error error := by
  cases result with
  | ok answer => cases failed
  | error error => exact ⟨error, rfl⟩

theorem eq_error_of_computed [DecidableEq ε] (result : Except ε α) (error : ε)
    (computed : (match result with
      | .ok _ => false
      | .error other => decide (other = error)) = true) : result = .error error := by
  cases result with
  | ok answer => cases computed
  | error other => rw [of_decide_eq_true computed]

/-- A run goes on from where its first part succeeds. -/
theorem bind_ok {first : EStateM ε σ α} {next : α → EStateM ε σ β} {state after : σ} {answer : α}
    (ran : first state = .ok answer after) : (first >>= next) state = next answer after := by
  show EStateM.bind first next state = _
  rw [EStateM.bind, ran]

/-- A run stops where its first part is refused. -/
theorem bind_refused {first : EStateM ε σ α} {next : α → EStateM ε σ β} {state after : σ}
    {error : ε} (ran : first state = .error error after) :
    (first >>= next) state = .error error after := by
  show EStateM.bind first next state = _
  rw [EStateM.bind, ran]

/-- Both parts of a run that succeeds succeed. -/
theorem exists_of_bind_ok {first : EStateM ε σ α} {next : α → EStateM ε σ β} {state after : σ}
    {answer : β} (ran : (first >>= next) state = .ok answer after) :
    ∃ value mid, first state = .ok value mid ∧ next value mid = .ok answer after := by
  cases eq : first state with
  | ok value mid => exact ⟨value, mid, rfl, (bind_ok eq).symm.trans ran⟩
  | error error mid =>
      rw [bind_refused eq] at ran
      cases ran

/-- Whether a step succeeds and what can be computed of a pass holds of what it leaves. -/
def Step.leads (step : Step Unit) (p : Pass → Bool) (pass : Pass) : Bool :=
  match step pass with
  | .ok _ after => p after
  | .error _ _ => false

theorem Step.exists_of_leads {step : Step Unit} {p : Pass → Bool} {pass : Pass}
    (holds : step.leads p pass = true) : ∃ after, step pass = .ok () after ∧ p after = true := by
  unfold leads at holds
  cases ran : step pass with
  | error error after =>
      rw [ran] at holds
      cases holds
  | ok answer after =>
      rw [ran] at holds
      exact ⟨after, rfl, holds⟩

/-- What can be computed of what a step leaves of a text holds of it. -/
theorem Step.exists_ran (step : Step Unit) (css : String) (options : Options) (p : Pass → Bool)
    (holds : (Document.parse css).toOption.any
      (fun document => step.leads p { document, options }) = true) :
    ∃ document pass, Document.parse css = .ok document ∧
      step { document, options } = .ok () pass ∧ p pass = true := by
  obtain ⟨document, parsed, found⟩ := exists_ok_of_any _ _ holds
  obtain ⟨pass, ran, computed⟩ := exists_of_leads found
  exact ⟨document, pass, parsed, ran, computed⟩

namespace Outcome

variable {run : EStateM ε σ α} {state after : σ} {ok : α → σ → Prop} {failed : ε → σ → Prop}

theorem of_ok {answer : α} (ran : run state = .ok answer after) (holds : ok answer after) :
    Outcome run state ok failed := by
  rw [Outcome, ran]
  exact holds

theorem of_error {error : ε} (ran : run state = .error error after)
    (holds : failed error after) : Outcome run state ok failed := by
  rw [Outcome, ran]
  exact holds

/-- A run succeeds or is refused. -/
theorem cases (outcome : Outcome run state ok failed) :
    (∃ answer after, run state = .ok answer after ∧ ok answer after) ∨
      ∃ error after, run state = .error error after ∧ failed error after := by
  unfold Outcome at outcome
  cases eq : run state with
  | ok answer after =>
      rw [eq] at outcome
      exact .inl ⟨answer, after, rfl, outcome⟩
  | error error after =>
      rw [eq] at outcome
      exact .inr ⟨error, after, rfl, outcome⟩

theorem imp {ok' : α → σ → Prop} {failed' : ε → σ → Prop} (outcome : Outcome run state ok failed)
    (goesOn : ∀ answer after, ok answer after → ok' answer after)
    (stops : ∀ error after, failed error after → failed' error after) :
    Outcome run state ok' failed' := by
  rcases outcome.cases with ⟨answer, after, ran, holds⟩ | ⟨error, after, ran, holds⟩
  · exact of_ok ran (goesOn answer after holds)
  · exact of_error ran (stops error after holds)

theorem pure {answer : α} (holds : ok answer state) :
    Outcome (Pure.pure answer : EStateM ε σ α) state ok failed :=
  holds

theorem bind {mid : β → σ → Prop} {first : EStateM ε σ β} {next : β → EStateM ε σ α}
    (ran : Outcome first state mid failed)
    (goesOn : ∀ answer after, mid answer after → Outcome (next answer) after ok failed) :
    Outcome (first >>= next) state ok failed := by
  unfold Outcome at ran
  cases eq : first state with
  | ok answer after =>
      rw [eq] at ran
      unfold Outcome
      rw [bind_ok eq]
      exact goesOn answer after ran
  | error error after =>
      rw [eq] at ran
      exact of_error (bind_refused eq) ran

theorem bind_of_ok {first : EStateM ε σ β} {next : β → EStateM ε σ α} {answer : β}
    (ran : first state = .ok answer after) (goesOn : Outcome (next answer) after ok failed) :
    Outcome (first >>= next) state ok failed := by
  unfold Outcome
  rw [bind_ok ran]
  exact goesOn

/-- What every round keeps is kept. -/
theorem forM {list : List β} {round : β → EStateM ε σ PUnit} {keeps : σ → Prop}
    (holds : keeps state)
    (each : ∀ value ∈ list, ∀ state, keeps state →
      Outcome (round value) state (fun _ => keeps) failed) :
    Outcome (list.forM round) state (fun _ => keeps) failed := by
  induction list generalizing state with
  | nil => exact holds
  | cons value rest ih =>
      refine bind (each value List.mem_cons_self state holds) ?_
      intro _ after kept
      exact ih kept fun other member => each other (List.mem_cons_of_mem _ member)

end Outcome

end ApplyRule
