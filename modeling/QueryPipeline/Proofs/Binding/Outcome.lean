import QueryPipeline.Binding.Argument

/-!
What a binding step does. `BindM.outcome` runs a step, and `BindM.Yields` says with
which value and in which context a step that succeeds ends. Each way to build a
step has one law that takes its success apart, so that proofs about binding never
open the monad.
-/

namespace QueryPipeline

namespace BindM

variable {α β : Type} {c c' : Context}

/-- What a step ends with, and the context it leaves. -/
def outcome (step : BindM α) (c : Context) : Except BindingError α × Context :=
  step.run.run c

/-- The step, run in a context, succeeds with a value and leaves a context. -/
def Yields (step : BindM α) (c : Context) (a : α) (c' : Context) : Prop :=
  step.outcome c = (.ok a, c')

/-- A step ends in one way. -/
theorem Yields.unique {step : BindM α} {a b : α} {c'' : Context} (h : step.Yields c a c')
    (h' : step.Yields c b c'') : a = b ∧ c' = c'' := by
  simpa [Yields] using h.symm.trans h'

theorem outcome_pure (a : α) : outcome (pure a) c = (.ok a, c) := rfl

theorem outcome_throw (e : BindingError) :
    outcome (throw e : BindM α) c = (.error e, c) := rfl

theorem outcome_ofExcept (result : Except BindingError α) :
    outcome (ofExcept result) c = (result, c) := rfl

theorem outcome_bind (step : BindM α) (next : α → BindM β) :
    outcome (step >>= next) c =
      match step.outcome c with
      | (.ok a, c₁) => (next a).outcome c₁
      | (.error e, c₁) => (.error e, c₁) := by
  unfold outcome
  rw [ExceptT.run_bind, StateT.run_bind]
  change (match step.run.run c with | (o, c₁) => _) = _
  cases h : step.run.run c with
  | mk result c₁ => cases result <;> rfl

theorem outcome_within (frame : List (String × Term)) (step : BindM α) :
    outcome (within frame step) c =
      let ended := step.outcome { c with scopes := c.scopes.push frame }
      (ended.1, { ended.2 with scopes := ended.2.scopes.pop }) := rfl

@[simp] theorem yields_pure {a b : α} :
    Yields (pure a) c b c' ↔ a = b ∧ c = c' := by
  simp [Yields, outcome_pure]

/-- A sequence of steps succeeds when each of them does. -/
@[simp] theorem yields_bind {step : BindM α} {next : α → BindM β} {b : β} :
    Yields (step >>= next) c b c' ↔
      ∃ a c₁, Yields step c a c₁ ∧ Yields (next a) c₁ b c' := by
  unfold Yields
  rw [outcome_bind]
  cases step.outcome c with
  | mk result c₁ =>
    cases result with
    | error e => simp
    | ok a => simp [and_assoc]

/-- After a step that succeeds, the next one decides. -/
theorem Yields.bind_iff {step : BindM α} {next : α → BindM β} {a : α} {b : β} {c₁ : Context}
    (h : step.Yields c a c₁) :
    Yields (step >>= next) c b c' ↔ Yields (next a) c₁ b c' := by
  unfold Yields at h ⊢
  rw [outcome_bind, h]

@[simp] theorem yields_map {step : BindM α} {f : α → β} {b : β} :
    Yields (f <$> step) c b c' ↔ ∃ a, Yields step c a c' ∧ f a = b := by
  rw [map_eq_pure_bind, yields_bind]
  simp only [yields_pure]
  constructor
  · rintro ⟨a, c₁, h, rfl, rfl⟩
    exact ⟨a, h, rfl⟩
  · rintro ⟨a, h, rfl⟩
    exact ⟨a, c', h, rfl, rfl⟩

@[simp] theorem not_yields_throw {e : BindingError} {a : α} :
    ¬ Yields (throw e) c a c' := by
  simp [Yields, outcome_throw]

@[simp] theorem not_yields_unsupported {text : String} {a : α} :
    ¬ Yields (unsupported text) c a c' :=
  not_yields_throw

@[simp] theorem yields_ofExcept {result : Except BindingError α} {a : α} :
    Yields (ofExcept result) c a c' ↔ result = .ok a ∧ c = c' := by
  simp [Yields, outcome_ofExcept]

/-- A scope is open during the step only. -/
@[simp] theorem yields_within {frame : List (String × Term)} {step : BindM α} {a : α} :
    Yields (within frame step) c a c' ↔
      ∃ c₁, Yields step { c with scopes := c.scopes.push frame } a c₁ ∧
        { c₁ with scopes := c₁.scopes.pop } = c' := by
  unfold Yields
  rw [outcome_within]
  cases step.outcome { c with scopes := c.scopes.push frame } with
  | mk result c₁ => simp [and_assoc]

theorem yields_get {found : Context} :
    Yields get c found c' ↔ c = found ∧ c = c' := by
  have run : outcome (get : BindM Context) c = (.ok c, c) := rfl
  simp [Yields, run]

@[simp] theorem yields_lookup {name : String} {t : Term} :
    Yields (lookup name) c t c' ↔ c.scopes.lookup name = some t ∧ c = c' := by
  unfold lookup
  simp only [yields_bind, yields_get]
  constructor
  · rintro ⟨a, c₁, ⟨rfl, rfl⟩, h⟩
    cases found : c.scopes.lookup name with
    | none =>
      rw [found] at h
      exact absurd h not_yields_unsupported
    | some u =>
      rw [found] at h
      obtain ⟨rfl, rfl⟩ := yields_pure.mp h
      exact ⟨rfl, rfl⟩
  · rintro ⟨found, rfl⟩
    refine ⟨c, c, ⟨rfl, rfl⟩, ?_⟩
    rw [found]
    exact yields_pure.mpr ⟨rfl, rfl⟩

@[simp] theorem yields_mint {name : String} :
    Yields mint c name c' ↔
      accumulatorName c.minted = name ∧ { c with minted := c.minted + 1 } = c' := by
  have run : mint.outcome c =
      (.ok (accumulatorName c.minted), { c with minted := c.minted + 1 }) := rfl
  simp [Yields, run]

end BindM

end QueryPipeline
