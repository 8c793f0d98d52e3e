import QueryPipeline.Binding.Query
import QueryPipeline.Proofs.Binding.Invariant

/-!
Scopes and names. Binding is put together from steps that leave the context alone, from lookups,
from new names and from scopes that are closed on every way out (`BindM.Built`). So whatever it
binds, and wherever it fails, it leaves the scopes as it found them, and it has given out as many
names as the counter has grown by, each for the first time (`binding_restores`).
-/

namespace QueryPipeline

theorem accumulatorName_inj {m n : Nat} : accumulatorName m = accumulatorName n ↔ m = n := by
  constructor
  · intro same
    have digits : Nat.toDigits 10 m = Nat.toDigits 10 n := by
      simpa [accumulatorName, Nat.toString_eq_ofList_toDigits] using congrArg String.toList same
    rw [← Nat.ofDigitChars_ten_toDigits (n := m), digits, Nat.ofDigitChars_ten_toDigits]
  · rintro rfl
    rfl

/-! ### Steps -/

namespace BindM

variable {α β : Type}

/-- Steps put together from those that leave the context alone, lookups, new names and scopes. -/
inductive Built : {α : Type} → BindM α → Prop
  | ofExcept {α : Type} (result : Except BindingError α) : Built (ofExcept result)
  | lookup (name : String) : Built (lookup name)
  | mint : Built mint
  | within {α : Type} (frame : List (String × Term)) {step : BindM α} :
      Built step → Built (within frame step)
  | bind {α β : Type} {step : BindM α} {next : α → BindM β} :
      Built step → (∀ ⦃c a c'⦄, step.Yields c a c' → Built (next a)) → Built (step >>= next)

/-- The names that a step gives out in a context, in order. Those that were given out before a
failure count. -/
inductive Mints : {α : Type} → BindM α → Context → List String → Prop
  | ofExcept {α : Type} {c} (result : Except BindingError α) : Mints (ofExcept result) c []
  | lookup {c} (name : String) : Mints (lookup name) c []
  | mint {c} : Mints mint c [accumulatorName c.minted]
  | within {α : Type} {c names} (frame : List (String × Term)) {step : BindM α} :
      Mints step { c with scopes := c.scopes.push frame } names →
      Mints (within frame step) c names
  | bind {α β : Type} {c c₁ a names names'} {step : BindM α} {next : α → BindM β} :
      Mints step c names → step.Yields c a c₁ → Mints (next a) c₁ names' →
      Mints (step >>= next) c (names ++ names')
  | failed {α β : Type} {c c₁ e names} {step : BindM α} {next : α → BindM β} :
      Mints step c names → step.outcome c = (.error e, c₁) → Mints (step >>= next) c names

/-- A step gives out names, and however it ends, the scopes are as they were, and the counter has
grown by the number of names. They are spelled with the numbers from the counter on, so no two
are the same, and none was given out before. -/
structure Restores (step : BindM α) (c : Context) (names : List String) : Prop where
  mints : step.Mints c names
  scopes : (step.outcome c).2.scopes = c.scopes
  minted : (step.outcome c).2.minted = c.minted + names.length
  spelled : names = (List.range' c.minted names.length).map accumulatorName
  distinct : names.Nodup
  fresh : ∀ n < c.minted, accumulatorName n ∉ names

namespace Built

theorem pure (a : α) : Built (Pure.pure a : BindM α) := .ofExcept (.ok a)

theorem throw (e : BindingError) : Built (MonadExcept.throw e : BindM α) := .ofExcept (.error e)

theorem unsupported (text : String) : Built (BindM.unsupported text : BindM α) :=
  .throw (.unsupportedShape text)

/-- A step after another one, whatever the value of that. -/
theorem andThen {step : BindM α} {next : α → BindM β} (h : step.Built)
    (hnext : ∀ a, (next a).Built) : (step >>= next).Built :=
  .bind h fun _ a _ _ => hnext a

theorem map {step : BindM α} (f : α → β) (h : step.Built) : (f <$> step).Built := by
  rw [map_eq_pure_bind]
  exact h.andThen fun a => .pure (f a)

/-- A step gives out names in every context. -/
theorem mints {step : BindM α} (h : step.Built) (c : Context) : ∃ names, step.Mints c names := by
  induction h generalizing c with
  | ofExcept result => exact ⟨_, .ofExcept result⟩
  | lookup name => exact ⟨_, .lookup name⟩
  | mint => exact ⟨_, .mint⟩
  | within frame _ ih =>
    obtain ⟨names, h⟩ := ih { c with scopes := c.scopes.push frame }
    exact ⟨names, .within frame h⟩
  | @bind _ _ step next _ _ ih ihNext =>
    obtain ⟨names, h⟩ := ih c
    cases ended : step.outcome c with
    | mk result c₁ =>
      cases result with
      | error e => exact ⟨names, .failed h ended⟩
      | ok a =>
        obtain ⟨names', h'⟩ := ihNext ended c₁
        exact ⟨names ++ names', .bind h ended h'⟩

end Built

namespace Mints

variable {c : Context} {names : List String}

theorem context_lookup (name : String) : ((BindM.lookup name).outcome c).2 = c := by
  have get : BindM.outcome get c = (.ok c, c) := rfl
  rw [BindM.lookup, outcome_bind, get]
  dsimp only
  cases c.scopes.lookup name <;> rfl

/-- What a run of a step does to the context. -/
theorem context {step : BindM α} (h : step.Mints c names) :
    (step.outcome c).2 = { c with minted := c.minted + names.length } ∧
      names = (List.range' c.minted names.length).map accumulatorName := by
  induction h with
  | ofExcept result => exact ⟨rfl, rfl⟩
  | lookup name => exact ⟨context_lookup name, rfl⟩
  | mint => exact ⟨rfl, rfl⟩
  | within frame _ ih =>
    obtain ⟨ended, spelled⟩ := ih
    refine ⟨?_, spelled⟩
    rw [outcome_within]
    exact congrArg (fun ended => { ended with scopes := ended.scopes.pop }) ended
  | @bind _ _ c c₁ a names names' step next _ yields _ ih ihNext =>
    obtain ⟨ended, spelled⟩ := ih
    obtain ⟨ended', spelled'⟩ := ihNext
    obtain rfl : c₁ = { c with minted := c.minted + names.length } := by
      rw [← ended, yields]
    constructor
    · rw [outcome_bind, yields, List.length_append, ← Nat.add_assoc]
      exact ended'
    · rw [List.length_append, ← List.range'_append_1, List.map_append, ← spelled]
      exact congrArg (names ++ ·) spelled'
  | failed _ failed ih =>
    obtain ⟨ended, spelled⟩ := ih
    refine ⟨?_, spelled⟩
    rw [outcome_bind, failed]
    rwa [failed] at ended

end Mints

/-- **Every step that is put together in this way restores its scopes.** -/
theorem Built.restores {step : BindM α} (h : step.Built) (c : Context) :
    ∃ names, step.Restores c names := by
  obtain ⟨names, mints⟩ := h.mints c
  obtain ⟨ended, spelled⟩ := mints.context
  refine ⟨names, mints, by rw [ended], by rw [ended], spelled, ?_, ?_⟩
  · rw [spelled]
    exact List.Pairwise.map _ (fun _ _ => mt accumulatorName_inj.mp) (List.nodup_range' 1)
  · intro n earlier given
    rw [spelled] at given
    obtain ⟨m, hm, same⟩ := List.mem_map.mp given
    obtain rfl := accumulatorName_inj.mp same
    exact absurd (List.mem_range'_1.mp hm).1 (by omega)

end BindM

/-! ### Arguments -/

namespace Argument

variable {a : Argument}

theorem built_bindValue (h : a.step.Built) : a.bindValue.Built := by
  cases a with
  | lambda => exact .unsupported _
  | value => exact h

theorem built_bindPair {first second : String → Term} (h : a.step.Built) :
    (a.bindPair first second).Built := by
  unfold bindPair
  split
  · exact (BindM.Built.within _ h).andThen fun _ => .pure _
  · exact .unsupported _

theorem built_bindElement {σ ρ : Type} [Sequence σ ρ] {s : σ} (h : a.step.Built) :
    (a.bindElement s).Built := by
  unfold bindElement
  split
  · exact (BindM.Built.within _ h).andThen fun _ => .pure _
  · exact .unsupported _

end Argument

namespace Call

variable {call : Call Argument}

/-- The arguments of a call are bound by such steps. -/
def Built (call : Call Argument) : Prop := ∀ a ∈ call.arguments, a.step.Built

theorem built_argument {i : Nat} : (call.argument i).Built := by
  unfold argument
  split
  · exact .pure _
  · exact .unsupported _

theorem built_count : call.count.Built := by
  have ofInt {n : Int} : (count.ofInt call n).Built := by
    unfold count.ofInt
    split
    · exact .unsupported _
    · exact .pure _
  refine built_argument.andThen fun a => ?_
  split
  · exact ofInt
  · exact ofInt
  · exact .unsupported _

theorem built_classMap (registry : Registry) : (call.classMap registry).Built := by
  unfold classMap
  split
  · split
    · exact .pure _
    · exact .throw _
  · exact .unsupported _

variable {σ ρ : Type} [Sequence σ ρ] (s : σ) (h : call.Built)
include h

theorem built_value : call.value.Built :=
  .bind built_argument fun _ a _ ha => Argument.built_bindValue (h a (argument_yields ha).1)

theorem built_lambda : (call.lambda s).Built :=
  .bind built_argument fun _ a _ ha => Argument.built_bindElement (h a (argument_yields ha).1)

theorem built_optionalLambda : (call.optionalLambda s).Built := by
  unfold optionalLambda
  split
  · exact .pure _
  · rename_i a rest arguments
    exact .map _ (Argument.built_bindElement (h a (by rw [arguments]; exact .head _)))

end Call

/-! ### Operators -/

/-- The operations of a kind of sequence that may give out names are such steps. -/
structure Sequence.Built (σ ρ : Type) [Sequence σ ρ] : Prop where
  collect (s : σ) (site : String) : (Sequence.collect s site).Built
  aggregate (s : σ) (kind : Aggregate) (selector : Option Lambda) (site : String) :
    (Sequence.aggregate s kind selector site).Built
  element (s : σ) (pick : Pick) (site : String) : (Sequence.element s pick site).Built

namespace Operator

variable {σ ρ : Type}

theorem built_next (outcome : Except BindingError σ) :
    (next outcome : BindM (Applied σ ρ)).Built :=
  .ofExcept _

theorem built_done (outcome : Except BindingError ρ) :
    (done outcome : BindM (Applied σ ρ)).Built :=
  .ofExcept _

variable {call : Call Argument} [Sequence σ ρ] (s : σ)

/-- The argument that is bound when there are groups is one of the call. -/
theorem groupSelectors_rest {c c' : Context} {element : Option Lambda} {a : Argument}
    (h : (groupSelectors s call).Yields c (element, some a) c') : a ∈ call.arguments := by
  unfold groupSelectors at h
  split at h
  · cases (BindM.yields_pure.mp h).1
  · rename_i arguments
    split at h
    · cases (BindM.yields_pure.mp h).1
      simp [arguments]
    · simp at h
  · rename_i arguments
    simp only [BindM.yields_bind, BindM.yields_pure, Prod.mk.injEq, Option.some.injEq] at h
    obtain ⟨-, -, -, ⟨-, rfl⟩, -⟩ := h
    simp [arguments]
  · exact absurd h BindM.not_yields_unsupported

variable (h : call.Built)
include h

theorem built_flattenStep : (flattenStep s call).Built := by
  refine (call.built_lambda s h).andThen fun collection => ?_
  refine (BindM.Built.ofExcept _).andThen fun (s', inner) => ?_
  refine BindM.Built.andThen ?_ fun selector => .ofExcept _
  unfold flattenSelector
  split
  · rename_i result found
    exact Argument.built_bindPair (h result (List.mem_of_getElem? found))
  · exact .pure _

theorem built_groupSelectors : (groupSelectors s call).Built := by
  unfold groupSelectors
  split
  · exact .pure _
  · rename_i second arguments
    split
    · exact .pure _
    · have member : second ∈ call.arguments := by simp [arguments]
      exact (Argument.built_bindElement (h second member)).andThen fun _ => .pure _
  · rename_i second third arguments
    have member : second ∈ call.arguments := by simp [arguments]
    exact (Argument.built_bindElement (h second member)).andThen fun _ => .pure _
  · exact .unsupported _

theorem built_groupStep : (groupStep s call).Built := by
  refine (call.built_lambda s h).andThen fun key => ?_
  refine .bind (built_groupSelectors s h) ?_
  rintro c ⟨selector, result⟩ c' selected
  refine (BindM.Built.ofExcept _).andThen fun groups => ?_
  cases result with
  | none => exact .pure _
  | some result =>
    have bound := h result (groupSelectors_rest s selected)
    exact (Argument.built_bindPair bound).andThen fun selector => .ofExcept _

theorem built_optionalFilter : (optionalFilter s call).Built := by
  refine (call.built_optionalLambda s h).andThen fun predicate => ?_
  cases predicate with
  | none => exact .pure _
  | some predicate => exact .ofExcept _

theorem built_combineStep (op : SetOp) : (combineStep s op call).Built :=
  (call.built_value h).andThen fun _ => .ofExcept _

omit h in
theorem built_elementAtStep (steps : Sequence.Built σ ρ) (pick : Pick) :
    (elementAtStep s pick call).Built :=
  call.built_count.andThen fun _ => (BindM.Built.ofExcept _).andThen fun _ => steps.element _ _ _

/-- **An operator on a sequence** is such a step if those of the sequence are. -/
theorem built_apply (steps : Sequence.Built σ ρ) (registry : Registry) (op : Operator) :
    (op.apply registry s call).Built := by
  unfold apply
  generalize (if op.keepsSortOpen then s else Sequence.closeSort s) = s
  cases op with
  | filter | project | sortBy | thenBy =>
    exact (call.built_lambda s h).andThen fun _ => built_next _
  | all => exact (call.built_lambda s h).andThen fun _ => built_done _
  | any => exact (call.built_optionalLambda s h).andThen fun _ => built_done _
  | contains => exact (call.built_value h).andThen fun _ => built_done _
  | skip | take => exact call.built_count.andThen fun _ => built_next _
  | ofType => exact (call.built_classMap registry).andThen fun _ => built_next _
  | distinct => exact built_next _
  | flatten => exact (built_flattenStep s h).andThen fun _ => .pure _
  | groupBy => exact (built_groupStep s h).andThen fun _ => .pure _
  | union | except | intersect => exact (built_combineStep s h _).andThen fun _ => .pure _
  | elementAt | elementAtOrDefault =>
    exact (built_elementAtStep s steps _).andThen fun _ => .pure _
  | element pick =>
    refine (built_optionalFilter s h).andThen fun _ => ?_
    exact (steps.element _ _ _).andThen fun _ => .pure _
  | aggregate kind =>
    cases kind with
    | count | longCount =>
      refine (built_optionalFilter s h).andThen fun _ => ?_
      exact (steps.aggregate _ _ _ _).andThen fun _ => .pure _
    | sum | average | min | max =>
      refine (call.built_optionalLambda s h).andThen fun _ => ?_
      exact (steps.aggregate _ _ _ _).andThen fun _ => .pure _
  | toList | toArray => exact steps.collect s _
  | asQueryable => exact .pure _

end Operator

theorem Pipeline.built : Sequence.Built Pipeline Pipeline where
  collect _ _ := .pure _
  aggregate _ _ _ _ := .pure _
  element _ _ _ := .pure _

theorem Items.built : Sequence.Built Items Term where
  collect _ _ := .pure _
  aggregate _ _ _ _ := .pure _
  element _ _ _ := .ofExcept _

theorem Group.built_accumulator (g : Group) (kind : AccumulatorKind) (source : Term)
    (codec : Codec) : (g.accumulator kind source codec).Built :=
  BindM.Built.mint.andThen fun _ => .pure _

theorem Group.built : Sequence.Built Group Term where
  collect g site := by
    refine BindM.Built.andThen ?_ fun _ => .pure _
    unfold Group.collect
    split
    · exact .unsupported _
    · exact g.built_accumulator _ _ _
  aggregate g kind selector site := by
    change (g.aggregate kind selector site).Built
    unfold Group.aggregate
    split
    · exact .unsupported _
    · exact g.built_accumulator _ _ _
  element g pick site := by
    change (g.pick pick site).Built
    unfold Group.pick
    split
    · exact .unsupported _
    · split
      · exact g.built_accumulator _ _ _
      · exact .unsupported _

/-! ### Expressions and queries -/

theorem Term.built_applyOperator (registry : Registry) (source : Term) (op : Operator)
    {call : Call Argument} (h : call.Built) (text : String) :
    (source.applyOperator registry op call text).Built := by
  unfold applyOperator
  split
  · exact (op.built_apply _ h Group.built registry).andThen fun _ => .pure _
  · split
    · refine (BindM.Built.ofExcept _).andThen fun s => ?_
      exact (op.built_apply s h Items.built registry).andThen fun _ => .pure _
    · exact .unsupported _

namespace Expr

mutual
/-- **Binding an expression** is such a step, whatever the expression is. -/
theorem built_bind (registry : Registry) : ∀ e : Expr, (e.bind registry).Built
  | .const value type => by
    unfold bind
    split
    · exact .pure _
    · exact .throw _
  | .param name => by
    unfold bind
    exact .lookup name
  | .member target name => by
    unfold bind
    refine (built_bind registry target).andThen fun bound => ?_
    split
    · exact .pure _
    · exact .throw _
  | .unary op operand => by
    unfold bind
    exact (built_bind registry operand).andThen fun _ => .pure _
  | .binary op left right => by
    unfold bind
    refine (built_bind registry left).andThen fun _ => ?_
    exact (built_bind registry right).andThen fun _ => .pure _
  | .cond test ifTrue ifFalse => by
    unfold bind
    refine (built_bind registry test).andThen fun _ => ?_
    refine (built_bind registry ifTrue).andThen fun _ => ?_
    exact (built_bind registry ifFalse).andThen fun _ => .pure _
  | .new members => by
    unfold bind
    exact (built_bindMembers registry _ members .empty).andThen fun _ => .pure _
  | .index array position => by
    unfold bind
    refine (built_bind registry array).andThen fun bound => ?_
    split
    · exact (built_bind registry position).andThen fun _ => .pure _
    · exact .unsupported _
  | .call source c => by
    unfold bind
    refine (BindM.Built.ofExcept _).andThen fun op => ?_
    refine (built_bind registry source).andThen fun bound => ?_
    exact bound.built_applyOperator registry op (built_bindArguments registry c) _
  | .lambda parameters body => by
    unfold bind
    exact .unsupported _

theorem built_bindMembers (registry : Registry) (text : String) :
    ∀ (members : List (String × Expr)) (bound : UniqueMap String Term),
      (bindMembers registry text bound members).Built
  | [], bound => by
    unfold bindMembers
    exact .pure _
  | (name, e) :: rest, bound => by
    unfold bindMembers
    refine (built_bind registry e).andThen fun t => ?_
    split
    · exact built_bindMembers registry text rest _
    · exact .unsupported _

theorem built_bindArguments (registry : Registry) :
    ∀ call : Call Expr, (bindArguments registry call).Built
  | ⟨_, _, _, arguments⟩, a, ha => by
    unfold bindArguments at ha
    exact built_bindEach registry arguments a ha

theorem built_bindEach (registry : Registry) :
    ∀ (es : List Expr), ∀ a ∈ bindEach registry es, a.step.Built
  | [], a, ha => by
    unfold bindEach at ha
    cases ha
  | e :: rest, a, ha => by
    cases e with
    | lambda parameters body =>
      simp only [bindEach] at ha
      rcases List.mem_cons.mp ha with rfl | ha
      · exact built_bind registry body
      · exact built_bindEach registry rest a ha
    | _ =>
      simp only [bindEach] at ha
      rcases List.mem_cons.mp ha with rfl | ha
      · exact built_bind registry _
      · exact built_bindEach registry rest a ha
end

end Expr

namespace Query

variable (registry : Registry)

theorem built_bindClauses (clauses : List (Call Expr)) (p : Pipeline) :
    (bindClauses registry p clauses).Built := by
  induction clauses generalizing p with
  | nil => exact .pure p
  | cons clause rest ih =>
    refine (BindM.Built.ofExcept _).andThen fun op => ?_
    refine (op.built_apply p (Expr.built_bindArguments registry clause) Pipeline.built
      registry).andThen fun applied => ?_
    cases applied with
    | sequence p => exact ih p
    | terminal p =>
      cases rest with
      | nil => exact .pure p
      | cons next _ => exact .unsupported _

theorem built_bind (q : Query) : (q.bind registry).Built := by
  unfold bind
  split
  · exact built_bindClauses registry q.clauses _
  · exact .throw _

end Query

/-- **Binding restores its scopes.** In every context, binding an expression, applying an operator
with its arguments to any kind of sequence, and binding a query, whether they succeed or fail,
leave the scopes as they were, and give out as many names as the counter grows by, each for the
first time. -/
theorem binding_restores (registry : Registry) (c : Context) :
    (∀ e : Expr, ∃ names, (e.bind registry).Restores c names) ∧
    (∀ (op : Operator) (call : Call Expr),
      (∀ p : Pipeline, ∃ names,
        (op.apply registry p (Expr.bindArguments registry call)).Restores c names) ∧
      (∀ s : Items, ∃ names,
        (op.apply registry s (Expr.bindArguments registry call)).Restores c names) ∧
      (∀ g : Group, ∃ names,
        (op.apply registry g (Expr.bindArguments registry call)).Restores c names)) ∧
    (∀ q : Query, ∃ names, (q.bind registry).Restores c names) := by
  refine ⟨fun e => (e.built_bind registry).restores c, fun op call => ?_,
    fun q => (q.built_bind registry).restores c⟩
  have arguments := Expr.built_bindArguments registry call
  refine ⟨fun p => ?_, fun s => ?_, fun g => ?_⟩
  · exact (op.built_apply p arguments Pipeline.built registry).restores c
  · exact (op.built_apply s arguments Items.built registry).restores c
  · exact (op.built_apply g arguments Group.built registry).restores c

/-- A name is given out although the operand behind it fails. -/
example :
    let g : Group := { stage := 0, key := .root .dynamic, element := .root .dynamic }
    let c : Context := { scopes := ⟨[[("g", g.term)]]⟩, minted := 4 }
    ((Expr.binary .add (.call (.param "g") ⟨"Enumerable", "Count", [], []⟩)
      (.param "h")).bind {}).outcome c = (.error (.unsupportedShape "h"), { c with minted := 5 }) :=
  rfl

end QueryPipeline
