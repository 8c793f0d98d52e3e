import Mathlib.Data.List.Forall2
import Mathlib.Data.Option.Basic
import QueryPipeline.Binding.Query
import QueryPipeline.Proofs.Binding.Outcome

/-!
Binding steps side by side. Two steps *match* if, run in two scopes and with equally many
names given out, they end with related values and leave their scopes as they found them, or
fail with the same number. Failures keep the texts of expressions, so nothing more can be
asked of steps whose expressions are written differently.

A kind of sequence is `Blind` to the texts of calls, and to the variables of lambdas as far as
it is told: rows do not look at variables at all, while the items of an array are read by
them. `Operator.apply_matches` carries this over to every operator.
-/

namespace QueryPipeline

section Matching

variable {α β α' β' : Type}

/-- The outcomes are related values, or failures with the same number. -/
inductive Agree (rel : α → β → Prop) :
    Except BindingError α → Except BindingError β → Prop where
  | ok {a b} : rel a b → Agree rel (.ok a) (.ok b)
  | error {e e'} : e.code = e'.code → Agree rel (.error e) (.error e')

theorem Agree.refl {r : Except BindingError α} : Agree Eq r r := by
  cases r with
  | error e => exact .error rfl
  | ok a => exact .ok rfl

theorem agree_refuse {rel : α → β → Prop} {site site' : String} :
    Agree rel (refuse site) (refuse site') :=
  .error rfl

theorem Agree.bind {rel : α → β → Prop} {rel' : α' → β' → Prop} {r : Except BindingError α}
    {r' : Except BindingError β} {f : α → Except BindingError α'}
    {g : β → Except BindingError β'} (h : Agree rel r r')
    (next : ∀ a b, rel a b → Agree rel' (f a) (g b)) : Agree rel' (r >>= f) (r' >>= g) := by
  cases h with
  | ok hrel => exact next _ _ hrel
  | error hcode => exact .error hcode

theorem Agree.map {rel : α → β → Prop} {rel' : α' → β' → Prop} {r : Except BindingError α}
    {r' : Except BindingError β} {f : α → α'} {g : β → β'} (h : Agree rel r r')
    (imp : ∀ a b, rel a b → rel' (f a) (g b)) : Agree rel' (r.map f) (r'.map g) := by
  cases h with
  | ok hrel => exact .ok (imp _ _ hrel)
  | error hcode => exact .error hcode

/-- Ways to end in two scopes: well, with equally many names given out, or not. -/
inductive EndsAlike (s s' : Scopes String Term) (rel : α → β → Prop) :
    Except BindingError α × Context → Except BindingError β × Context → Prop where
  | ok {a b n} : rel a b → EndsAlike s s' rel (.ok a, ⟨s, n⟩) (.ok b, ⟨s', n⟩)
  | error {e e' c c'} : e.code = e'.code → EndsAlike s s' rel (.error e, c) (.error e', c')

/-- Two steps end alike in two scopes. -/
def Matches (s s' : Scopes String Term) (rel : α → β → Prop) (step : BindM α)
    (step' : BindM β) : Prop :=
  ∀ n, EndsAlike s s' rel (step.outcome ⟨s, n⟩) (step'.outcome ⟨s', n⟩)

variable {s s' : Scopes String Term} {rel : α → β → Prop} {rel' : α' → β' → Prop}

theorem matches_pure {a : α} {b : β} (h : rel a b) :
    Matches s s' rel (pure a) (pure b) :=
  fun _ => .ok h

theorem matches_throw {e e' : BindingError} (h : e.code = e'.code) :
    Matches s s' rel (throw e) (throw e') :=
  fun _ => .error h

theorem matches_unsupported {text text' : String} :
    Matches s s' rel (BindM.unsupported text) (BindM.unsupported text') :=
  matches_throw rfl

theorem matches_ofExcept {r : Except BindingError α} {r' : Except BindingError β}
    (h : Agree rel r r') : Matches s s' rel (.ofExcept r) (.ofExcept r') := by
  intro n
  cases h with
  | ok hrel => exact .ok hrel
  | error hcode => exact .error hcode

theorem matches_bind {step : BindM α} {step' : BindM β} {next : α → BindM α'}
    {next' : β → BindM β'} (h : Matches s s' rel step step')
    (hnext : ∀ a b, rel a b → Matches s s' rel' (next a) (next' b)) :
    Matches s s' rel' (step >>= next) (step' >>= next') := by
  intro n
  have first := h n
  rw [BindM.outcome_bind, BindM.outcome_bind]
  generalize step.outcome ⟨s, n⟩ = ended, step'.outcome ⟨s', n⟩ = ended' at first
  cases first with
  | @ok a b m hrel => exact hnext a b hrel m
  | error hcode => exact .error hcode

theorem matches_map {step : BindM α} {step' : BindM β} {f : α → α'} {g : β → β'}
    (h : Matches s s' rel step step') (imp : ∀ a b, rel a b → rel' (f a) (g b)) :
    Matches s s' rel' (f <$> step) (g <$> step') := by
  rw [map_eq_pure_bind, map_eq_pure_bind]
  exact matches_bind h fun a b hrel => matches_pure (imp a b hrel)

/-- Steps that match in wider scopes match where these are opened and closed. -/
theorem matches_within {frame frame' : List (String × Term)} {step : BindM α}
    {step' : BindM β} (h : Matches (s.push frame) (s'.push frame') rel step step') :
    Matches s s' rel (.within frame step) (.within frame' step') := by
  intro n
  have inside := h n
  rw [BindM.outcome_within, BindM.outcome_within]
  generalize step.outcome ⟨s.push frame, n⟩ = ended,
    step'.outcome ⟨s'.push frame', n⟩ = ended' at inside
  cases inside with
  | ok hrel => exact .ok hrel
  | error hcode => exact .error hcode

theorem matches_lookup {name name' : String} (h : s.lookup name = s'.lookup name') :
    Matches s s' Eq (BindM.lookup name) (BindM.lookup name') := by
  intro n
  have get (c : Context) : BindM.outcome get c = (.ok c, c) := rfl
  simp only [BindM.lookup, BindM.outcome_bind, get, h]
  cases s'.lookup name' with
  | none => exact .error rfl
  | some t => exact .ok rfl

theorem matches_mint : Matches s s' Eq BindM.mint BindM.mint :=
  fun _ => .ok rfl

end Matching

/-! ### Arguments -/

/-- The variables are the same as far as somebody looks at them, and the bodies are. -/
structure Lambda.Alike (same : String → String → Prop) (l l' : Lambda) : Prop where
  var : same l.var l'.var
  body : l.body = l'.body

theorem Lambda.Alike.eq {l l' : Lambda} (h : l.Alike Eq l') : l = l' := by
  cases l
  cases l'
  cases h with
  | mk var body => exact congrArg₂ _ var body

theorem Lambda.Alike.eq_option {o o' : Option Lambda} (h : Option.Rel (Lambda.Alike Eq) o o') :
    o = o' := by
  cases h with
  | none => rfl
  | some h => exact congrArg some h.eq

/-- The number that a constant integer is. -/
def Expr.number? : Expr → Option Int
  | .const (.int32 n) _ => some n.toInt
  | .const (.int64 n) _ => some n.toInt
  | _ => none

/-- The number that an argument is. -/
def Argument.number? : Argument → Option Int
  | .value e _ => e.number?
  | .lambda .. => none

/-- The arguments are values, of the same number if they are constant ones, or lambdas whose
parameters are the same as far as somebody looks at them; and they are bound alike, whatever
the parameters stand for. -/
inductive Argument.Alike (s s' : Scopes String Term) (same : String → String → Prop) :
    Argument → Argument → Prop where
  | value {e e' step step'} :
      e.number? = e'.number? → Matches s s' Eq step step' →
      Alike s s' same (.value e step) (.value e' step')
  | lambda {ps ps' body body' step step'} :
      List.Forall₂ same ps ps' →
      (∀ ts : List Term, ts.length = ps.length →
        Matches (s.push (ps.zip ts)) (s'.push (ps'.zip ts)) Eq step step') →
      Alike s s' same (.lambda ps body step) (.lambda ps' body' step')

/-- The calls have alike arguments and the same type arguments. -/
structure Call.Alike (s s' : Scopes String Term) (same : String → String → Prop)
    (call call' : Call Argument) : Prop where
  typeArguments : call.typeArguments = call'.typeArguments
  arguments : List.Forall₂ (Argument.Alike s s' same) call.arguments call'.arguments

/-- Texts of calls do not matter to a kind of sequence, and variables of lambdas no more than
is said. -/
structure Sequence.Blind (σ ρ : Type) [Sequence σ ρ] (same : String → String → Prop) :
    Prop where
  serverVar {v v'} : same v v' → same (serverVar v) (serverVar v')
  item {x : σ} {v v'} : same v v' → Sequence.item x v = Sequence.item x v'
  filter {x : σ} {l l' site site'} : l.Alike same l' →
    Agree Eq (Sequence.filter x l site) (Sequence.filter x l' site')
  project {x : σ} {l l' site site'} : l.Alike same l' →
    Agree Eq (Sequence.project x l site) (Sequence.project x l' site')
  unwind {x : σ} {t site site'} :
    Agree Eq (Sequence.unwind x t site) (Sequence.unwind x t site')
  groupBy {x : σ} {l l' o o' site site'} : l.Alike same l' →
    Option.Rel (Lambda.Alike same) o o' →
    Agree Eq (Sequence.groupBy x l o site) (Sequence.groupBy x l' o' site')
  distinct {x : σ} {site site'} :
    Agree Eq (Sequence.distinct x site) (Sequence.distinct x site')
  sortBy {x : σ} {l l' direction site site'} : l.Alike same l' →
    Agree Eq (Sequence.sortBy x l direction site) (Sequence.sortBy x l' direction site')
  thenBy {x : σ} {l l' direction site site'} : l.Alike same l' →
    Agree Eq (Sequence.thenBy x l direction site) (Sequence.thenBy x l' direction site')
  skip {x : σ} {n site site'} : Agree Eq (Sequence.skip x n site) (Sequence.skip x n site')
  take {x : σ} {n site site'} : Agree Eq (Sequence.take x n site) (Sequence.take x n site')
  ofType {x : σ} {m site site'} :
    Agree Eq (Sequence.ofType x m site) (Sequence.ofType x m site')
  combine {x : σ} {op t site site'} :
    Agree Eq (Sequence.combine x op t site) (Sequence.combine x op t site')
  collect {x : σ} {site site' s s'} :
    Matches s s' Eq (Sequence.collect x site) (Sequence.collect x site')
  any {x : σ} {o o' site site'} : Option.Rel (Lambda.Alike same) o o' →
    Agree Eq (Sequence.any x o site) (Sequence.any x o' site')
  all {x : σ} {l l' site site'} : l.Alike same l' →
    Agree Eq (Sequence.all x l site) (Sequence.all x l' site')
  contains {x : σ} {t site site'} :
    Agree Eq (Sequence.contains x t site) (Sequence.contains x t site')
  aggregate {x : σ} {kind o o' site site' s s'} : Option.Rel (Lambda.Alike same) o o' →
    Matches s s' Eq (Sequence.aggregate x kind o site) (Sequence.aggregate x kind o' site')
  element {x : σ} {pick site site' s s'} :
    Matches s s' Eq (Sequence.element x pick site) (Sequence.element x pick site')

section Arguments

variable {s s' : Scopes String Term} {same : String → String → Prop} {a a' : Argument}

theorem Argument.Alike.bindValue (h : a.Alike s s' same a') :
    Matches s s' Eq a.bindValue a'.bindValue := by
  cases h with
  | value _ hstep => exact hstep
  | lambda => exact matches_unsupported

theorem Argument.Alike.number (h : a.Alike s s' same a') : a.number? = a'.number? := by
  cases h with
  | value hnumber _ => exact hnumber
  | lambda => rfl

theorem Argument.Alike.parameterCount (h : a.Alike s s' same a') :
    a.parameterCount? = a'.parameterCount? := by
  cases h with
  | value => rfl
  | lambda hparameters _ => exact congrArg some hparameters.length_eq

theorem Argument.Alike.bindPair {first second first' second' : String → Term}
    (h : a.Alike s s' same a') (hfirst : ∀ v v', same v v' → first v = first' v')
    (hsecond : ∀ v v', same v v' → second v = second' v') :
    Matches s s' (Lambda.Alike same) (a.bindPair first second)
      (a'.bindPair first' second') := by
  cases h with
  | value => exact matches_unsupported
  | lambda hparameters hstep =>
    cases hparameters with
    | nil => exact matches_unsupported
    | cons _ hrest =>
      cases hrest with
      | nil => exact matches_unsupported
      | @cons q q' _ _ hq hrest =>
        cases hrest with
        | nil =>
          have body := hstep [first q, second q] rfl
          simp only [Argument.bindPair, ← hfirst q q' hq, ← hsecond q q' hq]
          exact matches_bind (matches_within body) fun t t' ht => matches_pure ⟨hq, ht⟩
        | cons => exact matches_unsupported

variable {σ ρ : Type} [Sequence σ ρ] (blind : Sequence.Blind σ ρ same)
include blind

theorem Argument.Alike.bindElement (h : a.Alike s s' same a') (x : σ) :
    Matches s s' (Lambda.Alike same) (a.bindElement x) (a'.bindElement x) := by
  cases h with
  | value => exact matches_unsupported
  | lambda hparameters hstep =>
    cases hparameters with
    | nil => exact matches_unsupported
    | @cons p p' _ _ hp hrest =>
      cases hrest with
      | nil =>
        have hvar := blind.serverVar hp
        have body := hstep [Sequence.item x (QueryPipeline.serverVar p)] rfl
        simp only [Argument.bindElement, ← blind.item hvar]
        exact matches_bind (matches_within body) fun t t' ht => matches_pure ⟨hvar, ht⟩
      | cons => exact matches_unsupported

end Arguments

/-! ### Operators -/

theorem forall₂_getElem? {α β : Type} {rel : α → β → Prop} {as : List α} {bs : List β}
    (h : List.Forall₂ rel as bs) (i : Nat) : Option.Rel rel as[i]? bs[i]? := by
  induction h generalizing i with
  | nil => exact .none
  | cons hrel _ ih =>
    cases i with
    | zero => exact .some hrel
    | succ i => exact ih i

namespace Call

/-- A number of elements is a constant integer that is not negative. -/
theorem count_eq (call : Call Argument) :
    call.count = (do
      let a ← call.argument 0
      match a.number? with
      | some n => count.ofInt call n
      | none => .unsupported a.text) := by
  unfold count
  refine bind_congr ?_
  intro a
  split
  · rfl
  · rfl
  · rename_i no32 no64
    have none : a.number? = none := by
      unfold Argument.number? Expr.number?
      split
      · split
        · exact absurd rfl (no32 _ _ _)
        · exact absurd rfl (no64 _ _ _)
        · rfl
      · rfl
    rw [none]

variable {s s' : Scopes String Term} {same : String → String → Prop} {call call' : Call Argument}
  (alike : call.Alike s s' same call')
include alike

theorem Alike.argument (i : Nat) :
    Matches s s' (Argument.Alike s s' same) (call.argument i) (call'.argument i) := by
  have arguments := forall₂_getElem? alike.arguments i
  unfold Call.argument
  generalize call.arguments[i]? = o, call'.arguments[i]? = o' at arguments
  cases arguments with
  | none => exact matches_unsupported
  | some h => exact matches_pure h

theorem Alike.value : Matches s s' Eq call.value call'.value :=
  matches_bind (alike.argument 0) fun _ _ h => h.bindValue

theorem Alike.count : Matches s s' Eq call.count call'.count := by
  rw [count_eq, count_eq]
  refine matches_bind (alike.argument 0) ?_
  intro a a' h
  simp only [h.number]
  cases a'.number? with
  | none => exact matches_unsupported
  | some n =>
    simp only [count.ofInt]
    split
    · exact matches_unsupported
    · exact matches_pure rfl

theorem Alike.classMap (registry : Registry) :
    Matches s s' Eq (call.classMap registry) (call'.classMap registry) := by
  unfold Call.classMap
  rw [alike.typeArguments]
  split
  · split
    · exact matches_pure rfl
    · exact matches_throw rfl
  · exact matches_unsupported

variable {σ ρ : Type} [Sequence σ ρ] (blind : Sequence.Blind σ ρ same) (x : σ)
include blind

theorem Alike.lambda : Matches s s' (Lambda.Alike same) (call.lambda x) (call'.lambda x) :=
  matches_bind (alike.argument 0) fun _ _ h => h.bindElement blind x

theorem Alike.optionalLambda :
    Matches s s' (Option.Rel (Lambda.Alike same)) (call.optionalLambda x)
      (call'.optionalLambda x) := by
  have arguments := alike.arguments
  unfold Call.optionalLambda
  generalize call.arguments = as, call'.arguments = as' at arguments
  cases arguments with
  | nil => exact matches_pure .none
  | cons h _ => exact matches_map (h.bindElement blind x) fun _ _ => .some

end Call

namespace Operator

variable {s s' : Scopes String Term} {same : String → String → Prop} {call call' : Call Argument}
  (alike : call.Alike s s' same call') {σ ρ : Type} [Sequence σ ρ]
  (blind : Sequence.Blind σ ρ same) (x : σ)
include alike blind

theorem flattenStep_matches : Matches s s' Eq (flattenStep x call) (flattenStep x call') := by
  unfold flattenStep
  refine matches_bind (alike.lambda blind x) ?_
  intro l l' hl
  rw [← blind.item hl.var, ← hl.body]
  refine matches_bind (matches_ofExcept blind.unwind) ?_
  rintro ⟨y, item⟩ _ rfl
  have selector : Matches s s' (Lambda.Alike same)
      (flattenSelector l (Sequence.item x l.var) item call)
      (flattenSelector l' (Sequence.item x l.var) item call') := by
    have arguments := forall₂_getElem? alike.arguments 1
    unfold flattenSelector
    generalize call.arguments[1]? = o, call'.arguments[1]? = o' at arguments
    cases arguments with
    | none => exact matches_pure ⟨hl.var, rfl⟩
    | some h => exact h.bindPair (fun _ _ _ => rfl) fun _ _ _ => rfl
  exact matches_bind selector fun _ _ h => matches_ofExcept (blind.project h)

theorem groupSelectors_matches :
    Matches s s' (fun r r' => Option.Rel (Lambda.Alike same) r.1 r'.1 ∧
        Option.Rel (Argument.Alike s s' same) r.2 r'.2)
      (groupSelectors x call) (groupSelectors x call') := by
  have arguments := alike.arguments
  unfold groupSelectors
  generalize call.arguments = as, call'.arguments = as' at arguments
  cases arguments with
  | nil => exact matches_unsupported
  | cons _ rest =>
    cases rest with
    | nil => exact matches_pure ⟨.none, .none⟩
    | cons second rest =>
      cases rest with
      | nil =>
        simp only [second.parameterCount]
        split
        · exact matches_pure ⟨.none, .some second⟩
        · exact matches_bind (second.bindElement blind x) fun _ _ h =>
            matches_pure ⟨.some h, .none⟩
      | cons third rest =>
        cases rest with
        | nil => exact matches_bind (second.bindElement blind x) fun _ _ h =>
            matches_pure ⟨.some h, .some third⟩
        | cons => exact matches_unsupported

omit alike in
theorem projectGroups_matches {a a' : Argument} (h : a.Alike s s' same a')
    {site site' : String} :
    Matches s s' Eq (projectGroups x a site) (projectGroups x a' site') := by
  unfold projectGroups
  refine matches_bind (h.bindPair ?_ ?_) fun _ _ h => matches_ofExcept (blind.project h)
  · intro v v' hv
    rw [blind.item hv]
  · intro v v' hv
    exact blind.item hv

theorem groupStep_matches : Matches s s' Eq (groupStep x call) (groupStep x call') := by
  unfold groupStep
  refine matches_bind (alike.lambda blind x) ?_
  intro key key' hkey
  refine matches_bind (groupSelectors_matches alike blind x) ?_
  rintro ⟨selector, result⟩ ⟨selector', result'⟩ ⟨hselector, hresult⟩
  refine matches_bind (matches_ofExcept (blind.groupBy hkey hselector)) ?_
  rintro groups _ rfl
  cases hresult with
  | none => exact matches_pure rfl
  | some h => exact projectGroups_matches blind groups h

theorem optionalFilter_matches :
    Matches s s' Eq (optionalFilter x call) (optionalFilter x call') := by
  unfold optionalFilter
  refine matches_bind (alike.optionalLambda blind x) ?_
  intro o o' ho
  cases ho with
  | none => exact matches_pure rfl
  | some h => exact matches_ofExcept (blind.filter h)

theorem combineStep_matches (op : SetOp) :
    Matches s s' Eq (combineStep x op call) (combineStep x op call') := by
  unfold combineStep
  refine matches_bind alike.value ?_
  rintro t _ rfl
  exact matches_ofExcept blind.combine

theorem elementAtStep_matches (pick : Pick) :
    Matches s s' Eq (elementAtStep x pick call) (elementAtStep x pick call') := by
  unfold elementAtStep
  refine matches_bind alike.count ?_
  rintro n _ rfl
  refine matches_bind (matches_ofExcept blind.skip) ?_
  rintro y _ rfl
  exact blind.element

omit alike blind [Sequence σ ρ] in
theorem next_matches {r r' : Except BindingError σ} (h : Agree Eq r r') :
    Matches s s' Eq (next r : BindM (Applied σ ρ)) (next r') :=
  matches_ofExcept (h.map fun _ _ => congrArg Applied.sequence)

omit alike blind [Sequence σ ρ] in
theorem done_matches {r r' : Except BindingError ρ} (h : Agree Eq r r') :
    Matches s s' Eq (done r : BindM (Applied σ ρ)) (done r') :=
  matches_ofExcept (h.map fun _ _ => congrArg Applied.terminal)

omit alike blind [Sequence σ ρ] in
theorem sequence_matches {step step' : BindM σ} (h : Matches s s' Eq step step') :
    Matches s s' Eq (do return .sequence (← step) : BindM (Applied σ ρ))
      (do return .sequence (← step')) :=
  matches_bind h fun _ _ heq => matches_pure (congrArg Applied.sequence heq)

omit alike blind [Sequence σ ρ] in
theorem terminal_matches {step step' : BindM ρ} (h : Matches s s' Eq step step') :
    Matches s s' Eq (do return .terminal (← step) : BindM (Applied σ ρ))
      (do return .terminal (← step')) :=
  matches_bind h fun _ _ heq => matches_pure (congrArg Applied.terminal heq)

/-- **Operators with alike arguments match**, on a sequence that is blind to what the
arguments differ in. -/
theorem apply_matches (registry : Registry) (op : Operator) :
    Matches s s' Eq (op.apply registry x call) (op.apply registry x call') := by
  simp only [apply]
  generalize (if op.keepsSortOpen = true then x else Sequence.closeSort x) = y
  cases op with
  | filter =>
    exact matches_bind (alike.lambda blind y) fun _ _ h => next_matches (blind.filter h)
  | project =>
    exact matches_bind (alike.lambda blind y) fun _ _ h => next_matches (blind.project h)
  | flatten => exact sequence_matches (flattenStep_matches alike blind y)
  | groupBy => exact sequence_matches (groupStep_matches alike blind y)
  | distinct => exact next_matches blind.distinct
  | sortBy direction =>
    exact matches_bind (alike.lambda blind y) fun _ _ h => next_matches (blind.sortBy h)
  | thenBy direction =>
    exact matches_bind (alike.lambda blind y) fun _ _ h => next_matches (blind.thenBy h)
  | skip =>
    refine matches_bind alike.count ?_
    rintro n _ rfl
    exact next_matches blind.skip
  | take =>
    refine matches_bind alike.count ?_
    rintro n _ rfl
    exact next_matches blind.take
  | any =>
    exact matches_bind (alike.optionalLambda blind y) fun _ _ h => done_matches (blind.any h)
  | all => exact matches_bind (alike.lambda blind y) fun _ _ h => done_matches (blind.all h)
  | contains =>
    refine matches_bind alike.value ?_
    rintro t _ rfl
    exact done_matches blind.contains
  | aggregate kind =>
    cases kind with
    | count | longCount =>
      refine matches_bind (optionalFilter_matches alike blind y) ?_
      rintro z _ rfl
      exact terminal_matches (blind.aggregate .none)
    | sum | average | min | max =>
      exact matches_bind (alike.optionalLambda blind y) fun _ _ h =>
        terminal_matches (blind.aggregate h)
  | element pick =>
    refine matches_bind (optionalFilter_matches alike blind y) ?_
    rintro z _ rfl
    exact terminal_matches blind.element
  | elementAt => exact terminal_matches (elementAtStep_matches alike blind y _)
  | elementAtOrDefault => exact terminal_matches (elementAtStep_matches alike blind y _)
  | union | except | intersect => exact sequence_matches (combineStep_matches alike blind y _)
  | ofType =>
    refine matches_bind (alike.classMap registry) ?_
    rintro m _ rfl
    exact next_matches blind.ofType
  | toList | toArray => exact blind.collect
  | asQueryable => exact matches_pure rfl

end Operator

/-! ### Sequences -/

/-- The rows of a pipeline are read without variables. -/
theorem Pipeline.blind : Sequence.Blind Pipeline Pipeline fun _ _ => True where
  serverVar _ := trivial
  item _ := rfl
  filter h := .ok (by rw [h.body])
  project h := .ok (by rw [h.body])
  unwind := by
    intro p t site site'
    simp only [Sequence.unwind, Pipeline.unwind]
    split
    · split
      · split
        · exact .refl
        · exact .error rfl
        · exact agree_refuse
      · exact agree_refuse
    · exact agree_refuse
  groupBy := by
    intro p l l' o o' site site' hl ho
    have element :
        (o.map Lambda.body).getD p.projector = (o'.map Lambda.body).getD p.projector := by
      cases ho with
      | none => rfl
      | some h => exact h.body
    simp only [Sequence.groupBy, Pipeline.groupBy, hl.body, element]
    split
    · exact agree_refuse
    · exact .refl
  distinct := by
    intro p site site'
    simp only [Sequence.distinct, Pipeline.distinct]
    split
    · exact agree_refuse
    · exact .refl
  sortBy h := .ok (by rw [h.body])
  thenBy := by
    intro p l l' direction site site' h
    simp only [Sequence.thenBy, h.body]
    split
    · exact .refl
    · exact agree_refuse
  skip := .refl
  take := .refl
  ofType := by
    intro p m site site'
    simp only [Sequence.ofType, Pipeline.ofType]
    split
    · exact .refl
    · exact agree_refuse
  combine := agree_refuse
  collect := matches_pure rfl
  any := by
    intro p o o' site site' h
    cases h with
    | none => exact .refl
    | some h => exact .ok (by simp only [Option.elim_some, h.body])
  all h := .ok (by rw [h.body])
  contains := .refl
  aggregate := by
    intro p kind o o' site site' s s' h
    refine matches_pure ?_
    cases h with
    | none => rfl
    | some h => simp only [Option.map_some, Option.getD_some, h.body]
  element := matches_pure rfl

theorem Items.sortKey_agree {key : Lambda} {direction : Direction} {site site' : String} :
    Agree Eq (Items.sortKey key direction site) (Items.sortKey key direction site') := by
  unfold Items.sortKey
  split
  · split
    · exact .refl
    · exact agree_refuse
  · split
    · exact .refl
    · exact agree_refuse
  · exact agree_refuse

/-- The items of an array do not look at texts. -/
theorem Items.blind : Sequence.Blind Items Term Eq where
  serverVar := congrArg serverVar
  item := congrArg _
  filter h := h.eq ▸ .refl
  project h := h.eq ▸ .refl
  unwind := agree_refuse
  groupBy _ _ := agree_refuse
  distinct := .refl
  sortBy := by
    intro x l l' direction site site' h
    rw [← h.eq]
    exact Items.sortKey_agree.bind fun _ _ hkey => .ok (by rw [hkey])
  thenBy := by
    intro x l l' direction site site' h
    rw [← h.eq]
    refine Items.sortKey_agree.bind ?_
    rintro key _ rfl
    split
    · exact .refl
    · exact agree_refuse
  skip := .refl
  take := .refl
  ofType := by
    intro x m site site'
    simp only [Sequence.ofType, Items.ofType]
    split
    · exact .refl
    · exact agree_refuse
  combine := by
    intro x op t site site'
    simp only [Sequence.combine, Items.combine]
    split
    · exact .refl
    · exact agree_refuse
  collect := matches_pure rfl
  any h := Lambda.Alike.eq_option h ▸ .refl
  all h := h.eq ▸ .refl
  contains := .refl
  aggregate h := Lambda.Alike.eq_option h ▸ matches_pure rfl
  element := by
    intro x pick site site' s s'
    refine matches_ofExcept ?_
    cases pick with
    | first | firstOrDefault =>
      simp only [Items.element]
      split
      · split
        · exact .refl
        · exact agree_refuse
      · exact .refl
    | last | lastOrDefault => exact .refl
    | single | singleOrDefault => exact agree_refuse

theorem Group.accumulator_matches {g : Group} {kind : AccumulatorKind} {source : Term}
    {codec : Codec} {s s' : Scopes String Term} :
    Matches s s' Eq (g.accumulator kind source codec) (g.accumulator kind source codec) :=
  matches_bind matches_mint fun _ _ h => matches_pure (by rw [h])

/-- The rows of a group do not look at texts. -/
theorem Group.blind : Sequence.Blind Group Term Eq where
  serverVar := congrArg serverVar
  item _ := rfl
  filter h := h.eq ▸ .refl
  project h := h.eq ▸ .refl
  unwind := agree_refuse
  groupBy _ _ := agree_refuse
  distinct := .refl
  sortBy _ := agree_refuse
  thenBy _ := agree_refuse
  skip := agree_refuse
  take := agree_refuse
  ofType := agree_refuse
  combine := agree_refuse
  collect := by
    intro g site site' s s'
    have collected : Matches s s' Eq (g.collect site) (g.collect site') := by
      unfold Group.collect
      split
      · exact matches_unsupported
      · exact accumulator_matches
    exact matches_bind collected fun _ _ h => matches_pure (by rw [h])
  any _ := agree_refuse
  all _ := agree_refuse
  contains := agree_refuse
  aggregate := by
    intro g kind o o' site site' s s' h
    rw [← Lambda.Alike.eq_option h]
    simp only [Sequence.aggregate, Group.aggregate]
    split
    · exact matches_unsupported
    · exact accumulator_matches
  element := by
    intro g pick site site' s s'
    simp only [Sequence.element, Group.pick]
    split
    · exact matches_unsupported
    · split
      · exact accumulator_matches
      · exact matches_unsupported

end QueryPipeline
