import QueryPipeline.Proofs.Binding.Scoping
import QueryPipeline.Proofs.Binding.Throughout

/-!
The names of accumulators. An accumulator gets its name when it is made, but its term is then
put wherever a parameter stands for it. A ledger lists the accumulators that were made, in the
order of their names. A term is entered in it if each accumulator in the term is listed under
its name, so that two accumulators of one name are one accumulator. Binding only ever adds to
the ledger (`BindM.Enters`), and all that it makes is entered: in the end, that is what a
pipeline consists of.
-/

namespace QueryPipeline

open Term (Everywhere Inherited)

/-! ### Ledgers -/

namespace Term

/-- If the term is an accumulator, it is listed under its name. -/
def Listed (ledger : List Accumulator) : Term → Prop
  | .accumulator group kind source output codec =>
    ∃ n, output = accumulatorName n ∧ ledger[n]? = some ⟨group, kind, source, output, codec⟩
  | _ => True

/-- All accumulators in the term are listed under their names. -/
def Entered (ledger : List Accumulator) (t : Term) : Prop := t.Everywhere (Listed ledger)

variable {ledger ledger' : List Accumulator} {t : Term} {a b : Accumulator}

theorem Listed.grow (growth : ledger <+: ledger') (h : t.Listed ledger) : t.Listed ledger' := by
  cases t with
  | accumulator =>
    obtain ⟨n, name, listed⟩ := h
    obtain ⟨more, rfl⟩ := growth
    have hn : n < ledger.length := (List.getElem?_eq_some_iff.mp listed).1
    exact ⟨n, name, by rwa [List.getElem?_append_left hn]⟩
  | _ => trivial

theorem Entered.grow (h : t.Entered ledger) (growth : ledger <+: ledger') :
    t.Entered ledger' :=
  fun u hu => (h u hu).grow growth

theorem listed_of_not_accumulator (h : t.isAccumulator = false) : t.Listed ledger := by
  cases t with
  | accumulator => cases h
  | _ => trivial

/-- **Accumulators of one name are one accumulator.** -/
theorem Listed.unique (ha : a.term.Listed ledger) (hb : b.term.Listed ledger)
    (same : a.output = b.output) : a = b := by
  obtain ⟨m, named, listed⟩ := ha
  obtain ⟨n, named', listed'⟩ := hb
  obtain rfl := accumulatorName_inj.mp (named.symm.trans (same.trans named'))
  exact Option.some.inj (listed.symm.trans listed')

/-- What is entered is inherited by bound terms, but for new accumulators. -/
theorem inherits_listed (registry : Registry) (ledger : List Accumulator) :
    Pipeline.Inherits registry (Listed ledger) where
  other {t} h := by
    cases t with
    | accumulator => cases h
    | _ => trivial
  record _ := trivial
  slice _ := trivial
  child _ _ _ := trivial
  row _ := trivial
  reread _ _ := trivial

/-- A new accumulator of an entered source is listed behind the others. -/
theorem Entered.accumulator (h : a.source.Entered ledger)
    (named : a.output = accumulatorName ledger.length) : a.term.Entered (ledger ++ [a]) := by
  refine everywhere_iff.mpr ⟨⟨ledger.length, named, by simp⟩, ?_⟩
  exact List.forall_mem_singleton.mpr (h.grow (List.prefix_append _ _))

end Term

open Term (Entered Listed inherits_listed)

/-! ### Steps -/

/-- As many names are given out as the ledger lists, and the terms in scope are entered. -/
structure Context.Follows (c : Context) (ledger : List Accumulator) : Prop where
  minted : c.minted = ledger.length
  scopes : c.Every (Entered ledger)

namespace BindM

variable {α β : Type} {ledger : List Accumulator}

/-- In a context that follows the ledger, the step adds to the ledger, leaves a context that
follows it with the same scopes, and gives a value with a property for it. -/
def Enters (step : BindM α) (ledger : List Accumulator)
    (post : List Accumulator → α → Prop) : Prop :=
  ∀ ⦃c a c'⦄, c.Follows ledger → step.Yields c a c' →
    ∃ ledger', ledger <+: ledger' ∧ c'.Follows ledger' ∧ c'.scopes = c.scopes ∧ post ledger' a

variable {post : List Accumulator → α → Prop} {post' : List Accumulator → β → Prop}

namespace Enters

/-- A step that leaves the context as it is. -/
theorem still {step : BindM α} (h : ∀ {c a c'}, step.Yields c a c' → post ledger a ∧ c = c') :
    step.Enters ledger post := by
  intro c a c' follows hstep
  obtain ⟨hpost, rfl⟩ := h hstep
  exact ⟨ledger, List.prefix_rfl, follows, rfl, hpost⟩

theorem pure {a : α} (h : post ledger a) : Enters (Pure.pure a) ledger post := by
  refine still ?_
  intro c a' c' hstep
  obtain ⟨rfl, rfl⟩ := yields_pure.mp hstep
  exact ⟨h, rfl⟩

theorem throw {e : BindingError} : Enters (MonadExcept.throw e) ledger post :=
  still fun hstep => absurd hstep not_yields_throw

theorem unsupported {text : String} : Enters (BindM.unsupported text) ledger post :=
  still fun hstep => absurd hstep not_yields_unsupported

theorem ofExcept {outcome : Except BindingError α} (h : ∀ a, outcome = .ok a → post ledger a) :
    Enters (BindM.ofExcept outcome) ledger post :=
  still fun hstep => (yields_ofExcept.mp hstep).imp_left (h _)

theorem lookup {name : String} :
    Enters (BindM.lookup name) ledger fun ledger t => t.Entered ledger := by
  intro c t c' follows hstep
  obtain ⟨found, rfl⟩ := yields_lookup.mp hstep
  exact ⟨ledger, List.prefix_rfl, follows, rfl, follows.scopes name t found⟩

/-- The next step starts from the ledger that the first one leaves. -/
theorem bind {step : BindM α} {next : α → BindM β} (h : step.Enters ledger post)
    (hnext : ∀ {ledger' a}, ledger <+: ledger' → post ledger' a →
      (next a).Enters ledger' post') : (step >>= next).Enters ledger post' := by
  intro c b c' follows hbind
  obtain ⟨a, c₁, hstep, hbind⟩ := yields_bind.mp hbind
  obtain ⟨ledger₁, growth₁, follows₁, scopes₁, ha⟩ := h follows hstep
  obtain ⟨ledger₂, growth₂, follows₂, scopes₂, hb⟩ := hnext growth₁ ha follows₁ hbind
  exact ⟨ledger₂, growth₁.trans growth₂, follows₂, scopes₂.trans scopes₁, hb⟩

theorem map {step : BindM α} {f : α → β} (h : step.Enters ledger post)
    (hf : ∀ {ledger' a}, ledger <+: ledger' → post ledger' a → post' ledger' (f a)) :
    (f <$> step).Enters ledger post' := by
  rw [map_eq_pure_bind]
  exact h.bind fun growth ha => .pure (hf growth ha)

/-- A step in a scope of entered terms. -/
theorem within {step : BindM α} {frame : List (String × Term)}
    (hframe : ∀ p ∈ frame, p.2.Entered ledger) (h : step.Enters ledger post) :
    (BindM.within frame step).Enters ledger post := by
  intro c a c' follows hwithin
  obtain ⟨c₁, hstep, rfl⟩ := yields_within.mp hwithin
  have inside : Context.Follows { c with scopes := c.scopes.push frame } ledger :=
    ⟨follows.minted, follows.scopes.push hframe⟩
  obtain ⟨ledger', growth, follows', scopes, ha⟩ := h inside hstep
  have restored : c₁.scopes.pop = c.scopes := by
    rw [scopes]
    rfl
  refine ⟨ledger', growth, ⟨follows'.minted, ?_⟩, restored, ha⟩
  intro name t found
  exact (follows.scopes name t (restored ▸ found)).grow growth

end Enters

/-- A step that gives an entered term. -/
abbrev EntersTerm (step : BindM Term) (ledger : List Accumulator) : Prop :=
  step.Enters ledger fun ledger t => t.Entered ledger

/-- A step that gives an entered lambda. -/
abbrev EntersLambda (step : BindM Lambda) (ledger : List Accumulator) : Prop :=
  step.Enters ledger fun ledger l => l.body.Entered ledger

end BindM

/-- An accumulator gets the next name, under which it is listed. -/
theorem Group.enters_accumulator {g : Group} {kind : AccumulatorKind} {source : Term}
    {codec : Codec} {ledger : List Accumulator} (h : source.Entered ledger) :
    (g.accumulator kind source codec).EntersTerm ledger := by
  intro c t c' follows hstep
  simp only [Group.accumulator, BindM.yields_bind, BindM.yields_mint, BindM.yields_pure] at hstep
  obtain ⟨name, c₁, ⟨rfl, rfl⟩, rfl, rfl⟩ := hstep
  let a : Accumulator := ⟨g.stage, kind, source, accumulatorName c.minted, codec⟩
  have growth : ledger <+: ledger ++ [a] := List.prefix_append _ _
  refine ⟨ledger ++ [a], growth, ⟨?_, ?_⟩, rfl, ?_⟩
  · simp [follows.minted]
  · exact follows.scopes.mono fun t ht => ht.grow growth
  · exact Entered.accumulator (a := a) h (by simp [a, follows.minted])

/-! ### Arguments -/

namespace Argument

variable {σ ρ : Type} [Sequence σ ρ] {a : Argument} {ledger : List Accumulator}

theorem enters_bindValue (h : a.step.EntersTerm ledger) : a.bindValue.EntersTerm ledger := by
  cases a with
  | lambda => exact .unsupported
  | value e bind => exact h

theorem enters_bindElement {s : σ} (h : a.step.EntersTerm ledger)
    (item : ∀ var, (Sequence.item s var).Entered ledger) :
    (a.bindElement s).EntersLambda ledger := by
  unfold bindElement
  split
  · refine BindM.Enters.bind (.within ?_ h) fun _ hbody => .pure hbody
    exact List.forall_mem_singleton.mpr (item _)
  · exact .unsupported

theorem enters_bindPair {first second : String → Term} (h : a.step.EntersTerm ledger)
    (hfirst : ∀ var, (first var).Entered ledger) (hsecond : ∀ var, (second var).Entered ledger) :
    (a.bindPair first second).EntersLambda ledger := by
  unfold bindPair
  split
  · refine BindM.Enters.bind (.within ?_ h) fun _ hbody => .pure hbody
    simp [hfirst, hsecond]
  · exact .unsupported

end Argument

namespace Call

/-- The arguments are bound to entered terms. -/
def Enters (call : Call Argument) : Prop :=
  ∀ a ∈ call.arguments, ∀ ledger, a.step.EntersTerm ledger

variable {σ ρ : Type} [Sequence σ ρ] {call : Call Argument} {ledger : List Accumulator} {s : σ}

theorem enters_argument {i : Nat} :
    (call.argument i).Enters ledger fun _ a => a ∈ call.arguments :=
  .still argument_yields

theorem enters_count : call.count.Enters ledger fun _ _ => True :=
  .still fun h => ⟨trivial, count_context h⟩

theorem enters_classMap {registry : Registry} :
    (call.classMap registry).Enters ledger fun _ m => ∃ name, registry.class? name = some m :=
  .still classMap_yields

variable (h : call.Enters)
include h

theorem enters_lambda (item : ∀ var, (Sequence.item s var).Entered ledger) :
    (call.lambda s).EntersLambda ledger := by
  refine enters_argument.bind fun growth ha => ?_
  exact Argument.enters_bindElement (h _ ha _) fun var => (item var).grow growth

theorem enters_value : call.value.EntersTerm ledger :=
  enters_argument.bind fun _ ha => Argument.enters_bindValue (h _ ha _)

theorem enters_optionalLambda (item : ∀ var, (Sequence.item s var).Entered ledger) :
    (call.optionalLambda s).Enters ledger fun ledger o => ∀ l ∈ o, l.body.Entered ledger := by
  unfold optionalLambda
  split
  · exact .pure nofun
  · rename_i a rest arguments
    refine BindM.Enters.map (Argument.enters_bindElement (h a ?_ _) item) ?_
    · simp [arguments]
    · rintro ledger' l - hl l' ⟨⟩
      exact hl

end Call

/-! ### Operators -/

/-- A property of sequences, at a ledger, that a larger ledger keeps, as does every operation
if the terms that it is given are entered. -/
structure EntersInvariant (registry : Registry) (σ ρ : Type) [Sequence σ ρ]
    (keeps : List Accumulator → σ → Prop) (result : List Accumulator → ρ → Prop) : Prop where
  stays (ledger) : PureInvariant registry σ ρ (Entered ledger) (keeps ledger)
    (fun _ => Entered ledger) (result ledger)
  grow {s ledger ledger'} : keeps ledger s → ledger <+: ledger' → keeps ledger' s
  collect {s site ledger} : keeps ledger s → (Sequence.collect s site).Enters ledger
    fun ledger a => a.Holds (keeps ledger) (result ledger)
  aggregate {s kind selector site ledger} : keeps ledger s →
    (∀ l ∈ selector, l.body.Entered ledger) →
      (Sequence.aggregate s kind selector site).Enters ledger result
  element {s pick site ledger} : keeps ledger s →
    (Sequence.element s pick site).Enters ledger result

namespace Operator

variable {registry : Registry} {σ ρ : Type} {keeps : List Accumulator → σ → Prop}
  {result : List Accumulator → ρ → Prop} {ledger : List Accumulator}

/-- A step that gives a sequence, or ends one, with the property. -/
abbrev EntersApplied (step : BindM (Applied σ ρ)) (ledger : List Accumulator)
    (keeps : List Accumulator → σ → Prop) (result : List Accumulator → ρ → Prop) : Prop :=
  step.Enters ledger fun ledger a => a.Holds (keeps ledger) (result ledger)

theorem enters_next {outcome : Except BindingError σ}
    (h : ∀ s, outcome = .ok s → keeps ledger s) :
    EntersApplied (next outcome) ledger keeps result := by
  refine .still ?_
  intro c a c' hstep
  obtain ⟨s, hs, rfl, rfl⟩ := yields_next.mp hstep
  exact ⟨h s hs, rfl⟩

theorem enters_done {outcome : Except BindingError ρ}
    (h : ∀ r, outcome = .ok r → result ledger r) :
    EntersApplied (done outcome) ledger keeps result := by
  refine .still ?_
  intro c a c' hstep
  obtain ⟨r, hr, rfl, rfl⟩ := yields_done.mp hstep
  exact ⟨h r hr, rfl⟩

variable [Sequence σ ρ] (inv : EntersInvariant registry σ ρ keeps result)
  {call : Call Argument} (arguments : call.Enters) {s : σ} (hs : keeps ledger s)
include inv arguments hs

theorem enters_lambda : (call.lambda s).EntersLambda ledger :=
  Call.enters_lambda arguments fun _ => (inv.stays ledger).inner_item hs

theorem enters_optionalLambda :
    (call.optionalLambda s).Enters ledger fun ledger o => ∀ l ∈ o, l.body.Entered ledger :=
  Call.enters_optionalLambda arguments fun _ => (inv.stays ledger).inner_item hs

theorem enters_optionalFilter : (optionalFilter s call).Enters ledger keeps := by
  refine (enters_optionalLambda inv arguments hs).bind ?_
  intro ledger₁ predicate growth hpredicate
  have hs := inv.grow hs growth
  cases predicate with
  | none => exact .pure hs
  | some l => exact .ofExcept fun s' h => (inv.stays ledger₁).filter hs (hpredicate l rfl) h

theorem enters_combineStep {op : SetOp} : (combineStep s op call).Enters ledger keeps := by
  refine (Call.enters_value arguments).bind ?_
  intro ledger₁ other growth hother
  exact .ofExcept fun s' h => (inv.stays ledger₁).combine (inv.grow hs growth) hother h

omit arguments in
theorem enters_elementAtStep {pick : Pick} :
    (elementAtStep s pick call).Enters ledger result := by
  refine Call.enters_count.bind ?_
  intro ledger₁ n growth _
  have skipped : (BindM.ofExcept (Sequence.skip s n call.text)).Enters ledger₁ keeps :=
    .ofExcept fun s' h => (inv.stays ledger₁).skip (inv.grow hs growth) h
  exact skipped.bind fun _ hs' => inv.element hs'

omit inv hs in
theorem enters_flattenSelector {collection : Lambda} {outer item : Term}
    (houter : outer.Entered ledger) (hitem : item.Entered ledger) :
    (flattenSelector collection outer item call).EntersLambda ledger := by
  unfold flattenSelector
  split
  · rename_i a hget
    exact Argument.enters_bindPair (arguments a (List.mem_of_getElem? hget) ledger)
      (fun _ => houter) fun _ => hitem
  · exact .pure hitem

theorem enters_flattenStep : (flattenStep s call).Enters ledger keeps := by
  refine (enters_lambda inv arguments hs).bind ?_
  intro ledger₁ collection growth hcollection
  have hs := inv.grow hs growth
  have unwound : (BindM.ofExcept (Sequence.unwind s collection.body call.text)).Enters ledger₁
      fun ledger u => keeps ledger u.1 ∧ u.2.Entered ledger := by
    refine .ofExcept fun u hunwind => ?_
    obtain ⟨hs', hitem, -⟩ := (inv.stays ledger₁).unwind hs hcollection hunwind
    exact ⟨hs', hitem⟩
  refine unwound.bind ?_
  rintro ledger₂ ⟨s', item⟩ growth₂ ⟨hs', hitem⟩
  have outer : (Sequence.item s collection.var).Entered ledger₁ :=
    (inv.stays ledger₁).inner_item hs
  refine (enters_flattenSelector arguments (outer.grow growth₂) hitem).bind ?_
  intro ledger₃ selector growth₃ hselector
  exact .ofExcept fun s'' h => (inv.stays ledger₃).project (inv.grow hs' growth₃) hselector h

/-- The selectors of a grouping are bound, or are arguments yet to be bound. -/
theorem enters_groupSelectors : (groupSelectors s call).Enters ledger fun ledger selectors =>
    (∀ l ∈ selectors.1, l.body.Entered ledger) ∧ ∀ a ∈ selectors.2, a ∈ call.arguments := by
  have bound {second : Argument} {rest : Option Argument} (member : second ∈ call.arguments)
      (hrest : ∀ a ∈ rest, a ∈ call.arguments) :
      BindM.Enters (do return (some (← second.bindElement s), rest)) ledger
        fun ledger (selectors : Option Lambda × Option Argument) =>
          (∀ l ∈ selectors.1, l.body.Entered ledger) ∧
            ∀ a ∈ selectors.2, a ∈ call.arguments := by
    have element := Argument.enters_bindElement (s := s) (arguments second member ledger)
      fun _ => (inv.stays ledger).inner_item hs
    refine element.bind ?_
    intro ledger₁ l _ hl
    refine .pure ⟨?_, hrest⟩
    rintro _ ⟨⟩
    exact hl
  unfold groupSelectors
  split
  · exact .pure ⟨nofun, nofun⟩
  · rename_i second harguments
    have member : second ∈ call.arguments := by simp [harguments]
    split
    · refine .pure ⟨nofun, ?_⟩
      rintro _ ⟨⟩
      exact member
    · exact bound member nofun
  · rename_i second third harguments
    refine bound (by simp [harguments]) ?_
    rintro _ ⟨⟩
    simp [harguments]
  · exact .unsupported

theorem enters_groupStep : (groupStep s call).Enters ledger keeps := by
  refine (enters_lambda inv arguments hs).bind ?_
  intro ledger₁ key growth hkey
  have hs := inv.grow hs growth
  refine (enters_groupSelectors inv arguments hs).bind ?_
  rintro ledger₂ ⟨element, rest⟩ growth₂ ⟨helement, hrest⟩
  have hs := inv.grow hs growth₂
  have grouped : (BindM.ofExcept (Sequence.groupBy s key element call.text)).Enters ledger₂
      keeps :=
    .ofExcept fun s' h => ((inv.stays ledger₂).groupBy hs (hkey.grow growth₂) helement h).1
  refine grouped.bind ?_
  intro ledger₃ groups _ hgroups
  cases rest with
  | none => exact .pure hgroups
  | some a =>
    have item (var : String) : (Sequence.item groups var).Entered ledger₃ :=
      (inv.stays ledger₃).inner_item hgroups
    have selected := Argument.enters_bindPair (arguments a (hrest a rfl) ledger₃)
      (fun var => (item var).groupKey) item
    refine selected.bind ?_
    intro ledger₄ selector growth₄ hselector
    exact .ofExcept fun s' h =>
      (inv.stays ledger₄).project (inv.grow hgroups growth₄) hselector h

/-- **Applying an operator** adds to the ledger, and what it gives is entered. -/
theorem enters_apply (op : Operator) :
    EntersApplied (op.apply registry s call) ledger keeps result := by
  have closed : keeps ledger (if op.keepsSortOpen then s else Sequence.closeSort s) := by
    split
    · exact hs
    · exact (inv.stays ledger).closeSort hs
  unfold apply
  generalize (if op.keepsSortOpen then s else Sequence.closeSort s) = s at closed
  have stays {ledger' : List Accumulator} (growth : ledger <+: ledger') :
      keeps ledger' s := inv.grow closed growth
  have sequence {step : BindM σ} (h : step.Enters ledger keeps) :
      EntersApplied (do return .sequence (← step)) ledger keeps result :=
    h.bind fun _ hs' => .pure hs'
  have terminal {step : BindM ρ} (h : step.Enters ledger result) :
      EntersApplied (do return .terminal (← step)) ledger keeps result :=
    h.bind fun _ hr => .pure hr
  have lambda := enters_lambda inv arguments closed
  have optional := enters_optionalLambda inv arguments closed
  have filtered := enters_optionalFilter inv arguments closed
  cases op with
  | filter =>
    exact lambda.bind fun growth hl =>
      enters_next fun s' h => (inv.stays _).filter (stays growth) hl h
  | project =>
    exact lambda.bind fun growth hl =>
      enters_next fun s' h => (inv.stays _).project (stays growth) hl h
  | sortBy =>
    exact lambda.bind fun growth hl =>
      enters_next fun s' h => (inv.stays _).sortBy (stays growth) hl h
  | thenBy =>
    exact lambda.bind fun growth hl =>
      enters_next fun s' h => (inv.stays _).thenBy (stays growth) hl h
  | all =>
    exact lambda.bind fun growth hl =>
      enters_done fun r h => (inv.stays _).all (stays growth) hl h
  | any =>
    exact optional.bind fun growth hl =>
      enters_done fun r h => (inv.stays _).any (stays growth) hl h
  | contains =>
    exact (Call.enters_value arguments).bind fun growth ht =>
      enters_done fun r h => (inv.stays _).contains (stays growth) ht h
  | skip =>
    exact Call.enters_count.bind fun growth _ =>
      enters_next fun s' h => (inv.stays _).skip (stays growth) h
  | take =>
    exact Call.enters_count.bind fun growth _ =>
      enters_next fun s' h => (inv.stays _).take (stays growth) h
  | ofType =>
    exact Call.enters_classMap.bind fun growth ⟨name, named⟩ =>
      enters_next fun s' h => (inv.stays _).ofType (stays growth) named h
  | distinct => exact enters_next fun s' h => (inv.stays _).distinct closed h
  | flatten => exact sequence (enters_flattenStep inv arguments closed)
  | groupBy => exact sequence (enters_groupStep inv arguments closed)
  | union | except | intersect => exact sequence (enters_combineStep inv arguments closed)
  | elementAt | elementAtOrDefault => exact terminal (enters_elementAtStep inv closed)
  | element pick =>
    exact filtered.bind fun _ hs' => (inv.element hs').bind fun _ hr => .pure hr
  | aggregate kind =>
    cases kind with
    | count | longCount =>
      exact filtered.bind fun _ hs' => (inv.aggregate hs' (by simp)).bind fun _ hr => .pure hr
    | sum | average | min | max =>
      exact optional.bind fun growth hl =>
        (inv.aggregate (stays growth) hl).bind fun _ hr => .pure hr
  | toList | toArray => exact inv.collect closed
  | asQueryable => exact .pure closed

end Operator

/-! ### Kinds of sequences -/

/-- Pipelines all of whose terms are entered. -/
theorem Pipeline.enters (registry : Registry) : EntersInvariant registry Pipeline Pipeline
    (fun ledger p => p.Throughout (Listed ledger))
    (fun ledger p => p.Throughout (Listed ledger)) where
  stays ledger := (inherits_listed registry ledger).invariant.toPureInvariant
  grow h growth := h.mono fun _ ht => Entered.grow ht growth
  collect hp := .pure hp
  aggregate hp hl := .still fun h =>
    ⟨((inherits_listed registry _).invariant.aggregate hp hl h).1, (BindM.yields_pure.mp h).2⟩
  element hp := .still fun h =>
    ⟨((inherits_listed registry _).invariant.element hp h).1, (BindM.yields_pure.mp h).2⟩

/-- Items of an entered array. -/
theorem Items.enters (registry : Registry) : EntersInvariant registry Items Term
    (fun ledger s => s.array.Entered ledger) (fun ledger t => t.Entered ledger) where
  stays ledger := (Items.inherits (inherits_listed registry ledger).toInherited).toPureInvariant
  grow hs growth := hs.grow growth
  collect hs := .pure hs
  aggregate hs hl := .still fun h =>
    ⟨((Items.inherits (inherits_listed registry _).toInherited).aggregate hs hl h).1,
      (BindM.yields_pure.mp h).2⟩
  element hs := .still fun h =>
    ⟨((Items.inherits (inherits_listed registry _).toInherited).element hs h).1,
      (BindM.yields_ofExcept.mp h).2⟩

theorem Group.Accumulates.enters {g : Group} {ledger : List Accumulator} {step : BindM Term}
    (h : g.Accumulates (Listed ledger) step) : step.EntersTerm ledger := by
  rcases h with ⟨site, rfl⟩ | ⟨kind, source, codec, hsource, rfl⟩
  · exact .unsupported
  · exact Group.enters_accumulator hsource

/-- Rows of a group whose parts are entered. -/
theorem Group.enters (registry : Registry) : EntersInvariant registry Group Term
    (fun ledger g => g.term.Entered ledger) (fun ledger t => t.Entered ledger) where
  stays ledger := Group.passesOn (inherits_listed registry ledger).toInherited
  grow hg growth := hg.grow growth
  collect hg := (accumulates_collect hg).enters.bind fun _ ht => .pure ht
  aggregate hg hl :=
    (accumulates_aggregate (inherits_listed registry _).toInherited hg hl).enters
  element hg := (accumulates_pick hg).enters

/-! ### Expressions and queries -/

variable {registry : Registry} {ledger : List Accumulator}

theorem Term.enters_applyOperator {source : Term} {op : Operator} {call : Call Argument}
    {text : String} (arguments : call.Enters) (h : source.Entered ledger) :
    (source.applyOperator registry op call text).EntersTerm ledger := by
  unfold applyOperator
  split
  · rename_i stage key element predicate distinct
    have applied := op.enters_apply (Group.enters registry) arguments
      (s := ⟨stage, key, element, predicate, distinct⟩) h
    refine applied.bind ?_
    intro ledger₁ a _ ha
    cases a with
    | sequence => exact .pure ha
    | terminal => exact .pure ha
  · split
    · have items : (BindM.ofExcept (Items.ofTerm source text)).Enters ledger
          fun ledger s => s.array.Entered ledger :=
        .ofExcept fun s hs => Items.everywhere_ofTerm h hs
      refine items.bind ?_
      intro ledger₁ s _ hs
      refine (op.enters_apply (Items.enters registry) arguments hs).bind ?_
      intro ledger₂ a _ ha
      cases a with
      | sequence =>
        exact .pure (Items.everywhere_windowed (inherits_listed registry _).toInherited ha)
      | terminal => exact .pure ha
    · exact .unsupported

namespace Expr

mutual
/-- **Binding an expression** adds to the ledger, and the term is entered. -/
theorem enters_bind : ∀ (e : Expr) (ledger : List Accumulator),
    (e.bind registry).EntersTerm ledger
  | .const value type, ledger => by
    unfold bind
    split
    · exact .pure (inherits_listed registry ledger).const
    · exact .throw
  | .param name, ledger => by
    unfold bind
    exact .lookup
  | .member target name, ledger => by
    unfold bind
    refine (enters_bind target ledger).bind ?_
    intro ledger₁ bound _ hbound
    split
    · rename_i found
      exact .pure ((inherits_listed registry _).member hbound found)
    · exact .throw
  | .unary op operand, ledger => by
    unfold bind
    refine (enters_bind operand ledger).bind ?_
    intro ledger₁ t _ ht
    exact .pure ((inherits_listed registry _).foldUnary ht)
  | .binary op left right, ledger => by
    unfold bind
    refine (enters_bind left ledger).bind ?_
    intro ledger₁ l _ hl
    refine (enters_bind right ledger₁).bind ?_
    intro ledger₂ r growth hr
    exact .pure ((inherits_listed registry _).foldBinary (hl.grow growth) hr)
  | .cond test ifTrue ifFalse, ledger => by
    unfold bind
    refine (enters_bind test ledger).bind ?_
    intro ledger₁ b _ hb
    refine (enters_bind ifTrue ledger₁).bind ?_
    intro ledger₂ u growth hu
    refine (enters_bind ifFalse ledger₂).bind ?_
    intro ledger₃ v growth' hv
    have hb := hb.grow (growth.trans growth')
    exact .pure ((inherits_listed registry _).foldCond hb (hu.grow growth') hv)
  | .new members, ledger => by
    unfold bind
    refine (enters_bindMembers _ members .empty ledger nofun).bind ?_
    intro ledger₁ bound _ hbound
    exact .pure ((inherits_listed registry _).document bound.nodup_keys hbound)
  | .index array position, ledger => by
    unfold bind
    refine (enters_bind array ledger).bind ?_
    intro ledger₁ bound _ hbound
    split
    · refine (enters_bind position ledger₁).bind ?_
      intro ledger₂ n growth hn
      refine .pure ((inherits_listed registry _).built rfl ?_)
      exact List.forall_mem_cons.mpr ⟨hbound.grow growth, List.forall_mem_singleton.mpr hn⟩
    · exact .unsupported
  | .call source c, ledger => by
    unfold bind
    have operator : (BindM.ofExcept (Operator.ofCall c)).Enters ledger fun _ _ => True :=
      .ofExcept fun _ _ => trivial
    refine operator.bind ?_
    intro ledger₁ op _ _
    refine (enters_bind source ledger₁).bind ?_
    intro ledger₂ bound _ hbound
    exact Term.enters_applyOperator (enters_bindArguments c) hbound
  | .lambda parameters body, ledger => by
    unfold bind
    exact .unsupported

theorem enters_bindMembers (text : String) : ∀ (members : List (String × Expr))
    (bound : UniqueMap String Term) (ledger : List Accumulator),
    (∀ u ∈ bound.entries.map Prod.snd, u.Entered ledger) →
      (bindMembers registry text bound members).Enters ledger
        fun ledger bound => ∀ u ∈ bound.entries.map Prod.snd, u.Entered ledger
  | [], bound, ledger, hbound => by
    unfold bindMembers
    exact .pure hbound
  | (name, e) :: rest, bound, ledger, hbound => by
    unfold bindMembers
    refine (enters_bind e ledger).bind ?_
    intro ledger₁ t growth ht
    split
    · rename_i next hinsert
      refine enters_bindMembers text rest next ledger₁ ?_
      rw [UniqueMap.entries_insert hinsert, List.map_append]
      intro u hu
      rcases List.mem_append.mp hu with hu | hu
      · exact (hbound u hu).grow growth
      · exact List.mem_singleton.mp hu ▸ ht
    · exact .unsupported

theorem enters_bindArguments : ∀ call : Call Expr, (bindArguments registry call).Enters
  | ⟨_, _, _, arguments⟩, a, ha, ledger => by
    unfold bindArguments at ha
    exact enters_bindEach arguments a ha ledger

theorem enters_bindEach : ∀ (es : List Expr), ∀ a ∈ bindEach registry es,
    ∀ ledger, a.step.EntersTerm ledger
  | [], a, ha, ledger => by
    unfold bindEach at ha
    cases ha
  | e :: rest, a, ha, ledger => by
    cases e with
    | lambda parameters body =>
      simp only [bindEach] at ha
      rcases List.mem_cons.mp ha with rfl | ha
      · exact enters_bind body ledger
      · exact enters_bindEach rest a ha ledger
    | _ =>
      simp only [bindEach] at ha
      rcases List.mem_cons.mp ha with rfl | ha
      · exact enters_bind _ ledger
      · exact enters_bindEach rest a ha ledger
end

end Expr

namespace Query

theorem enters_bindClauses (clauses : List (Call Expr)) {p : Pipeline}
    (hp : p.Throughout (Listed ledger)) : (bindClauses registry p clauses).Enters ledger
      fun ledger p => p.Throughout (Listed ledger) := by
  induction clauses generalizing p ledger with
  | nil => exact .pure hp
  | cons clause rest ih =>
    have operator : (BindM.ofExcept (Operator.ofCall clause)).Enters ledger
        fun ledger _ => p.Throughout (Listed ledger) :=
      .ofExcept fun _ _ => hp
    refine operator.bind ?_
    intro ledger₁ op _ hp
    have arguments : (Expr.bindArguments registry clause).Enters :=
      Expr.enters_bindArguments clause
    refine (op.enters_apply (Pipeline.enters registry) arguments hp).bind ?_
    intro ledger₂ applied _ happlied
    cases applied with
    | sequence p' => exact ih happlied
    | terminal p' =>
      cases rest with
      | nil => exact .pure happlied
      | cons next rest => exact .unsupported

/-- **The accumulators of a bound pipeline are listed** in a ledger with an entry for each name
that was given out, so what has one name is one accumulator. -/
theorem bind_entered {q : Query} {p : Pipeline} {c : Context}
    (h : (q.bind registry).Yields {} p c) :
    ∃ ledger, c.minted = ledger.length ∧ p.Throughout (Listed ledger) := by
  have enters : (q.bind registry).Enters [] fun ledger p => p.Throughout (Listed ledger) := by
    unfold bind
    split
    · exact enters_bindClauses q.clauses ((inherits_listed registry []).ofRoot _)
    · exact .throw
  have start : Context.Follows {} [] := ⟨rfl, nofun⟩
  obtain ⟨ledger, -, follows, -, hp⟩ := enters start h
  exact ⟨ledger, follows.minted, hp⟩

end Query

end QueryPipeline
