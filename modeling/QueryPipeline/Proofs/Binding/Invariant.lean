import QueryPipeline.Binding.Apply
import QueryPipeline.Proofs.Binding.Outcome
import QueryPipeline.Proofs.Success

/-!
Invariants of sequences. To know something of all terms that binding builds, it is enough
to know it of what each kind of sequence does by itself: a `SequenceInvariant` says what
holds of a sequence, of the terms that may stand in a lambda over it, of the terms around
it, and of the result it ends with. `Operator.apply_gives` carries it over to every
operator, if all its arguments give what the invariant asks for, and `Operator.apply_keeps` to
arguments that keep a property of all terms in scope.
-/

namespace QueryPipeline

/-! ### Scopes -/

/-- A term that a parameter stands for was put in scope by a frame. -/
theorem Scopes.lookup_push {κ α : Type} [DecidableEq κ] {s : Scopes κ α}
    {frame : List (κ × α)} {name : κ} {a : α}
    (h : (s.push frame).lookup name = some a) :
    (name, a) ∈ frame ∨ s.lookup name = some a := by
  simp only [lookup, push, List.findSome?_cons] at h
  split at h
  · rename_i found hfound
    cases h
    obtain ⟨⟨name', a⟩, hfind, rfl⟩ := Option.map_eq_some_iff.mp hfound
    obtain rfl : name' = name := by simpa using List.find?_some hfind
    exact .inl (List.mem_reverse.mp (List.mem_of_find?_eq_some hfind))
  · exact .inr h

namespace Context

/-- Every term in scope has a property. -/
def Every (holds : Term → Prop) (c : Context) : Prop :=
  ∀ name t, c.scopes.lookup name = some t → holds t

variable {holds : Term → Prop} {c c' : Context}

theorem Every.of_scopes_eq (h : c.Every holds) (same : c'.scopes = c.scopes) :
    c'.Every holds := by
  intro name t hlookup
  exact h name t (same ▸ hlookup)

theorem Every.push (h : c.Every holds) {frame : List (String × Term)}
    (hframe : ∀ p ∈ frame, holds p.2) :
    ({ c with scopes := c.scopes.push frame } : Context).Every holds := by
  intro name t hlookup
  rcases Scopes.lookup_push hlookup with hmem | hlookup
  · exact hframe _ hmem
  · exact h name t hlookup

theorem Every.mono {holds' : Term → Prop} (h : c.Every holds)
    (sub : ∀ t, holds t → holds' t) : c.Every holds' :=
  fun name t hlookup => sub t (h name t hlookup)

end Context

/-! ### Arguments -/

/-- A step gives a term with a property whenever all terms in scope have it, and leaves
the scopes as they were. -/
def BindM.Keeps (step : BindM Term) (holds : Term → Prop) : Prop :=
  ∀ ⦃c c' t⦄, c.Every holds → step.Yields c t c' → holds t ∧ c'.scopes = c.scopes

namespace Argument

/-- The step that binds the argument or its body. -/
def step : Argument → BindM Term
  | .lambda _ _ bindBody => bindBody
  | .value _ bind => bind

variable {σ ρ : Type} [Sequence σ ρ] {holds : Term → Prop} {a : Argument} {c c' : Context}

theorem keeps_bindValue (keeps : a.step.Keeps holds) (hc : c.Every holds) {t : Term}
    (h : a.bindValue.Yields c t c') : holds t ∧ c'.scopes = c.scopes := by
  cases a with
  | lambda parameters body bindBody => simp [bindValue] at h
  | value e bind => exact keeps hc h

/-- The body of a lambda is bound with its parameters in scope. -/
theorem keeps_within {step : BindM Term} (keeps : step.Keeps holds)
    (hc : c.Every holds) {frame : List (String × Term)} (hframe : ∀ p ∈ frame, holds p.2)
    {t : Term} (h : (BindM.within frame step).Yields c t c') :
    holds t ∧ c'.scopes = c.scopes := by
  rw [BindM.yields_within] at h
  obtain ⟨c₁, hstep, rfl⟩ := h
  obtain ⟨ht, hscopes⟩ := keeps (hc.push hframe) hstep
  refine ⟨ht, ?_⟩
  show c₁.scopes.pop = c.scopes
  rw [hscopes]
  rfl

/-- The variable of a lambda over the elements is the one that reads its parameter. -/
theorem keeps_bindElement {s : σ} (keeps : a.step.Keeps holds) (hc : c.Every holds)
    (item : ∀ var, holds (Sequence.item s var)) {l : Lambda}
    (h : (a.bindElement s).Yields c l c') :
    (∃ parameter, l.var = serverVar parameter) ∧ holds l.body ∧ c'.scopes = c.scopes := by
  unfold bindElement at h
  split at h
  · rename_i parameter body bindBody
    simp only [BindM.yields_bind, BindM.yields_pure] at h
    obtain ⟨t, c₁, hbody, rfl, rfl⟩ := h
    exact ⟨⟨parameter, rfl⟩, keeps_within keeps hc (by simpa using item _) hbody⟩
  · exact absurd h BindM.not_yields_unsupported

theorem keeps_bindPair {first second : String → Term} (keeps : a.step.Keeps holds)
    (hc : c.Every holds) (hfirst : ∀ var, holds (first var))
    (hsecond : ∀ var, holds (second var)) {l : Lambda}
    (h : (a.bindPair first second).Yields c l c') :
    holds l.body ∧ c'.scopes = c.scopes := by
  unfold bindPair at h
  split at h
  · rename_i x y body bindBody
    simp only [BindM.yields_bind, BindM.yields_pure] at h
    obtain ⟨t, c₁, hbody, rfl, rfl⟩ := h
    refine keeps_within keeps hc ?_ hbody
    intro p hp
    simp only [List.mem_cons, List.not_mem_nil, or_false] at hp
    rcases hp with rfl | rfl
    · exact hfirst y
    · exact hsecond y
  · exact absurd h BindM.not_yields_unsupported

end Argument

/-- What an argument gives where something is known of the scopes that it is bound in: as a
value, as a lambda over the elements of a sequence, and as a lambda over two terms. -/
structure Argument.Gives {σ ρ : Type} [Sequence σ ρ] (known : Scopes String Term → Prop)
    (outer : Term → Prop) (keeps : σ → Prop) (inner : σ → Term → Prop)
    (lambda : σ → Lambda → Prop) (a : Argument) : Prop where
  value {c t c'} : known c.scopes → a.bindValue.Yields c t c' →
    outer t ∧ c'.scopes = c.scopes
  element {s c l c'} : keeps s → known c.scopes → (a.bindElement s).Yields c l c' →
    lambda s l ∧ c'.scopes = c.scopes
  pair {s first second c l c'} : keeps s → known c.scopes → (∀ var, inner s (first var)) →
    (∀ var, inner s (second var)) → (a.bindPair first second).Yields c l c' →
    inner s l.body ∧ c'.scopes = c.scopes

namespace Call

variable {σ ρ : Type} [Sequence σ ρ] {call : Call Argument} {c c' : Context}

theorem argument_yields {i : Nat} {a : Argument} (h : (call.argument i).Yields c a c') :
    a ∈ call.arguments ∧ c = c' := by
  unfold argument at h
  split at h
  · rename_i a' hget
    obtain ⟨rfl, rfl⟩ := BindM.yields_pure.mp h
    exact ⟨List.mem_of_getElem? hget, rfl⟩
  · exact absurd h BindM.not_yields_unsupported

/-- A number of elements is read without binding anything. -/
theorem count_context {n : Nat} (h : call.count.Yields c n c') : c = c' := by
  have ofInt {i : Int} {c : Context} (h : (count.ofInt call i).Yields c n c') : c = c' := by
    unfold count.ofInt at h
    split at h
    · exact absurd h BindM.not_yields_unsupported
    · exact (BindM.yields_pure.mp h).2
  simp only [count, BindM.yields_bind] at h
  obtain ⟨a, c₁, ha, h⟩ := h
  obtain ⟨_, rfl⟩ := argument_yields ha
  split at h
  · exact ofInt h
  · exact ofInt h
  · exact absurd h BindM.not_yields_unsupported

/-- A class that is named is registered; nothing is bound. -/
theorem classMap_yields {registry : Registry} {m : ClassMap}
    (h : (call.classMap registry).Yields c m c') :
    (∃ name, registry.class? name = some m) ∧ c = c' := by
  unfold classMap at h
  split at h
  · rename_i name _ _
    split at h
    · rename_i hclass
      obtain ⟨rfl, rfl⟩ := BindM.yields_pure.mp h
      exact ⟨⟨name, hclass⟩, rfl⟩
    · exact absurd h BindM.not_yields_throw
  · exact absurd h BindM.not_yields_unsupported

end Call

/-! ### Operators -/

/-- What holds of a sequence or of the result that ends it. -/
def Applied.Holds {σ ρ : Type} (keeps : σ → Prop) (result : ρ → Prop) :
    Applied σ ρ → Prop
  | .sequence s => keeps s
  | .terminal r => result r

/-- A property of sequences that every operation keeps which gives out no names: `outer` holds
of the terms around the sequence, `inner` of the terms in a lambda over it, `lambda` of such a
lambda as a whole and `result` of what ends it. -/
structure OperationInvariant (registry : Registry) (σ ρ : Type) [Sequence σ ρ]
    (outer : Term → Prop) (keeps : σ → Prop) (inner : σ → Term → Prop) (result : ρ → Prop)
    (lambda : σ → Lambda → Prop) : Prop where
  inner_groupKey {s t} : inner s t → inner s (Operator.groupKey t)
  inner_item {s var} : keeps s → inner s (Sequence.item s var)
  closeSort {s} : keeps s → keeps (Sequence.closeSort s)
  filter {s s' l site} : keeps s → lambda s l → Sequence.filter s l site = .ok s' → keeps s'
  project {s s' l site} : keeps s → lambda s l → Sequence.project s l site = .ok s' → keeps s'
  unwind {s s' l item site} :
    keeps s → lambda s l → Sequence.unwind s l.body site = .ok (s', item) →
      keeps s' ∧ inner s' item ∧ (∀ u, inner s u → inner s' u) ∧
        ∀ l, inner s' l.body → lambda s' l
  groupBy {s s' key element site} : keeps s → lambda s key → (∀ l ∈ element, lambda s l) →
    Sequence.groupBy s key element site = .ok s' →
      keeps s' ∧ ∀ l, inner s' l.body → lambda s' l
  distinct {s s' site} : keeps s → Sequence.distinct s site = .ok s' → keeps s'
  sortBy {s s' l direction site} :
    keeps s → lambda s l → Sequence.sortBy s l direction site = .ok s' → keeps s'
  thenBy {s s' l direction site} :
    keeps s → lambda s l → Sequence.thenBy s l direction site = .ok s' → keeps s'
  skip {s s' n site} : keeps s → Sequence.skip s n site = .ok s' → keeps s'
  take {s s' n site} : keeps s → Sequence.take s n site = .ok s' → keeps s'
  ofType {s s' name m site} : keeps s → registry.class? name = some m →
    Sequence.ofType s m site = .ok s' → keeps s'
  combine {s s' op t site} :
    keeps s → outer t → Sequence.combine s op t site = .ok s' → keeps s'
  any {s r predicate site} : keeps s → (∀ l ∈ predicate, lambda s l) →
    Sequence.any s predicate site = .ok r → result r
  all {s r l site} : keeps s → lambda s l → Sequence.all s l site = .ok r → result r
  contains {s r t site} : keeps s → outer t → Sequence.contains s t site = .ok r → result r

/-- A property of sequences that every operation keeps which may give out names. -/
structure EndInvariant (σ ρ : Type) [Sequence σ ρ] (keeps : σ → Prop) (result : ρ → Prop)
    (lambda : σ → Lambda → Prop) : Prop where
  collect {s c a c' site} : keeps s → (Sequence.collect s site).Yields c a c' →
    a.Holds keeps result ∧ c'.scopes = c.scopes
  aggregate {s kind selector site c r c'} : keeps s → (∀ l ∈ selector, lambda s l) →
    (Sequence.aggregate s kind selector site).Yields c r c' → result r ∧ c'.scopes = c.scopes
  element {s pick site c r c'} : keeps s → (Sequence.element s pick site).Yields c r c' →
    result r ∧ c'.scopes = c.scopes

/-- The operations that give out no names keep the property, and the terms in a lambda over the
sequence are those around it and those that its parameter stands for. -/
structure PureInvariant (registry : Registry) (σ ρ : Type) [Sequence σ ρ]
    (outer : Term → Prop) (keeps : σ → Prop) (inner : σ → Term → Prop) (result : ρ → Prop)
    (lambda : σ → Lambda → Prop := fun s l => inner s l.body) : Prop
    extends OperationInvariant registry σ ρ outer keeps inner result lambda where
  inner_outer {s t} : keeps s → outer t → inner s t
  lambda_element {s l parameter} : l.var = serverVar parameter → inner s l.body → lambda s l

/-- Arguments that are bound to terms with a property, whenever the terms in scope have it. -/
theorem Argument.Gives.of_keeps {registry : Registry} {σ ρ : Type} [Sequence σ ρ]
    {outer : Term → Prop} {keeps : σ → Prop} {inner : σ → Term → Prop} {result : ρ → Prop}
    {lambda : σ → Lambda → Prop} {a : Argument}
    (inv : PureInvariant registry σ ρ outer keeps inner result lambda)
    (around : a.step.Keeps outer) (inside : ∀ s, keeps s → a.step.Keeps (inner s)) :
    a.Gives (fun scopes => ({ scopes } : Context).Every outer) outer keeps inner lambda where
  value {c t c'} hc h := by
    have houter : c.Every outer := hc
    exact keeps_bindValue around houter h
  element {s c l c'} hs hc h := by
    have hinner : c.Every (inner s) := Context.Every.mono hc fun _ => inv.inner_outer hs
    obtain ⟨⟨parameter, hvar⟩, hbody, hscopes⟩ :=
      keeps_bindElement (inside s hs) hinner (fun _ => inv.inner_item hs) h
    exact ⟨inv.lambda_element hvar hbody, hscopes⟩
  pair {s first second c l c'} hs hc hfirst hsecond h := by
    have hinner : c.Every (inner s) := Context.Every.mono hc fun _ => inv.inner_outer hs
    exact keeps_bindPair (inside s hs) hinner hfirst hsecond h

/-- All operations keep the property, those that give out names included. -/
structure SequenceInvariant (registry : Registry) (σ ρ : Type) [Sequence σ ρ]
    (outer : Term → Prop) (keeps : σ → Prop) (inner : σ → Term → Prop) (result : ρ → Prop)
    (lambda : σ → Lambda → Prop := fun s l => inner s l.body) : Prop
    extends PureInvariant registry σ ρ outer keeps inner result lambda,
      EndInvariant σ ρ keeps result lambda

namespace Operator

section Ends

variable {σ ρ : Type} {a : Applied σ ρ} {c c' : Context}

@[simp] theorem yields_next {outcome : Except BindingError σ} :
    (next outcome : BindM (Applied σ ρ)).Yields c a c' ↔
      ∃ s, outcome = .ok s ∧ Applied.sequence s = a ∧ c = c' := by
  have mapped : outcome.map Applied.sequence = .ok a ↔
      ∃ s, outcome = .ok s ∧ (Applied.sequence s : Applied σ ρ) = a := map_eq_ok
  simp only [next, BindM.yields_ofExcept, mapped]
  constructor
  · rintro ⟨⟨s, hs, rfl⟩, rfl⟩
    exact ⟨s, hs, rfl, rfl⟩
  · rintro ⟨s, hs, rfl, rfl⟩
    exact ⟨⟨s, hs, rfl⟩, rfl⟩

@[simp] theorem yields_done {outcome : Except BindingError ρ} :
    (done outcome : BindM (Applied σ ρ)).Yields c a c' ↔
      ∃ r, outcome = .ok r ∧ Applied.terminal r = a ∧ c = c' := by
  have mapped : outcome.map Applied.terminal = .ok a ↔
      ∃ r, outcome = .ok r ∧ (Applied.terminal r : Applied σ ρ) = a := map_eq_ok
  simp only [done, BindM.yields_ofExcept, mapped]
  constructor
  · rintro ⟨⟨r, hr, rfl⟩, rfl⟩
    exact ⟨r, hr, rfl, rfl⟩
  · rintro ⟨r, hr, rfl, rfl⟩
    exact ⟨⟨r, hr, rfl⟩, rfl⟩

end Ends

variable {registry : Registry} {σ ρ : Type} [Sequence σ ρ] {outer : Term → Prop}
  {keeps : σ → Prop} {inner : σ → Term → Prop} {result : ρ → Prop}
  {lambda : σ → Lambda → Prop} {call : Call Argument} {s s' : σ} {c c' : Context}

section Gives

variable {known : Scopes String Term → Prop}
  (inv : OperationInvariant registry σ ρ outer keeps inner result lambda)
  (ends : EndInvariant σ ρ keeps result lambda)
  (arguments : ∀ a ∈ call.arguments, a.Gives known outer keeps inner lambda)
include arguments

theorem keeps_lambda (hs : keeps s) (hc : known c.scopes) {l : Lambda}
    (h : (call.lambda s).Yields c l c') : lambda s l ∧ c'.scopes = c.scopes := by
  simp only [Call.lambda, BindM.yields_bind] at h
  obtain ⟨a, c₁, ha, h⟩ := h
  obtain ⟨hmem, rfl⟩ := Call.argument_yields ha
  exact (arguments a hmem).element hs hc h

theorem keeps_optionalLambda (hs : keeps s) (hc : known c.scopes) {o : Option Lambda}
    (h : (call.optionalLambda s).Yields c o c') :
    (∀ l ∈ o, lambda s l) ∧ c'.scopes = c.scopes := by
  unfold Call.optionalLambda at h
  split at h
  · obtain ⟨rfl, rfl⟩ := BindM.yields_pure.mp h
    exact ⟨nofun, rfl⟩
  · rename_i a rest hargs
    obtain ⟨l, hl, rfl⟩ := BindM.yields_map.mp h
    have hmem : a ∈ call.arguments := hargs ▸ List.mem_cons_self
    obtain ⟨hbody, hscopes⟩ := (arguments _ hmem).element hs hc hl
    refine ⟨?_, hscopes⟩
    rintro l' ⟨⟩
    exact hbody

theorem keeps_value (hc : known c.scopes) {t : Term}
    (h : call.value.Yields c t c') : outer t ∧ c'.scopes = c.scopes := by
  simp only [Call.value, BindM.yields_bind] at h
  obtain ⟨a, c₁, ha, h⟩ := h
  obtain ⟨hmem, rfl⟩ := Call.argument_yields ha
  exact (arguments a hmem).value hc h

include inv

theorem keeps_optionalFilter (hs : keeps s) (hc : known c.scopes)
    (h : (optionalFilter s call).Yields c s' c') : keeps s' ∧ c'.scopes = c.scopes := by
  simp only [optionalFilter, BindM.yields_bind] at h
  obtain ⟨o, c₁, ho, h⟩ := h
  obtain ⟨hbody, hscopes⟩ := keeps_optionalLambda arguments hs hc ho
  cases o with
  | none =>
    obtain ⟨rfl, rfl⟩ := BindM.yields_pure.mp h
    exact ⟨hs, hscopes⟩
  | some predicate =>
    obtain ⟨hfilter, rfl⟩ := BindM.yields_ofExcept.mp h
    exact ⟨inv.filter hs (hbody predicate rfl) hfilter, hscopes⟩

theorem keeps_combineStep {op : SetOp} (hs : keeps s) (hc : known c.scopes)
    (h : (combineStep s op call).Yields c s' c') : keeps s' ∧ c'.scopes = c.scopes := by
  simp only [combineStep, BindM.yields_bind, BindM.yields_ofExcept] at h
  obtain ⟨t, c₁, ht, hcombine, rfl⟩ := h
  obtain ⟨hother, hscopes⟩ := keeps_value arguments hc ht
  exact ⟨inv.combine hs hother hcombine, hscopes⟩

omit arguments in
include ends in
theorem keeps_elementAtStep {pick : Pick} (hs : keeps s) {r : ρ}
    (h : (elementAtStep s pick call).Yields c r c') : result r ∧ c'.scopes = c.scopes := by
  simp only [elementAtStep, BindM.yields_bind, BindM.yields_ofExcept] at h
  obtain ⟨n, c₁, hn, s₁, c₂, ⟨hskip, rfl⟩, helement⟩ := h
  obtain rfl := Call.count_context hn
  exact ends.element (inv.skip hs hskip) helement

omit inv in
/-- The selector of a flattened sequence reads the element and the item. -/
theorem keeps_flattenSelector {collection : Lambda} {outerItem item : Term} (hs : keeps s)
    (hc : known c.scopes) (hcollection : inner s outerItem) (hitem : inner s item) {l : Lambda}
    (h : (flattenSelector collection outerItem item call).Yields c l c') :
    inner s l.body ∧ c'.scopes = c.scopes := by
  unfold flattenSelector at h
  split at h
  · rename_i a hget
    exact (arguments a (List.mem_of_getElem? hget)).pair hs hc (fun _ => hcollection)
      (fun _ => hitem) h
  · obtain ⟨rfl, rfl⟩ := BindM.yields_pure.mp h
    exact ⟨hitem, rfl⟩

theorem keeps_flattenStep (hs : keeps s) (hc : known c.scopes)
    (h : (flattenStep s call).Yields c s' c') : keeps s' ∧ c'.scopes = c.scopes := by
  simp only [flattenStep, BindM.yields_bind, BindM.yields_ofExcept] at h
  obtain ⟨collection, c₁, hcollection, ⟨s₁, item⟩, c₂, ⟨hunwind, rfl⟩, selector, c₃, hselector,
    hproject, rfl⟩ := h
  obtain ⟨hbody, hscopes₁⟩ := keeps_lambda arguments hs hc hcollection
  obtain ⟨hs₁, hitem, hinner, hlambda⟩ := inv.unwind hs hbody hunwind
  obtain ⟨hselected, hscopes⟩ := keeps_flattenSelector arguments hs₁
    (hscopes₁ ▸ hc) (hinner _ (inv.inner_item hs)) hitem hselector
  exact ⟨inv.project hs₁ (hlambda _ hselected) hproject, hscopes.trans hscopes₁⟩

omit inv in
/-- The selectors of a grouping are bound over the elements, or are arguments yet to be
bound. -/
theorem keeps_groupSelectors (hs : keeps s) (hc : known c.scopes) {element : Option Lambda}
    {rest : Option Argument} (h : (groupSelectors s call).Yields c (element, rest) c') :
    (∀ l ∈ element, lambda s l) ∧ (∀ a ∈ rest, a ∈ call.arguments) ∧
      c'.scopes = c.scopes := by
  unfold groupSelectors at h
  split at h
  · obtain ⟨heq, rfl⟩ := BindM.yields_pure.mp h
    cases heq
    exact ⟨nofun, nofun, rfl⟩
  · rename_i key second hargs
    have hmem : second ∈ call.arguments := by simp [hargs]
    split at h
    · obtain ⟨heq, rfl⟩ := BindM.yields_pure.mp h
      cases heq
      refine ⟨nofun, ?_, rfl⟩
      rintro a ⟨⟩
      exact hmem
    · simp only [BindM.yields_bind, BindM.yields_pure] at h
      obtain ⟨l, c₁, hl, heq, rfl⟩ := h
      cases heq
      obtain ⟨hbody, hscopes⟩ := (arguments _ hmem).element hs hc hl
      refine ⟨?_, nofun, hscopes⟩
      rintro l' ⟨⟩
      exact hbody
  · rename_i key second third hargs
    simp only [BindM.yields_bind, BindM.yields_pure] at h
    obtain ⟨l, c₁, hl, heq, rfl⟩ := h
    cases heq
    have hmem : second ∈ call.arguments := by simp [hargs]
    obtain ⟨hbody, hscopes⟩ := (arguments _ hmem).element hs hc hl
    refine ⟨?_, ?_, hscopes⟩
    · rintro l' ⟨⟩
      exact hbody
    · rintro a ⟨⟩
      simp [hargs]
  · exact absurd h BindM.not_yields_unsupported

theorem keeps_projectGroups {a : Argument} (hmem : a ∈ call.arguments) {site : String}
    (hs : keeps s) (hlambda : ∀ l, inner s l.body → lambda s l) (hc : known c.scopes)
    (h : (projectGroups s a site).Yields c s' c') : keeps s' ∧ c'.scopes = c.scopes := by
  simp only [projectGroups, BindM.yields_bind, BindM.yields_ofExcept] at h
  obtain ⟨selector, c₁, hselector, hproject, rfl⟩ := h
  obtain ⟨hselected, hscopes⟩ := (arguments a hmem).pair hs hc
    (fun _ => inv.inner_groupKey (inv.inner_item hs)) (fun _ => inv.inner_item hs) hselector
  exact ⟨inv.project hs (hlambda _ hselected) hproject, hscopes⟩

theorem keeps_groupStep (hs : keeps s) (hc : known c.scopes)
    (h : (groupStep s call).Yields c s' c') : keeps s' ∧ c'.scopes = c.scopes := by
  simp only [groupStep, BindM.yields_bind, BindM.yields_ofExcept] at h
  obtain ⟨key, c₁, hkey, ⟨element, rest⟩, c₂, hselectors, groups, c₃, ⟨hgroups, rfl⟩, h⟩ := h
  obtain ⟨hkeyBody, hscopes₁⟩ := keeps_lambda arguments hs hc hkey
  have hc₁ : known c₁.scopes := hscopes₁ ▸ hc
  obtain ⟨helement, hrest, hscopes₂⟩ := keeps_groupSelectors arguments hs hc₁ hselectors
  obtain ⟨hgrouped, hlambda⟩ := inv.groupBy hs hkeyBody helement hgroups
  have hscopes := hscopes₂.trans hscopes₁
  cases rest with
  | none =>
    obtain ⟨rfl, rfl⟩ := BindM.yields_pure.mp h
    exact ⟨hgrouped, hscopes⟩
  | some a =>
    obtain ⟨hs', hscopes₃⟩ := keeps_projectGroups inv arguments (hrest a rfl) hgrouped
      hlambda (hscopes ▸ hc) h
    exact ⟨hs', hscopes₃.trans hscopes⟩

include ends

/-- **Every operator keeps the invariant**, and leaves the scopes as they were, if its arguments
give what the invariant asks for. -/
theorem apply_gives {op : Operator} {a : Applied σ ρ} (hs : keeps s) (hc : known c.scopes)
    (h : (op.apply registry s call).Yields c a c') :
    a.Holds keeps result ∧ c'.scopes = c.scopes := by
  unfold apply at h
  generalize hs₀ : (if op.keepsSortOpen then s else Sequence.closeSort s) = s₀ at h
  have hs : keeps s₀ := by
    rw [← hs₀]
    split
    · exact hs
    · exact inv.closeSort hs
  cases op with
  | filter =>
    simp only [BindM.yields_bind, yields_next] at h
    obtain ⟨l, c₁, hl, s', hs', rfl, rfl⟩ := h
    obtain ⟨hbody, hscopes⟩ := keeps_lambda arguments hs hc hl
    exact ⟨inv.filter hs hbody hs', hscopes⟩
  | project =>
    simp only [BindM.yields_bind, yields_next] at h
    obtain ⟨l, c₁, hl, s', hs', rfl, rfl⟩ := h
    obtain ⟨hbody, hscopes⟩ := keeps_lambda arguments hs hc hl
    exact ⟨inv.project hs hbody hs', hscopes⟩
  | flatten =>
    simp only [BindM.yields_bind, BindM.yields_pure] at h
    obtain ⟨s', c₁, hs', rfl, rfl⟩ := h
    obtain ⟨hkept, hscopes⟩ := keeps_flattenStep inv arguments hs hc hs'
    exact ⟨hkept, hscopes⟩
  | groupBy =>
    simp only [BindM.yields_bind, BindM.yields_pure] at h
    obtain ⟨s', c₁, hs', rfl, rfl⟩ := h
    obtain ⟨hkept, hscopes⟩ := keeps_groupStep inv arguments hs hc hs'
    exact ⟨hkept, hscopes⟩
  | distinct =>
    simp only [yields_next] at h
    obtain ⟨s', hs', rfl, rfl⟩ := h
    exact ⟨inv.distinct hs hs', rfl⟩
  | sortBy direction =>
    simp only [BindM.yields_bind, yields_next] at h
    obtain ⟨l, c₁, hl, s', hs', rfl, rfl⟩ := h
    obtain ⟨hbody, hscopes⟩ := keeps_lambda arguments hs hc hl
    exact ⟨inv.sortBy hs hbody hs', hscopes⟩
  | thenBy direction =>
    simp only [BindM.yields_bind, yields_next] at h
    obtain ⟨l, c₁, hl, s', hs', rfl, rfl⟩ := h
    obtain ⟨hbody, hscopes⟩ := keeps_lambda arguments hs hc hl
    exact ⟨inv.thenBy hs hbody hs', hscopes⟩
  | skip =>
    simp only [BindM.yields_bind, yields_next] at h
    obtain ⟨n, c₁, hn, s', hs', rfl, rfl⟩ := h
    obtain rfl := Call.count_context hn
    exact ⟨inv.skip hs hs', rfl⟩
  | take =>
    simp only [BindM.yields_bind, yields_next] at h
    obtain ⟨n, c₁, hn, s', hs', rfl, rfl⟩ := h
    obtain rfl := Call.count_context hn
    exact ⟨inv.take hs hs', rfl⟩
  | any =>
    simp only [BindM.yields_bind, yields_done] at h
    obtain ⟨o, c₁, ho, r, hr, rfl, rfl⟩ := h
    obtain ⟨hbody, hscopes⟩ := keeps_optionalLambda arguments hs hc ho
    exact ⟨inv.any hs hbody hr, hscopes⟩
  | all =>
    simp only [BindM.yields_bind, yields_done] at h
    obtain ⟨l, c₁, hl, r, hr, rfl, rfl⟩ := h
    obtain ⟨hbody, hscopes⟩ := keeps_lambda arguments hs hc hl
    exact ⟨inv.all hs hbody hr, hscopes⟩
  | contains =>
    simp only [BindM.yields_bind, yields_done] at h
    obtain ⟨t, c₁, ht, r, hr, rfl, rfl⟩ := h
    obtain ⟨hvalue, hscopes⟩ := keeps_value arguments hc ht
    exact ⟨inv.contains hs hvalue hr, hscopes⟩
  | aggregate kind =>
    cases kind with
    | count | longCount =>
      simp only [BindM.yields_bind, BindM.yields_pure] at h
      obtain ⟨s', c₁, hs', r, c₂, hr, rfl, rfl⟩ := h
      obtain ⟨hs', hscopes₁⟩ := keeps_optionalFilter inv arguments hs hc hs'
      obtain ⟨hresult, hscopes⟩ := ends.aggregate hs' (by simp) hr
      exact ⟨hresult, hscopes.trans hscopes₁⟩
    | sum | average | min | max =>
      simp only [BindM.yields_bind, BindM.yields_pure] at h
      obtain ⟨o, c₁, ho, r, c₂, hr, rfl, rfl⟩ := h
      obtain ⟨hbody, hscopes₁⟩ := keeps_optionalLambda arguments hs hc ho
      obtain ⟨hresult, hscopes⟩ := ends.aggregate hs hbody hr
      exact ⟨hresult, hscopes.trans hscopes₁⟩
  | element pick =>
    simp only [BindM.yields_bind, BindM.yields_pure] at h
    obtain ⟨s', c₁, hs', r, c₂, hr, rfl, rfl⟩ := h
    obtain ⟨hs', hscopes₁⟩ := keeps_optionalFilter inv arguments hs hc hs'
    obtain ⟨hresult, hscopes⟩ := ends.element hs' hr
    exact ⟨hresult, hscopes.trans hscopes₁⟩
  | elementAt | elementAtOrDefault =>
    simp only [BindM.yields_bind, BindM.yields_pure] at h
    obtain ⟨r, c₁, hr, rfl, rfl⟩ := h
    obtain ⟨hresult, hscopes⟩ := keeps_elementAtStep inv ends hs hr
    exact ⟨hresult, hscopes⟩
  | union | except | intersect =>
    simp only [BindM.yields_bind, BindM.yields_pure] at h
    obtain ⟨s', c₁, hs', rfl, rfl⟩ := h
    obtain ⟨hkept, hscopes⟩ := keeps_combineStep inv arguments hs hc hs'
    exact ⟨hkept, hscopes⟩
  | ofType =>
    simp only [BindM.yields_bind, yields_next] at h
    obtain ⟨m, c₁, hm, s', hs', rfl, rfl⟩ := h
    obtain ⟨⟨name, hclass⟩, rfl⟩ := Call.classMap_yields hm
    exact ⟨inv.ofType hs hclass hs', rfl⟩
  | toList | toArray => exact ends.collect hs h
  | asQueryable =>
    obtain ⟨rfl, rfl⟩ := BindM.yields_pure.mp h
    exact ⟨hs, rfl⟩

end Gives

/-- **Operators keep the invariant** of a sequence if their arguments are bound to terms with a
property whenever the terms in scope have it. -/
theorem apply_keeps (inv : SequenceInvariant registry σ ρ outer keeps inner result lambda)
    (arguments : ∀ a ∈ call.arguments, a.step.Keeps outer ∧
      ∀ s, keeps s → a.step.Keeps (inner s))
    {op : Operator} {a : Applied σ ρ} (hs : keeps s) (hc : c.Every outer)
    (h : (op.apply registry s call).Yields c a c') :
    a.Holds keeps result ∧ c'.scopes = c.scopes :=
  apply_gives inv.toOperationInvariant inv.toEndInvariant
    (fun a ha => .of_keeps inv.toPureInvariant (arguments a ha).1 (arguments a ha).2) hs hc h

end Operator

end QueryPipeline
