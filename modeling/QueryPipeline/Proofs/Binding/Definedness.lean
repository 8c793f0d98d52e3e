import QueryPipeline.Proofs.Binding.Subquery

/-!
Expressions that are built of chains alone have a meaning as soon as they are bound: what
binding checks is all that a meaning asks for. No group may be in scope, since a chain over
the rows of a group is no sub-query, and a constant of an array type has to be an array.
-/

namespace QueryPipeline

variable {engine : Engine} {registry : Registry} {other? : Others} {vars : List String}

/-! ### Outlines without groups -/

/-- No member is a group, and a constant that is no array has no codec of one. -/
inductive Outline.Regular : Outline → Prop where
  | stored (codec : Codec) : Regular (.stored codec)
  | constant (v : Value) {codec : Codec} (no_array : codec.item? = none) :
      Regular (.value (.constant v codec))
  | record {members : List (String × Outline)} (regular : ∀ m ∈ members, Regular m.2) :
      Regular (.record members)

namespace Outline.Regular

variable {o o' : Outline}

theorem ofShape_stored (codec : Codec) : (Outline.ofShape (.stored codec)).Regular :=
  .stored codec

theorem ofShape_constant (v : Value) {codec : Codec} (no_array : codec.item? = none) :
    (Outline.ofShape (.constant v codec)).Regular := by
  unfold Outline.ofShape
  split
  · exact .stored _
  · exact .constant v no_array

/-- Operators see a codec of an array only where there is no constant. -/
theorem shape (h : o.Regular) :
    (∃ codec, o.shape = .stored codec) ∨
      ∃ v codec, o.shape = .constant v codec ∧ codec.item? = none := by
  cases h with
  | stored codec => exact .inl ⟨codec, rfl⟩
  | constant v no_array => exact .inr ⟨v, _, rfl, no_array⟩
  | record => exact .inl ⟨_, rfl⟩

theorem unary (h : o.Regular) (op : UnaryOp) : (Outline.unary op o).Regular := by
  unfold Outline.unary Shape.unary
  split
  · rename_i v codec hshape
    split
    · refine ofShape_constant _ ?_
      obtain ⟨_, h⟩ | ⟨_, _, h, no_array⟩ := h.shape
      · cases hshape.symm.trans h
      · cases hshape.symm.trans h
        exact no_array
    · exact ofShape_stored _
  · exact ofShape_stored _

theorem binary (h : o.Regular) (op : BinaryOp) : (Outline.binary op o o').Regular := by
  unfold Outline.binary Shape.binary
  split
  · rename_i v codec v' codec' hshape _
    split
    · rename_i w _
      refine ofShape_constant _ ?_
      obtain ⟨_, h⟩ | ⟨_, _, h, no_array⟩ := h.shape
      · cases hshape.symm.trans h
      · cases hshape.symm.trans h
        unfold Term.foldedCodec
        split
        · rfl
        · rfl
        · exact no_array
    · exact ofShape_stored _
  · exact ofShape_stored _

theorem cond {test : Outline} (yes : o.Regular) (no : o'.Regular) :
    (Outline.cond test o o').Regular := by
  unfold Outline.cond
  split
  · split
    · exact yes
    · exact no
  · exact .stored _

theorem member {name : String} {read : Datum → Datum} (h : o.Regular)
    (hm : o.member? registry engine name = some (o', read)) : o'.Regular := by
  have fresh {s : Shape} (no_record : ∀ members, s ≠ .record members)
      (hm : (Outline.value s).member? registry engine name = some (o', read)) :
      o'.Regular := by
    obtain ⟨⟨access, found⟩, hfound, heq⟩ := Option.map_eq_some_iff.mp hm
    obtain ⟨rfl, -⟩ := Prod.mk.inj heq
    unfold Shape.member? at hfound
    split at hfound
    · exact absurd rfl (no_record _)
    · split at hfound
      · cases hfound
        exact .stored _
      · obtain ⟨_, _, heq⟩ := Option.map_eq_some_iff.mp hfound
        cases heq
        exact .stored _
  cases h with
  | stored codec => exact fresh (s := .stored codec) nofun hm
  | constant v => exact fresh (s := .constant v _) nofun hm
  | record regular =>
    obtain ⟨m, hfound, heq⟩ := Option.map_eq_some_iff.mp hm
    cases heq
    exact regular m (List.mem_of_find?_eq_some hfound)

/-- A sub-query can run over every array. -/
theorem itemCodec {item : Codec} (h : o.Regular) (array : o.codec.item? = some item) :
    o.itemCodec? = some item := by
  cases h with
  | stored codec => exact array
  | constant v no_array =>
    simp only [Outline.codec, Shape.codec] at array
    simp [no_array] at array
  | record => cases array

theorem no_group {t : Term} (h : t.outline.Regular) : t.isGrouping = false := by
  cases t with
  | grouping => simp only [Term.outline] at h; cases h
  | _ => rfl

end Outline.Regular

/-! ### Expressions of chains -/

/-- Whether a call continues or ends a chain. -/
def Call.chains {α : Type} (call : Call α) : Bool :=
  ["Where", "Select", "Skip", "Take", "Any", "All", "Contains", "Count", "First",
    "FirstOrDefault", "Last", "LastOrDefault", "ElementAt", "ElementAtOrDefault"].contains
    call.name

namespace Expr

section

variable (registry : Registry)

mutual
/-- Whether every call continues or ends a chain, and every constant of an array type is an
array. -/
def chained : Expr → Bool
  | .const (.array _) _ | .param _ => true
  | .const _ type => (registry.codec? type).all fun codec => codec.item?.isNone
  | .member target _ => target.chained
  | .unary _ operand => operand.chained
  | .binary _ left right => left.chained && right.chained
  | .cond test ifTrue ifFalse => test.chained && ifTrue.chained && ifFalse.chained
  | .new members => membersChained members
  | .index array position => array.chained && position.chained
  | .call source c => c.chains && source.chained && callChained c
  | .lambda _ body => body.chained

def membersChained : List (String × Expr) → Bool
  | [] => true
  | (_, e) :: rest => e.chained && membersChained rest

def callChained : Call Expr → Bool
  | ⟨_, _, _, arguments⟩ => allChained arguments

def allChained : List Expr → Bool
  | [] => true
  | e :: rest => e.chained && allChained rest
end

end

theorem callChained_eq (call : Call Expr) :
    callChained registry call = call.arguments.all (chained registry) := by
  obtain ⟨declaringType, name, types, arguments⟩ := call
  change allChained registry arguments = _
  induction arguments with
  | nil => rfl
  | cons e rest ih => rw [allChained, ih, List.all_cons]

/-- Where terms in scope have regular outlines, an expression that is bound has a meaning
with a regular outline. -/
def Meant (engine : Engine) (registry : Registry) (other? : Others) (e : Expr) : Prop :=
  ∀ ⦃vars c t c'⦄, e.chained registry = true → e.apart vars = true → c.Fit vars →
    c.Every (fun t => t.outline.Regular) → (e.bind registry).Yields c t c' →
    ∃ m, e.meaning? engine registry other? c.outlines = some m ∧ m.outline.Regular

theorem Meant.of_scopes_eq {e : Expr} {c c₁ c₂ : Context} {t : Term}
    (h : e.Meant engine registry other?) (chained : e.chained registry = true)
    (apart : e.apart vars = true) (fit : c.Fit vars)
    (regular : c.Every fun t => t.outline.Regular) (same : c₁.scopes = c.scopes)
    (hbind : (e.bind registry).Yields c₁ t c₂) :
    ∃ m, e.meaning? engine registry other? c.outlines = some m ∧ m.outline.Regular := by
  rw [← Context.outlines_congr same]
  exact h chained apart (fit.congr same) (regular.of_scopes_eq same) hbind

/-! ### Calls -/

section Calls

variable {call : Call Expr} {e : Expr} {s : Items} {c c' : Context}
  (fit : c.Fit vars) (regular : c.Every fun t => t.outline.Regular)

section Lambda

variable (single : call.arguments = [e]) (chained : e.chained registry = true)
  (apart : e.apart vars = true)
  (meant : ∀ parameter body, e = .lambda [parameter] body →
    body.Meant engine registry other?)

include fit regular single chained apart meant

/-- A lambda over items whose body is bound has a meaning. -/
theorem selector_of_lambda {l : Lambda}
    (h : ((bindArguments registry call).lambda s).Yields c l c') :
    ∃ f, (e.operand engine registry other? c.outlines).selector? s.codec = some f := by
  obtain ⟨parameter, body, c₁, rfl, hvar, hbody, -⟩ := Call.lambda_yields single h
  obtain ⟨var, t⟩ := l
  obtain rfl : var = serverVar parameter := hvar
  have apartBody : body.apart (serverVar parameter :: vars) = true := by
    have h : serverVar parameter ∉ vars ∧ body.apart (serverVar parameter :: vars) = true := by
      simpa [Expr.apart] using apart
    exact h.2
  have regular' : (c.push parameter (.item s.array (serverVar parameter) s.codec)).Every
      fun t => t.outline.Regular := by
    refine regular.push ?_
    intro p hp
    obtain rfl := List.mem_singleton.mp hp
    exact .stored _
  obtain ⟨m, hm, -⟩ := meant parameter body rfl chained apartBody (fit.push_item ..)
    regular' hbody
  rw [Context.outlines_push] at hm
  exact ⟨_, Option.bind_eq_some_iff.mpr ⟨m, hm, rfl⟩⟩

end Lambda

end Calls

/-- The number that a call skips, takes or counts to is written out. -/
theorem count_of_yields {call : Call Expr} {e : Expr} {c c' : Context} {n : Nat}
    (scope : String → Option Outline) (single : call.arguments = [e])
    (h : (bindArguments registry call).count.Yields c n c') :
    (e.operand engine registry other? scope).count? = some n := by
  obtain ⟨-, v, type, width, i, rfl, hv, nonneg, rfl⟩ := Call.count_yields single h
  simp [operand, Operand.count?, Paging.count?, hv, nonneg]

/-- An argument that has a meaning is no lambda. -/
theorem operand_meaning {scope : String → Option Outline} {e : Expr} {m : Meaning}
    (h : e.meaning? engine registry other? scope = some m) :
    (e.operand engine registry other? scope).meaning? = some m := by
  cases e with
  | lambda => rw [meaning?] at h; cases h
  | _ => exact h

section Calls

variable {call : Call Expr} {s : Items} {c c' : Context}
  (fit : c.Fit vars) (regular : c.Every fun t => t.outline.Regular)
  (chained : ∀ e ∈ call.arguments, e.chained registry = true)
  (apart : ∀ e ∈ call.arguments, e.apart vars = true)
  (lambdas : ∀ e ∈ call.arguments, ∀ parameter body, e = .lambda [parameter] body →
    body.Meant engine registry other?)

include fit regular chained apart lambdas

/-- A lambda that may be left out has a meaning where it is not. -/
theorem selector_of_optionalLambda {o : Option Lambda} (few : call.arguments.length ≤ 1)
    (h : ((bindArguments registry call).optionalLambda s).Yields c o c') :
    call.arguments = [] ∨ ∃ e f, call.arguments = [e] ∧
      (e.operand engine registry other? c.outlines).selector? s.codec = some f := by
  rcases hargs : call.arguments with _ | ⟨e, _ | ⟨_, _⟩⟩
  · exact .inl rfl
  · have hmem : e ∈ call.arguments := by simp [hargs]
    obtain ⟨l, rfl, hl⟩ := Call.optionalLambda_yields hargs h
    obtain ⟨f, hf⟩ := selector_of_lambda fit regular hargs (chained e hmem) (apart e hmem)
      (lambdas e hmem) hl
    exact .inr ⟨e, f, rfl, hf⟩
  · simp [hargs] at few

/-- **A call of a chain has a meaning** as soon as it is bound. -/
theorem sequel_of_apply {op : Operator} {applied : Applied Items Term}
    (values : ∀ e ∈ call.arguments, e.Meant engine registry other?)
    (hop : Operator.ofCall call = .ok op) (chains : call.chains = true)
    (h : (op.apply registry s (bindArguments registry call)).Yields c applied c') :
    ∃ q, Sequel.ofMethod? engine s.codec call.name
      (call.arguments.map (operand engine registry other? c.outlines)) = some q := by
  obtain ⟨named, -, arity⟩ := Operator.ofCall_eq_ok_iff.mp hop
  have single (one : op.arities = [1]) : ∃ e, call.arguments = [e] ∧ e ∈ call.arguments := by
    rw [one, List.mem_singleton, List.length_eq_one_iff] at arity
    obtain ⟨e, he⟩ := arity
    exact ⟨e, he, by simp [he]⟩
  have few (optional : op.arities = [0, 1]) : call.arguments.length ≤ 1 := by
    rw [optional] at arity
    grind
  have lambda (one : op.arities = [1]) {l : Lambda} {c₁ : Context}
      (hl : ((bindArguments registry call).lambda (Sequence.closeSort s : Items)).Yields c l c₁) :
      ∃ e f, call.arguments = [e] ∧
        (e.operand engine registry other? c.outlines).selector? s.codec = some f := by
    obtain ⟨e, he, hmem⟩ := single one
    obtain ⟨f, hf⟩ := selector_of_lambda fit regular he (chained e hmem) (apart e hmem)
      (lambdas e hmem) hl
    exact ⟨e, f, he, hf⟩
  have count (one : op.arities = [1]) {n : Nat} {c₁ : Context}
      (hn : (bindArguments registry call).count.Yields c n c₁) :
      ∃ e, call.arguments = [e] ∧
        (e.operand engine registry other? c.outlines).count? = some n := by
    obtain ⟨e, he, -⟩ := single one
    exact ⟨e, he, count_of_yields c.outlines he hn⟩
  have predicate (optional : op.arities = [0, 1]) {o : Option Lambda} {c₁ : Context}
      (ho : ((bindArguments registry call).optionalLambda (Sequence.closeSort s : Items)).Yields
        c o c₁) :
      call.arguments = [] ∨ ∃ e f, call.arguments = [e] ∧
        (e.operand engine registry other? c.outlines).selector? s.codec = some f :=
    selector_of_optionalLambda fit regular chained apart lambdas (few optional) ho
  have narrowed (optional : op.arities = [0, 1]) {o : Option Lambda} {c₁ : Context}
      (codec : Codec) (g : List Value → Option Value)
      (ho : ((bindArguments registry call).optionalLambda (Sequence.closeSort s : Items)).Yields
        c o c₁) :
      ∃ q, Sequel.narrowed engine codec s.codec
        (call.arguments.map (operand engine registry other? c.outlines)) g = some q := by
    rcases predicate optional ho with no_argument | ⟨e, f, he, hf⟩
    · exact ⟨_, by rw [no_argument]; rfl⟩
    · exact ⟨_, by rw [he]; exact Option.bind_eq_some_iff.mpr ⟨f, hf, rfl⟩⟩
  rw [Call.chains, ← named] at chains
  rw [← named]
  cases op with
  | filter | project | all =>
    simp only [Operator.apply, BindM.yields_bind] at h
    obtain ⟨l, c₁, hl, -⟩ := h
    obtain ⟨e, f, he, hf⟩ := lambda rfl hl
    simp [he, Sequel.ofMethod?, Operator.name, hf]
  | skip | take =>
    simp only [Operator.apply, BindM.yields_bind] at h
    obtain ⟨n, c₁, hn, -⟩ := h
    obtain ⟨e, he, hcount⟩ := count rfl hn
    simp [he, Sequel.ofMethod?, Operator.name, hcount]
  | elementAt | elementAtOrDefault =>
    simp only [Operator.apply, Operator.elementAtStep, BindM.yields_bind] at h
    obtain ⟨_, _, ⟨n, c₁, hn, -⟩, -⟩ := h
    obtain ⟨e, he, hcount⟩ := count rfl hn
    simp [he, Sequel.ofMethod?, Operator.name, hcount]
  | any =>
    simp only [Operator.apply, BindM.yields_bind] at h
    obtain ⟨o, c₁, ho, -⟩ := h
    rcases predicate rfl ho with no_argument | ⟨e, f, he, hf⟩
    · simp [no_argument, Sequel.ofMethod?, Operator.name]
    · simp [he, Sequel.ofMethod?, Operator.name, hf]
  | contains =>
    simp only [Operator.apply, BindM.yields_bind] at h
    obtain ⟨t, c₁, ht, -⟩ := h
    obtain ⟨e, he, hmem⟩ := single rfl
    obtain ⟨m, hm, -⟩ := values e hmem (chained e hmem) (apart e hmem) fit regular
      (Call.value_yields he ht)
    simp [he, Sequel.ofMethod?, Operator.name, operand_meaning hm]
  | aggregate kind =>
    cases kind with
    | count =>
      simp only [Operator.apply, Operator.optionalFilter, BindM.yields_bind] at h
      obtain ⟨_, _, ⟨o, c₁, ho, -⟩, -⟩ := h
      exact narrowed rfl _ _ ho
    | _ => cases chains
  | element pick =>
    simp only [Operator.apply, Operator.optionalFilter, BindM.yields_bind] at h
    obtain ⟨_, _, ⟨o, c₁, ho, -⟩, -⟩ := h
    cases pick with
    | single | singleOrDefault => cases chains
    | first | firstOrDefault | last | lastOrDefault => exact narrowed rfl _ _ ho
  | sortBy direction | thenBy direction => cases direction <;> cases chains
  | _ => cases chains

end Calls

/-- A call is bound to something that has a meaning, if its source and arguments are. -/
theorem meant_call (laws : Laws engine registry other?) {source : Expr} {call : Call Expr}
    (ofSource : source.Meant engine registry other?)
    (values : ∀ e ∈ call.arguments, e.Meant engine registry other?)
    (lambdas : ∀ e ∈ call.arguments, ∀ parameter body, e = .lambda [parameter] body →
      body.Meant engine registry other?) :
    (Expr.call source call).Meant engine registry other? := by
  intro vars c u c' chained apart fit regular hbind
  rw [Expr.chained, callChained_eq, Bool.and_eq_true, Bool.and_eq_true, List.all_eq_true]
    at chained
  rw [Expr.apart, callApart_eq, Bool.and_eq_true, List.all_eq_true] at apart
  simp only [bind, BindM.yields_bind, BindM.yields_ofExcept] at hbind
  obtain ⟨op, c₁, ⟨hop, rfl⟩, t, c₂, ht, happly⟩ := hbind
  obtain ⟨m, hm, hregular⟩ := ofSource chained.1.2 apart.1 fit regular ht
  obtain ⟨same, realizes⟩ := sound laws source apart.1 fit hm ht
  obtain ⟨-, s, applied, hs, happlied, rfl⟩ :=
    (Term.applyOperator_yields (Outline.Regular.no_group (realizes.outline ▸ hregular))).mp happly
  have hitem : m.outline.itemCodec? = some s.codec := by
    refine hregular.itemCodec ?_
    rw [← realizes.outline, Term.codec_outline, (Items.ofTerm_eq_ok hs).1]
    rfl
  obtain ⟨q, hq⟩ := sequel_of_apply (fit.congr same) (regular.of_scopes_eq same) chained.2
    apart.2 lambdas values hop chained.1.1 happlied
  rw [Context.outlines_congr same] at hq
  obtain ⟨m', hm', houtline⟩ : ∃ m', m.apply? engine call.name
      (callOperands engine registry other? c.outlines call) = some m' ∧
      m'.outline = .stored q.codec := by
    rw [callOperands_eq]
    exact ⟨_, Option.bind_eq_some_iff.mpr ⟨_, hitem, Option.bind_eq_some_iff.mpr ⟨q, hq, rfl⟩⟩,
      rfl⟩
  refine ⟨m', ?_, houtline ▸ .stored _⟩
  rw [meaning?]
  simp [hm, hm']

-- By recursion on expressions, as they are bound. A meaning alone would not carry the
-- recursion: that it is regular is what the calls and members around it rely on.
mutual
/-- **Every expression of chains that is bound has a meaning.** -/
theorem meant (laws : Laws engine registry other?) :
    (e : Expr) → e.Meant engine registry other?
  | .const v type => by
      intro vars c t c' chained _ _ _ h
      cases hcodec : registry.codec? type with
      | none => simp [bind, hcodec] at h
      | some codec =>
        have regular : (Outline.ofShape (.constant v codec)).Regular := by
          cases v with
          | array items => exact .stored codec
          | _ => exact .ofShape_constant _ (by simpa [Expr.chained, hcodec] using chained)
        exact ⟨_, by rw [meaning?, hcodec]; rfl, regular⟩
  | .param name => by
      intro vars c t c' _ _ _ regular h
      obtain ⟨hlookup, -⟩ := BindM.yields_lookup.mp h
      exact ⟨_, by rw [meaning?, Context.outlines, hlookup]; rfl, regular name t hlookup⟩
  | .member target name => by
      intro vars c t c' chained apart fit regular h
      simp only [bind, BindM.yields_bind] at h
      obtain ⟨bound, c₁, htarget, h⟩ := h
      obtain ⟨m, hm, hregular⟩ := meant laws target chained apart fit regular htarget
      obtain ⟨-, realizes⟩ := sound laws target apart fit hm htarget
      cases hmember : bound.member registry name with
      | none => simp [hmember] at h
      | some u =>
        obtain ⟨read, hread, -⟩ := realizes.member hmember
        exact ⟨_, by simp [meaning?, hm, hread]; rfl, hregular.member hread⟩
  | .unary op operand => by
      intro vars c t c' chained apart fit regular h
      simp only [bind, BindM.yields_bind] at h
      obtain ⟨u, c₁, hoperand, -⟩ := h
      obtain ⟨m, hm, hregular⟩ := meant laws operand chained apart fit regular hoperand
      exact ⟨_, by simp [meaning?, hm]; rfl, hregular.unary op⟩
  | .binary op left right => by
      intro vars c t c' chained apart fit regular h
      rw [Expr.chained, Bool.and_eq_true] at chained
      rw [Expr.apart, Bool.and_eq_true] at apart
      simp only [bind, BindM.yields_bind] at h
      obtain ⟨l, c₁, hleft, r, c₂, hright, -⟩ := h
      obtain ⟨ml, hml, hregular⟩ := meant laws left chained.1 apart.1 fit regular hleft
      obtain ⟨same, -⟩ := sound laws left apart.1 fit hml hleft
      obtain ⟨mr, hmr, -⟩ :=
        (meant laws right).of_scopes_eq chained.2 apart.2 fit regular same hright
      exact ⟨_, by simp [meaning?, hml, hmr]; rfl, hregular.binary op⟩
  | .cond test ifTrue ifFalse => by
      intro vars c t c' chained apart fit regular h
      rw [Expr.chained, Bool.and_eq_true, Bool.and_eq_true] at chained
      rw [Expr.apart, Bool.and_eq_true, Bool.and_eq_true] at apart
      simp only [bind, BindM.yields_bind] at h
      obtain ⟨u, c₁, htest, yes, c₂, hyes, no, c₃, hno, -⟩ := h
      obtain ⟨mt, hmt, -⟩ := meant laws test chained.1.1 apart.1.1 fit regular htest
      obtain ⟨same, -⟩ := sound laws test apart.1.1 fit hmt htest
      obtain ⟨my, hmy, hyregular⟩ :=
        (meant laws ifTrue).of_scopes_eq chained.1.2 apart.1.2 fit regular same hyes
      obtain ⟨same', -⟩ := (sound laws ifTrue).of_scopes_eq apart.1.2 fit hmy same hyes
      obtain ⟨mn, hmn, hnregular⟩ :=
        (meant laws ifFalse).of_scopes_eq chained.2 apart.2 fit regular same' hno
      exact ⟨_, by simp [meaning?, hmt, hmy, hmn]; rfl, hyregular.cond hnregular⟩
  | .new members => by
      intro vars c t c' chained apart fit regular h
      simp only [bind, BindM.yields_bind] at h
      obtain ⟨bound, c₁, hmembers, -⟩ := h
      obtain ⟨ms, hms, hregular⟩ :=
        meant_members laws members chained apart fit regular rfl hmembers
      refine ⟨_, by simp [meaning?, hms]; rfl, .record ?_⟩
      intro m hm
      obtain ⟨m', hm', rfl⟩ := List.mem_map.mp hm
      exact hregular m' hm'
  | .index array position => by
      intro vars c t c' chained apart fit regular h
      rw [Expr.chained, Bool.and_eq_true] at chained
      rw [Expr.apart, Bool.and_eq_true] at apart
      simp only [bind, BindM.yields_bind] at h
      obtain ⟨a, c₁, harray, h⟩ := h
      obtain ⟨ma, hma, -⟩ := meant laws array chained.1 apart.1 fit regular harray
      obtain ⟨same, realizes⟩ := sound laws array apart.1 fit hma harray
      split at h
      · rename_i isArray
        simp only [BindM.yields_bind] at h
        obtain ⟨p, c₂, hposition, -⟩ := h
        obtain ⟨mp, hmp, -⟩ :=
          (meant laws position).of_scopes_eq chained.2 apart.2 fit regular same hposition
        rw [← Term.codec_outline, realizes.outline] at isArray
        exact ⟨_, by simp [meaning?, hma, hmp, isArray]; rfl, .stored _⟩
      · exact absurd h BindM.not_yields_unsupported
  | .call source ⟨declaringType, name, types, arguments⟩ =>
      meant_call laws (meant laws source)
        (fun e he => (meant_arguments laws arguments e he).1)
        (fun e he => (meant_arguments laws arguments e he).2)
  | .lambda parameters body => by
      intro vars c t c' _ _ _ _ h
      exact absurd h BindM.not_yields_unsupported

theorem meant_members (laws : Laws engine registry other?) :
    (members : List (String × Expr)) →
    ∀ ⦃vars : List String⦄ ⦃c c₀ c' : Context⦄ ⦃text : String⦄
      ⦃bound bound' : UniqueMap String Term⦄,
    membersChained registry members = true → membersApart vars members = true →
    c.Fit vars → (c.Every fun t => t.outline.Regular) → c₀.scopes = c.scopes →
    (bindMembers registry text bound members).Yields c₀ bound' c' →
    ∃ ms, memberMeanings? engine registry other? c.outlines members = some ms ∧
      ∀ m ∈ ms, m.2.outline.Regular
  | [] => fun _ _ _ _ _ _ _ _ _ _ _ _ _ => ⟨[], rfl, nofun⟩
  | (name, e) :: rest => by
      intro vars c c₀ c' text bound bound' chained apart fit regular same h
      rw [membersChained, Bool.and_eq_true] at chained
      rw [membersApart, Bool.and_eq_true] at apart
      rw [bindMembers, BindM.yields_bind] at h
      obtain ⟨t, c₁, ht, h⟩ := h
      obtain ⟨m, hm, hregular⟩ := (meant laws e).of_scopes_eq chained.1 apart.1 fit regular same ht
      obtain ⟨same₁, -⟩ := (sound laws e).of_scopes_eq apart.1 fit hm same ht
      cases hinsert : bound.insert name t with
      | error taken => simp [hinsert] at h
      | ok bound₁ =>
        simp only [hinsert] at h
        obtain ⟨ms, hms, more⟩ := meant_members laws rest chained.2 apart.2 fit regular same₁ h
        exact ⟨(name, m) :: ms, by simp [memberMeanings?, hm, hms],
          List.forall_mem_cons.mpr ⟨hregular, more⟩⟩

theorem meant_body (laws : Laws engine registry other?) :
    (e : Expr) → ∀ parameter body, e = .lambda [parameter] body →
    body.Meant engine registry other?
  | .lambda parameters body => by
      rintro parameter body' ⟨⟩
      exact meant laws body
  | .const _ _ | .param _ | .member _ _ | .unary _ _ | .binary _ _ _ | .cond _ _ _ | .new _
  | .index _ _ | .call _ _ => nofun

theorem meant_arguments (laws : Laws engine registry other?) :
    (arguments : List Expr) → ∀ e ∈ arguments,
    e.Meant engine registry other? ∧ ∀ parameter body, e = .lambda [parameter] body →
      body.Meant engine registry other?
  | [] => nofun
  | e :: rest => List.forall_mem_cons.mpr ⟨⟨meant laws e, meant_body laws e⟩,
      meant_arguments laws rest⟩
end

end Expr

end QueryPipeline
