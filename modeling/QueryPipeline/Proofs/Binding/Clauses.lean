import Mathlib.Data.List.Nodup
import QueryPipeline.Compile
import QueryPipeline.Proofs.Binding.Expression
import QueryPipeline.Proofs.Semantics.Stage

/-!
Binding a query keeps its meaning, as far as its clauses filter, project, skip and take
(`Query.values_of_bound`). While clauses are bound the values of the query are spread over three
parts of the pipeline: the rows that its stages give, the window that is still to be written out,
and the projector that reads the value of a row. `Denotes` ties the three to the values that the
clauses so far stand for; each clause keeps it.

Offsets of windows saturate, so skipping is kept only up to the greatest offset: the rows or the
skipped elements must be countable.
-/

namespace QueryPipeline

variable {engine : Engine} {registry : Registry}

/-! ### Lambdas over rows -/

/-- The context in which the body of a lambda is bound. -/
def Context.ofParameter (minted : Nat) (parameter : String) (t : Term) : Context :=
  { scopes := Scopes.push {} [(parameter, t)], minted }

namespace Context

variable {minted : Nat} {parameter : String} {t : Term}

theorem lookup_ofParameter :
    (ofParameter minted parameter t).scopes.lookup =
      Clause.bindOnly parameter (some t) := by
  funext name
  by_cases h : name = parameter
  · simp [ofParameter, Scopes.push, Scopes.lookup, Clause.bindOnly, h]
  · have h' : parameter ≠ name := Ne.symm h
    simp [ofParameter, Scopes.push, Scopes.lookup, Clause.bindOnly, h, h']

theorem shapes_ofParameter (minted : Nat) :
    (ofParameter minted parameter t).shapes = Clause.bindOnly parameter (some t.shape) := by
  funext name
  unfold shapes
  rw [lookup_ofParameter, Clause.bindOnly, Clause.bindOnly]
  split <;> rfl

theorem values_ofParameter (env : Env) :
    (ofParameter minted parameter t).values engine env =
      Clause.bindOnly parameter (t.eval engine env) := by
  funext name
  unfold values
  rw [lookup_ofParameter, Clause.bindOnly, Clause.bindOnly]
  split <;> rfl

theorem readable_ofParameter (h : t.Readable) :
    (ofParameter minted parameter t).Readable := by
  intro name u hu
  rw [lookup_ofParameter, Clause.bindOnly] at hu
  split at hu
  · obtain rfl := Option.some.inj hu
    exact h
  · cases hu

end Context

/-- A bound body means what the body of a lambda means for the values that a
projector reads. -/
structure MeansBody (engine : Engine) (registry : Registry) (projector : Term)
    (parameter : String) (body : Expr) (t : Term) : Prop where
  readable : t.Readable
  shape : body.shape? registry (Clause.bindOnly parameter (some projector.shape)) =
    some t.shape
  value (row : Value) :
    body.value engine registry (Clause.bindOnly parameter (some projector.shape))
      (Clause.bindOnly parameter (projector.valueIn engine row)) = t.valueIn engine row

/-! ### Calls -/

namespace Call

/-- Arguments with the steps that bind them. -/
theorem argument_bindArguments {call : Call Expr} {es : List Expr} (h : call.arguments = es) :
    (Expr.bindArguments registry call).arguments = Expr.bindEach registry es := by
  obtain ⟨declaringType, name, types, arguments⟩ := call
  subst h
  rfl

/-- The lambda that the first argument of a call is, and its bound body. -/
theorem lambda_yields {σ ρ : Type} [Sequence σ ρ] {call : Call Expr} {e : Expr}
    {rest : List Expr} {s : σ} {c c' : Context} {l : Lambda}
    (first : call.arguments = e :: rest)
    (h : ((Expr.bindArguments registry call).lambda s).Yields c l c') :
    ∃ parameter body c₁, e = .lambda [parameter] body ∧ l.var = serverVar parameter ∧
      (body.bind registry).Yields
        { c with scopes := c.scopes.push [(parameter, Sequence.item s l.var)] } l.body c₁ ∧
      { c₁ with scopes := c₁.scopes.pop } = c' := by
  simp only [lambda, argument, argument_bindArguments first, BindM.yields_bind] at h
  obtain ⟨a, c₀, ha, h⟩ := h
  cases e with
  | lambda parameters body =>
    simp only [Expr.bindEach, List.getElem?_cons_zero, BindM.yields_pure] at ha
    obtain ⟨rfl, rfl⟩ := ha
    unfold Argument.bindElement at h
    split at h
    · rename_i parameter body' bindBody heq
      cases heq
      simp only [BindM.yields_bind, BindM.yields_within, BindM.yields_pure] at h
      obtain ⟨t, c₂, ⟨c₁, hbody, rfl⟩, rfl, rfl⟩ := h
      exact ⟨parameter, body, c₁, rfl, rfl, hbody, rfl⟩
    · exact absurd h BindM.not_yields_unsupported
  | _ =>
    simp only [Expr.bindEach, List.getElem?_cons_zero, BindM.yields_pure] at ha
    obtain ⟨rfl, rfl⟩ := ha
    simp [Argument.bindElement] at h

/-- The constant that the only argument of a call is, as a number of elements. -/
theorem count_yields {call : Call Expr} {e : Expr} {c c' : Context} {n : Nat}
    (single : call.arguments = [e])
    (h : (Expr.bindArguments registry call).count.Yields c n c') :
    c = c' ∧ ∃ v type width i, e = .const v type ∧ v.integer? = some (width, i) ∧
      ¬ i < 0 ∧ i.toNat = n := by
  have ofInt {call : Call Argument} {i : Int} {n : Nat}
      (h : (count.ofInt call i).Yields c n c') : c = c' ∧ ¬ i < 0 ∧ i.toNat = n := by
    unfold count.ofInt at h
    split at h
    · simp at h
    · rename_i nonneg
      rw [BindM.yields_pure] at h
      exact ⟨h.2, nonneg, h.1⟩
  simp only [count, argument, argument_bindArguments single, BindM.yields_bind] at h
  obtain ⟨a, c₀, ha, h⟩ := h
  cases e with
  | const v type =>
    simp only [Expr.bindEach, List.getElem?_cons_zero, BindM.yields_pure] at ha
    obtain ⟨rfl, rfl⟩ := ha
    cases v with
    | int32 i =>
      obtain ⟨rfl, nonneg, rfl⟩ := ofInt h
      exact ⟨rfl, _, _, _, _, rfl, rfl, nonneg, rfl⟩
    | int64 i =>
      obtain ⟨rfl, nonneg, rfl⟩ := ofInt h
      exact ⟨rfl, _, _, _, _, rfl, rfl, nonneg, rfl⟩
    | _ => simp at h
  | _ =>
    simp only [Expr.bindEach, List.getElem?_cons_zero, BindM.yields_pure] at ha
    obtain ⟨rfl, rfl⟩ := ha
    simp at h

section Optional

variable {σ ρ : Type} [Sequence σ ρ] {call : Call Expr} {s : σ} {c c' : Context}
  {o : Option Lambda}

theorem optionalLambda_yields_nil (no_argument : call.arguments = [])
    (h : ((Expr.bindArguments registry call).optionalLambda s).Yields c o c') :
    o = none ∧ c = c' := by
  obtain ⟨declaringType, name, types, arguments⟩ := call
  obtain rfl : arguments = [] := no_argument
  obtain ⟨rfl, rfl⟩ := BindM.yields_pure.mp h
  exact ⟨rfl, rfl⟩

/-- A lambda that may be left out is the lambda, if there is an argument. -/
theorem optionalLambda_yields {e : Expr} (single : call.arguments = [e])
    (h : ((Expr.bindArguments registry call).optionalLambda s).Yields c o c') :
    ∃ l, o = some l ∧ ((Expr.bindArguments registry call).lambda s).Yields c l c' := by
  obtain ⟨declaringType, name, types, arguments⟩ := call
  obtain rfl : arguments = [e] := single
  obtain ⟨a, ha⟩ : ∃ a, Expr.bindEach registry [e] = [a] := by
    cases e <;> exact ⟨_, rfl⟩
  simp only [Expr.bindArguments, ha, optionalLambda, BindM.yields_map] at h
  obtain ⟨l, hl, rfl⟩ := h
  refine ⟨l, rfl, ?_⟩
  simp only [Expr.bindArguments, ha, lambda, argument, List.getElem?_cons_zero,
    BindM.yields_bind, BindM.yields_pure]
  exact ⟨a, c, ⟨rfl, rfl⟩, hl⟩

/-- An argument that is bound as a value. -/
theorem value_yields {e : Expr} {t : Term} (single : call.arguments = [e])
    (h : (Expr.bindArguments registry call).value.Yields c t c') :
    (e.bind registry).Yields c t c' := by
  simp only [value, argument, argument_bindArguments single, BindM.yields_bind] at h
  obtain ⟨a, c₀, ha, h⟩ := h
  cases e with
  | lambda parameters body =>
    simp only [Expr.bindEach, List.getElem?_cons_zero, BindM.yields_pure] at ha
    obtain ⟨rfl, rfl⟩ := ha
    simp [Argument.bindValue] at h
  | _ =>
    simp only [Expr.bindEach, List.getElem?_cons_zero, BindM.yields_pure] at ha
    obtain ⟨rfl, rfl⟩ := ha
    exact h

end Optional

end Call

/-- A body that is bound over a projector means the same. -/
theorem MeansBody.of_bind (exact : engine.Exact) {projector t : Term} {parameter : String}
    {body : Expr} {minted : Nat} {c : Context} (readable : projector.Readable)
    (plain : body.isPlain = true)
    (h : (body.bind registry).Yields (.ofParameter minted parameter projector) t c) :
    c = .ofParameter minted parameter projector ∧
      MeansBody engine registry projector parameter body t := by
  obtain ⟨rfl, represents⟩ := Expr.represents_of_bind exact
    (Context.readable_ofParameter readable) body plain h
  refine ⟨rfl, represents.readable, ?_, ?_⟩
  · rw [← Context.shapes_ofParameter minted]
    exact represents.shape
  · intro row
    have meaning := represents.value ⟨row, []⟩
    rw [Context.shapes_ofParameter, Context.values_ofParameter] at meaning
    exact meaning

/-- The lambda of a plain call has a plain body. -/
theorem Call.body_of_isPlain {call : Call Expr} {e : Expr} (plain : call.isPlain = true)
    (single : call.arguments = [e]) (parameter : String) (body : Expr)
    (h : e = .lambda [parameter] body) : body.isPlain = true := by
  simp only [isPlain, single, h, Bool.and_eq_true] at plain
  simpa using plain.2

/-- The lambda of a clause over rows is bound to a body that means the same, and the
context is left as it was. -/
theorem MeansBody.of_lambda (exact : engine.Exact) {call : Call Expr} {e : Expr}
    {p : Pipeline} {c c' : Context} {l : Lambda} (single : call.arguments = [e])
    (plain : ∀ parameter body, e = .lambda [parameter] body → body.isPlain = true)
    (closed : c.scopes = {}) (readable : p.projector.Readable)
    (h : ((Expr.bindArguments registry call).lambda p).Yields c l c') :
    c = c' ∧ ∃ parameter body, e = .lambda [parameter] body ∧
      MeansBody engine registry p.projector parameter body l.body := by
  obtain ⟨parameter, body, c₁, rfl, -, hbody, rfl⟩ := Call.lambda_yields single h
  obtain ⟨scopes, minted⟩ := c
  obtain rfl : scopes = {} := closed
  obtain ⟨rfl, means⟩ := of_bind exact readable (plain parameter body rfl) hbody
  exact ⟨rfl, parameter, body, rfl, means⟩

/-! ### The parts of a pipeline -/

/-- The rows that a pipeline leaves, its paging written out. -/
def Pipeline.rows (engine : Engine) (p : Pipeline) (rows : List Value) : List Value :=
  Stage.runAll engine p.flush.stages rows

/-- The values that a pipeline reads from its rows. -/
def Pipeline.values (engine : Engine) (p : Pipeline) (rows : List Value) :
    List (Option Value) :=
  (p.rows engine rows).map (p.projector.valueIn engine)

theorem Pipeline.rows_eq (p : Pipeline) (rows : List Value) :
    p.rows engine rows = p.paging.apply (Stage.runAll engine p.stages rows) := by
  rw [Pipeline.rows, flush, Stage.runAll_append, Stage.runAll_bounds]

theorem Window.length_apply_le {α : Type} (w : Window) (elements : List α) :
    (w.apply elements).length ≤ elements.length := by
  unfold Window.apply
  cases w.limit with
  | none => simp
  | some limit =>
    simp only [List.length_take, List.length_drop]
    omega

/-- The pipeline stands for the values that clauses have come to, with a number of
elements yet to be skipped. -/
structure Denotes (engine : Engine) (rows : List Value) (toSkip : Nat) (p : Pipeline)
    (vs : Values) : Prop where
  readable : p.projector.Readable
  shape : vs.shape = p.projector.shape
  items : vs.items = p.values engine rows
  /-- No stage adds rows. -/
  shrinks : (Stage.runAll engine p.stages rows).length ≤ rows.length
  /-- Offsets do not saturate, or past the rows only. -/
  countable : rows.length ≤ Window.maxOffset ∨ p.paging.skipped + toSkip ≤ Window.maxOffset

namespace Denotes

variable {rows : List Value} {toSkip n : Nat} {p : Pipeline} {vs : Values}

/-- The documents of a collection are read as they are. -/
theorem ofRoot (codec : Codec)
    (countable : rows.length ≤ Window.maxOffset ∨ toSkip ≤ Window.maxOffset) :
    Denotes engine rows toSkip (.ofRoot codec) ⟨.stored codec, rows.map some⟩ where
  readable := .other (by simp [Pipeline.ofRoot, Term.root]) rfl
  shape := rfl
  items := rfl
  shrinks := Nat.le_refl _
  countable := by simpa [Pipeline.ofRoot] using countable

/-- An open sort does not matter. -/
theorem closeSort (h : Denotes engine rows toSkip p vs) :
    Denotes engine rows toSkip { p with sortOpen := false } vs :=
  ⟨h.readable, h.shape, h.items, h.shrinks, h.countable⟩

theorem skip (h : Denotes engine rows (n + toSkip) p vs) :
    Denotes engine rows toSkip { p with paging := p.paging.skip n }
      { vs with items := vs.items.drop n } where
  readable := h.readable
  shape := h.shape
  items := by
    have few : (Stage.runAll engine p.stages rows).length ≤ Window.maxOffset ∨
        p.paging.skipped + n ≤ Window.maxOffset := by
      have := h.shrinks
      have := h.countable
      omega
    rw [h.items, Pipeline.values, Pipeline.values, Pipeline.rows_eq, Pipeline.rows_eq,
      Window.apply_skip _ _ _ few, List.map_drop]
  shrinks := h.shrinks
  countable := by
    have advanced := p.paging.skipped_skip_le n
    show rows.length ≤ Window.maxOffset ∨
      (p.paging.skip n).skipped + toSkip ≤ Window.maxOffset
    rcases h.countable with few | few
    · exact .inl few
    · exact .inr (by omega)

theorem take (h : Denotes engine rows toSkip p vs) :
    Denotes engine rows toSkip { p with paging := p.paging.take n }
      { vs with items := vs.items.take n } where
  readable := h.readable
  shape := h.shape
  items := by
    rw [h.items, Pipeline.values, Pipeline.values, Pipeline.rows_eq, Pipeline.rows_eq,
      Window.apply_take, List.map_take]
  shrinks := h.shrinks
  countable := h.countable

/-- A filter writes the paging out and reads its condition by the projector. -/
theorem filter {parameter : String} {predicate : Expr} {t : Term}
    (h : Denotes engine rows toSkip p vs)
    (means : MeansBody engine registry p.projector parameter predicate t) :
    ∃ vs', Clause.apply engine registry vs (.filter parameter predicate) = some vs' ∧
      Denotes engine rows toSkip (p.filter t) vs' := by
  have hrows : (p.filter t).rows engine rows =
      (p.rows engine rows).filter fun row => engine.isTrue (t.valueIn engine row) := by
    rw [Pipeline.rows_eq]
    exact Stage.runAll_append ..
  refine ⟨{ vs with items := (p.filter t).values engine rows }, ?_, h.readable, h.shape, rfl,
    ?_, ?_⟩
  · simp only [Clause.apply, h.shape, means.shape, h.items, Pipeline.values,
      List.filter_map, hrows]
    simp [Function.comp_def, means.value, Pipeline.filter, Pipeline.push, Pipeline.flush]
  · calc (Stage.runAll engine (p.filter t).stages rows).length
        = ((p.filter t).rows engine rows).length := by rw [Pipeline.rows_eq]; rfl
      _ ≤ (p.rows engine rows).length := by rw [hrows]; exact List.length_filter_le ..
      _ ≤ (Stage.runAll engine p.stages rows).length := by
          rw [Pipeline.rows_eq]
          exact Window.length_apply_le ..
      _ ≤ rows.length := h.shrinks
  · have := h.countable
    simp only [Pipeline.filter, Pipeline.push, Pipeline.flush]
    omega

/-- A projection replaces the projector. -/
theorem project {parameter : String} {selector : Expr} {t : Term}
    (h : Denotes engine rows toSkip p vs)
    (means : MeansBody engine registry p.projector parameter selector t) :
    ∃ vs', Clause.apply engine registry vs (.project parameter selector) = some vs' ∧
      Denotes engine rows toSkip { p with projector := t } vs' := by
  refine ⟨⟨t.shape, { p with projector := t }.values engine rows⟩, ?_, means.readable, rfl, rfl,
    h.shrinks, h.countable⟩
  simp only [Clause.apply, h.shape, means.shape, h.items, Pipeline.values, List.map_map]
  simp [Function.comp_def, means.value, Pipeline.rows, Pipeline.flush]

/-- An operator on a pipeline gives a pipeline that stands for the values after the
clause of its call. -/
def Advances (engine : Engine) (registry : Registry) (rows : List Value) (toSkip : Nat)
    (vs : Values) (call : Call Expr) (applied : Applied Pipeline Pipeline) : Prop :=
  ∃ p' vs', applied = .sequence p' ∧
    (Clause.ofCall? call).bind (Clause.apply engine registry vs) = some vs' ∧
    Denotes engine rows toSkip p' vs'

section Operators

variable {call : Call Expr} {e : Expr} {c c' : Context} {applied : Applied Pipeline Pipeline}

theorem Advances.of_clause {clause : Clause} {p' : Pipeline}
    (hclause : Clause.ofCall? call = some clause)
    (h : ∃ vs', Clause.apply engine registry vs clause = some vs' ∧
      Denotes engine rows toSkip p' vs') :
    Advances engine registry rows toSkip vs call (.sequence p') := by
  obtain ⟨vs', hvs, hdenotes⟩ := h
  refine ⟨p', vs', rfl, ?_, hdenotes⟩
  rw [hclause]
  exact hvs

theorem step_filter (exact : engine.Exact) (plain : call.isPlain = true)
    (closed : c.scopes = {}) (named : call.name = "Where") (single : call.arguments = [e])
    (h : Denotes engine rows ((Clause.ofCall? call).elim 0 Clause.skipped + toSkip) p vs)
    (happly : (Operator.filter.apply registry p (Expr.bindArguments registry call)).Yields
      c applied c') :
    c = c' ∧ Advances engine registry rows toSkip vs call applied := by
  simp only [Operator.apply, Operator.next, BindM.yields_bind, BindM.yields_ofExcept]
    at happly
  obtain ⟨l, c₁, hlambda, happlied, rfl⟩ := happly
  cases happlied
  replace h := h.closeSort
  obtain ⟨rfl, parameter, body, rfl, means⟩ :=
    MeansBody.of_lambda exact single (Call.body_of_isPlain plain single) closed h.readable hlambda
  have hclause : Clause.ofCall? call = some (.filter parameter body) := by
    simp [Clause.ofCall?, single, named]
  simp only [hclause, Option.elim_some, Clause.skipped, Nat.zero_add] at h
  exact ⟨rfl, .of_clause hclause (h.filter means)⟩

theorem step_project (exact : engine.Exact) (plain : call.isPlain = true)
    (closed : c.scopes = {}) (named : call.name = "Select") (single : call.arguments = [e])
    (h : Denotes engine rows ((Clause.ofCall? call).elim 0 Clause.skipped + toSkip) p vs)
    (happly : (Operator.project.apply registry p (Expr.bindArguments registry call)).Yields
      c applied c') :
    c = c' ∧ Advances engine registry rows toSkip vs call applied := by
  simp only [Operator.apply, Operator.next, BindM.yields_bind, BindM.yields_ofExcept]
    at happly
  obtain ⟨l, c₁, hlambda, happlied, rfl⟩ := happly
  cases happlied
  replace h := h.closeSort
  obtain ⟨rfl, parameter, body, rfl, means⟩ :=
    MeansBody.of_lambda exact single (Call.body_of_isPlain plain single) closed h.readable hlambda
  have hclause : Clause.ofCall? call = some (.project parameter body) := by
    simp [Clause.ofCall?, single, named]
  simp only [hclause, Option.elim_some, Clause.skipped, Nat.zero_add] at h
  exact ⟨rfl, .of_clause hclause (h.project means)⟩

theorem step_skip (named : call.name = "Skip") (single : call.arguments = [e])
    (h : Denotes engine rows ((Clause.ofCall? call).elim 0 Clause.skipped + toSkip) p vs)
    (happly : (Operator.skip.apply registry p (Expr.bindArguments registry call)).Yields
      c applied c') :
    c = c' ∧ Advances engine registry rows toSkip vs call applied := by
  simp only [Operator.apply, Operator.next, BindM.yields_bind, BindM.yields_ofExcept]
    at happly
  obtain ⟨n, c₁, hcount, happlied, rfl⟩ := happly
  cases happlied
  obtain ⟨rfl, v, type, width, i, rfl, hv, nonneg, rfl⟩ := Call.count_yields single hcount
  have hclause : Clause.ofCall? call = some (.skip i.toNat) := by
    simp [Clause.ofCall?, single, named, hv, nonneg]
  rw [hclause] at h
  exact ⟨rfl, .of_clause hclause ⟨_, rfl, h.closeSort.skip⟩⟩

theorem step_take (named : call.name = "Take") (single : call.arguments = [e])
    (h : Denotes engine rows ((Clause.ofCall? call).elim 0 Clause.skipped + toSkip) p vs)
    (happly : (Operator.take.apply registry p (Expr.bindArguments registry call)).Yields
      c applied c') :
    c = c' ∧ Advances engine registry rows toSkip vs call applied := by
  simp only [Operator.apply, Operator.next, BindM.yields_bind, BindM.yields_ofExcept]
    at happly
  obtain ⟨n, c₁, hcount, happlied, rfl⟩ := happly
  cases happlied
  obtain ⟨rfl, v, type, width, i, rfl, hv, nonneg, rfl⟩ := Call.count_yields single hcount
  have hclause : Clause.ofCall? call = some (.take i.toNat) := by
    simp [Clause.ofCall?, single, named, hv, nonneg]
  simp only [hclause, Option.elim_some, Clause.skipped, Nat.zero_add] at h
  exact ⟨rfl, .of_clause hclause ⟨_, rfl, h.closeSort.take⟩⟩

end Operators

/-- **One clause** keeps what a pipeline stands for. -/
theorem step (exact : engine.Exact) {call : Call Expr} {op : Operator} {c c' : Context}
    {applied : Applied Pipeline Pipeline} (plain : call.isPlain = true)
    (hop : Operator.ofCall call = .ok op) (closed : c.scopes = {})
    (h : Denotes engine rows ((Clause.ofCall? call).elim 0 Clause.skipped + toSkip) p vs)
    (happly : (op.apply registry p (Expr.bindArguments registry call)).Yields c applied c') :
    c = c' ∧ Advances engine registry rows toSkip vs call applied := by
  obtain ⟨-, -, arity⟩ := Operator.ofCall_eq_ok_iff.mp hop
  -- A call has the operator of its name, and all four take one argument.
  have denoted := Operator.eq_of_ofCall hop
  have single (h' : op.arities = [1]) : ∃ e, call.arguments = [e] := by
    rw [h', List.mem_singleton] at arity
    exact List.length_eq_one_iff.mp arity
  have clauses : call.name = "Where" ∨ call.name = "Select" ∨ call.name = "Skip" ∨
      call.name = "Take" := by
    simp only [Call.isPlain, Bool.and_eq_true, List.contains_iff_mem] at plain
    simpa using plain.1
  rcases clauses with hname | hname | hname | hname
  · obtain rfl := denoted .filter hname
    obtain ⟨e, he⟩ := single rfl
    exact step_filter exact plain closed hname he h happly
  · obtain rfl := denoted .project hname
    obtain ⟨e, he⟩ := single rfl
    exact step_project exact plain closed hname he h happly
  · obtain rfl := denoted .skip hname
    obtain ⟨e, he⟩ := single rfl
    exact step_skip hname he h happly
  · obtain rfl := denoted .take hname
    obtain ⟨e, he⟩ := single rfl
    exact step_take hname he h happly

/-- **All clauses** keep what a pipeline stands for. -/
theorem run (exact : engine.Exact) {calls : List (Call Expr)} {c c' : Context}
    {p' : Pipeline} (plain : ∀ call ∈ calls, call.isPlain = true) (closed : c.scopes = {})
    (h : Denotes engine rows (Clause.totalSkipped calls) p vs)
    (hbind : (Query.bindClauses registry p calls).Yields c p' c') :
    ∃ vs', Clause.applyAll engine registry vs calls = some vs' ∧
      Denotes engine rows 0 p' vs' := by
  induction calls generalizing p vs c with
  | nil =>
    simp only [Query.bindClauses, BindM.yields_pure] at hbind
    obtain ⟨rfl, rfl⟩ := hbind
    exact ⟨vs, rfl, h⟩
  | cons call rest ih =>
    simp only [Query.bindClauses, BindM.yields_bind, BindM.yields_ofExcept] at hbind
    obtain ⟨op, c₁, ⟨hop, rfl⟩, applied, c₂, happly, hrest⟩ := hbind
    obtain ⟨rfl, p₁, vs₁, rfl, hvs₁, h₁⟩ :=
      step exact (plain call List.mem_cons_self) hop closed h happly
    obtain ⟨vs', hvs', h'⟩ :=
      ih (fun call hcall => plain call (List.mem_cons_of_mem _ hcall)) closed h₁ hrest
    refine ⟨vs', ?_, h'⟩
    rw [Clause.applyAll, List.foldlM_cons]
    exact Option.bind_eq_some_iff.mpr ⟨vs₁, hvs₁, hvs'⟩

end Denotes

/-- **Binding keeps the meaning of a query** that filters, projects, skips and takes:
the values that the bound pipeline reads from its rows are those that the clauses make
of the rows one after the other. -/
theorem Query.values_of_bound (exact : engine.Exact) {q : Query} {p : Pipeline}
    {context : Context} {rows : List Value} (plain : q.isPlain = true)
    (countable : rows.length ≤ Window.maxOffset ∨
      Clause.totalSkipped q.clauses ≤ Window.maxOffset)
    (h : q.bound registry = (.ok p, context)) :
    q.values? engine registry rows = some (p.values engine rows) := by
  replace h : (q.bind registry).Yields {} p context := h
  unfold Query.bind at h
  cases hcodec : registry.codec? q.itemType with
  | none => simp [hcodec] at h
  | some codec =>
    simp only [hcodec] at h
    obtain ⟨vs, hvs, hdenotes⟩ :=
      Denotes.run exact (List.all_eq_true.mp plain) rfl (.ofRoot codec countable) h
    simp [Query.values?, hcodec, hvs, hdenotes.items]

/-! ### Two queries over people -/

/-- People have a name and an age. -/
def people : Registry :=
  .ofList [.mk "Person" none
    [.mk "Name" "name" (.static .string), .mk "Age" "age" (.static .int32)]]

/-- The names of all adults but the first one, through a record. -/
def adultNames : Query where
  collection := "people"
  itemType := .document "Person"
  clauses := [
    ⟨"Queryable", "Where", [],
      [.lambda ["x"] (.binary .gte (.member (.param "x") "Age") (.const (.int32 18) .int32))]⟩,
    ⟨"Queryable", "Select", [], [.lambda ["x"] (.new [("Who", .member (.param "x") "Name")])]⟩,
    ⟨"Queryable", "Skip", [], [.const (.int32 1) .int32]⟩,
    ⟨"Queryable", "Select", [], [.lambda ["y"] (.member (.param "y") "Who")]⟩]

theorem adultNames_values :
    ∃ p context, adultNames.bound people = (.ok p, context) ∧
      adultNames.values? .folding people
          [.document [("name", .string "Ann"), ("age", .int32 31)],
            .document [("name", .string "Bob"), ("age", .int32 7)],
            .document [("name", .string "Cem"), ("age", .int32 44)]] =
        some (p.values .folding
          [.document [("name", .string "Ann"), ("age", .int32 31)],
            .document [("name", .string "Bob"), ("age", .int32 7)],
            .document [("name", .string "Cem"), ("age", .int32 44)]]) :=
  ⟨_, _, rfl, Query.values_of_bound Engine.exact_folding (by decide) (.inl (by decide)) rfl⟩

/-- Three skips, each of as many documents as a signed count can tell. -/
def greatSkips : Query where
  collection := "people"
  itemType := .document "Person"
  clauses := List.replicate 3
    ⟨"Queryable", "Skip", [], [.const (.int64 9223372036854775807) .int64]⟩

/-- Where neither the rows nor the skipped elements can be counted, the offset of the
pipeline stays at the greatest count and a row is left that the query skips. -/
theorem greatSkips_keep_a_row :
    ∃ p context, greatSkips.bound people = (.ok p, context) ∧
      greatSkips.values? .folding people
        (List.replicate (Window.maxOffset + 1) (.document [])) = some [] ∧
      p.values .folding (List.replicate (Window.maxOffset + 1) (.document [])) =
        [some (.document [])] := by
  have skipped (rows : List Value) : greatSkips.values? .folding people rows =
      some ((((rows.map some).drop 9223372036854775807).drop 9223372036854775807).drop
        9223372036854775807) := rfl
  have paged (projector : Term) (rows : List Value) :
      Pipeline.values .folding { projector, paging := ⟨Window.maxOffset, none⟩ } rows =
        (rows.drop Window.maxOffset).map (projector.valueIn .folding) := by
    rw [Pipeline.values, Pipeline.rows_eq]
    rfl
  refine ⟨{ projector := .root _, paging := ⟨Window.maxOffset, none⟩ }, {}, rfl, ?_, ?_⟩
  · rw [skipped, List.map_replicate, List.drop_replicate, List.drop_replicate,
      List.drop_replicate]
    rfl
  · rw [paged, List.drop_replicate, Nat.add_sub_cancel_left]
    rfl

end QueryPipeline
