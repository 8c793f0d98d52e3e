import QueryPipeline.Proofs.Binding.CallFree
import QueryPipeline.Proofs.Binding.Clauses

/-!
Groups that calls filter and map. Binding keeps a group apart in two parts, what counts as an
element and which elements count; a filter joins one condition more, a mapping replaces the
element, and neither touches the other part. So the group that a chain has come to always has
the elements that the chain gives on lists.

A lambda reads its element from a row of the group. Whatever else it reads has to be the same
for all these rows.
-/

namespace QueryPipeline

variable {engine : Engine} {registry : Registry}

/-! ### Filters and mappings -/

namespace GroupElements

variable {g g' : Group} {rows : List Value} {outer : Data} {call : Call Expr} {e : Expr}
  {c c' : Context} {l : Lambda}

/-- Of all parameters that lambdas of a call name, those around the call stand for the same on
every row. -/
def Steady (engine : Engine) (rows : List Value) (c : Context) (outer : Data)
    (names : List String) : Prop :=
  ∀ name ∈ names, ∀ row ∈ rows, c.data engine ⟨row, []⟩ name = outer name

theorem mapM_eq_some {α β : Type} {f : α → Option β} {f' : α → β} {as : List α}
    (h : ∀ a ∈ as, f a = some (f' a)) : as.mapM f = some (as.map f') := by
  induction as with
  | nil => rfl
  | cons a as ih =>
    rw [List.mapM_cons, h a List.mem_cons_self, ih fun b hb => h b (List.mem_cons_of_mem _ hb)]
    rfl

/-- **A lambda over the elements** gives for each of them what its bound body gives for the
row. -/
theorem map_of_lambda (exact : engine.Exact) (single : call.arguments = [e])
    (free : e.isCallFree = true) (steady : Steady engine rows c outer e.outerNames)
    (h : ((Expr.bindArguments registry call).lambda g).Yields c l c') :
    c = c' ∧ (g.elements engine rows).map? engine registry c.outlines outer e =
      some ({ g with element := l.body }.elements engine rows) := by
  obtain ⟨parameter, body, c₁, rfl, -, hbody, rfl⟩ := Call.lambda_yields single h
  obtain ⟨rfl, m, hm, stands⟩ := Expr.standsFor_of_bind exact body free hbody
  refine ⟨rfl, ?_⟩
  have scope : (c.push parameter g.element).outlines =
      Function.update c.outlines parameter (some g.element.outline) := Context.outlines_push
  have datum (row : Value) (hrow : row ∈ rows) :
      m.datum (Function.update outer parameter (some (g.element.datum engine ⟨row, []⟩))) =
        some (l.body.datum engine ⟨row, []⟩) := by
    refine stands.datum fun name hname => ?_
    change _ = (c.push parameter g.element).data engine ⟨row, []⟩ name
    rw [Context.data_push]
    by_cases own : name = parameter
    · rw [own, Function.update_self, Function.update_self]
    · rw [Function.update_of_ne own, Function.update_of_ne own]
      refine (steady name ?_ row hrow).symm
      exact List.mem_filter.mpr ⟨hname, by simpa using own⟩
  have data : (g.elements engine rows).data.mapM
      (fun d => m.datum (Function.update outer parameter (some d))) =
        some ({ g with element := l.body }.elements engine rows).data := by
    rw [Group.elements, List.mapM_map]
    exact mapM_eq_some fun row hrow => datum row (List.mem_filter.mp hrow).1
  have meaning : body.meaning? engine registry (fun _ _ => none)
      (Function.update c.outlines parameter (some (g.elements engine rows).outline)) = some m :=
    scope ▸ hm
  rw [map?, meaning]
  simp only [Option.bind_eq_bind, Option.bind_some, data]
  rw [← stands.outline]
  rfl

/-- What is left of images where another image passes a test. -/
theorem map_fst_filter_zip {α β γ : Type} (as : List α) (f : α → β) (f' : α → γ)
    (test : γ → Bool) : (((as.map f).zip (as.map f')).filter fun p => test p.2).map Prod.fst =
      (as.filter fun a => test (f' a)).map f := by
  rw [List.zip_map', List.filter_map, List.map_map]
  rfl

variable (isTrue_and : ∀ l r, engine.isTrue (engine.binary .and l r) =
  (engine.isTrue l && engine.isTrue r))
include isTrue_and

/-- One more condition on the elements that count. -/
theorem counts_filter (predicate : Term) (row : Value) :
    (g.filter predicate).counts engine row =
      (engine.isTrue (predicate.valueIn engine row) && g.counts engine row) := by
  unfold Group.counts Group.filter
  cases g.predicate with
  | none => exact (Bool.and_true _).symm
  | some before =>
    rw [Bool.and_comm]
    exact isTrue_and _ _

/-- **A predicate over the elements** leaves those that count when it is joined to the
condition of the group. -/
theorem filter_of_lambda (exact : engine.Exact) (single : call.arguments = [e])
    (free : e.isCallFree = true) (steady : Steady engine rows c outer e.outerNames)
    (h : ((Expr.bindArguments registry call).lambda g).Yields c l c') :
    c = c' ∧ (g.elements engine rows).filter? engine registry c.outlines outer e =
      some ((g.filter l.body).elements engine rows) := by
  obtain ⟨rfl, answers⟩ := map_of_lambda exact single free steady h
  refine ⟨rfl, ?_⟩
  have kept : (rows.filter (g.counts engine)).filter
      (fun row => engine.isTrue (l.body.datum engine ⟨row, []⟩).stored) =
        rows.filter ((g.filter l.body).counts engine) := by
    rw [List.filter_filter]
    congr 1
    funext row
    rw [Term.stored_datum, counts_filter isTrue_and]
    rfl
  rw [filter?, answers]
  refine congrArg some (congrArg (GroupElements.mk _) ?_)
  rw [← kept]
  exact map_fst_filter_zip (rows.filter (g.counts engine))
    (fun row => g.element.datum engine ⟨row, []⟩) (fun row => l.body.datum engine ⟨row, []⟩)
    fun d => engine.isTrue d.stored

end GroupElements

/-! ### Chains -/

/-- Calls filter and map a group: the elements it has come to are what the chain gives on
lists. -/
structure Group.Becomes (engine : Engine) (registry : Registry) (rows : List Value) (c : Context)
    (outer : Data) (g : Group) (chain : List (Call Expr)) (g' : Group) : Prop where
  stage : g'.stage = g.stage
  distinct : g'.distinct = g.distinct
  elements : (g.elements engine rows).afterAll? engine registry c.outlines outer chain =
    some (g'.elements engine rows)

namespace Group

variable {g g' : Group} {rows : List Value} {outer : Data} {call : Call Expr}
  {op : Operator} {c c' : Context}

/-- A call that filters or maps, by its operator. -/
theorem operator_of_narrowsOrMaps (plain : call.narrowsOrMaps = true)
    (hop : Operator.ofCall call = .ok op) :
    (op = .filter ∨ op = .project) ∧ ∃ e, call.arguments = [e] ∧ e.isCallFree = true := by
  obtain ⟨-, -, arity⟩ := Operator.ofCall_eq_ok_iff.mp hop
  simp only [Call.narrowsOrMaps, Bool.and_eq_true, List.contains_iff_mem, List.mem_cons,
    List.not_mem_nil, or_false] at plain
  obtain ⟨hname, free⟩ := plain
  have denoted := Operator.eq_of_ofCall hop
  have which : op = .filter ∨ op = .project :=
    hname.imp (denoted .filter) (denoted .project)
  refine ⟨which, ?_⟩
  have one : call.arguments.length = 1 := by
    rcases which with rfl | rfl <;> simpa [Operator.arities] using arity
  obtain ⟨e, he⟩ := List.length_eq_one_iff.mp one
  exact ⟨e, he, by simpa [he] using free⟩

/-- An operator on the rows of a group. -/
theorem applyOperator_yields {call : Call Argument} {text : String} {t : Term} :
    (g.term.applyOperator registry op call text).Yields c t c' ↔
      ∃ applied, (op.apply registry g call).Yields c applied c' ∧
        applied.term Group.term = t := by
  simp only [term, Term.applyOperator, BindM.yields_bind, BindM.yields_pure]
  constructor
  · rintro ⟨applied, c₁, happlied, rfl, rfl⟩
    exact ⟨applied, happlied, rfl⟩
  · rintro ⟨applied, happlied, rfl⟩
    exact ⟨applied, c', happlied, rfl, rfl⟩

/-- The last call of a chain is applied last, to what binding the others gave. -/
theorem yields_applied_append {source : Expr} {chain : List (Call Expr)} {t : Term} :
    ((source.applied (chain ++ [call])).bind registry).Yields c t c' ↔
      ∃ op, Operator.ofCall call = .ok op ∧
        ∃ t' c₁, ((source.applied chain).bind registry).Yields c t' c₁ ∧
          (t'.applyOperator registry op (Expr.bindArguments registry call)
            (Expr.call (source.applied chain) call).text).Yields c₁ t c' := by
  rw [Expr.applied, List.foldl_append]
  simp only [List.foldl_cons, List.foldl_nil, Expr.bind, BindM.yields_bind, BindM.yields_ofExcept]
  constructor
  · rintro ⟨op, _, ⟨hop, rfl⟩, t', c₁, ht', happly⟩
    exact ⟨op, hop, t', c₁, ht', happly⟩
  · rintro ⟨op, hop, t', c₁, ht', happly⟩
    exact ⟨op, c, ⟨hop, rfl⟩, t', c₁, ht', happly⟩

section Steps

variable (exact : engine.Exact) (isTrue_and : ∀ l r, engine.isTrue (engine.binary .and l r) =
  (engine.isTrue l && engine.isTrue r))
include exact isTrue_and

/-- **One call** that filters or maps. -/
theorem becomes_of_apply (plain : call.narrowsOrMaps = true)
    (hop : Operator.ofCall call = .ok op)
    (steady : GroupElements.Steady engine rows c outer call.outerNames)
    {applied : Applied Group Term}
    (h : (op.apply registry g (Expr.bindArguments registry call)).Yields c applied c') :
    c = c' ∧ ∃ g', applied = .sequence g' ∧ g'.stage = g.stage ∧ g'.distinct = g.distinct ∧
      (g.elements engine rows).after? engine registry c.outlines outer call =
        some (g'.elements engine rows) := by
  obtain ⟨named, -, -⟩ := Operator.ofCall_eq_ok_iff.mp hop
  obtain ⟨which, e, single, free⟩ := operator_of_narrowsOrMaps plain hop
  have names : call.outerNames = e.outerNames := by
    simp [Call.outerNames, single]
  rw [names] at steady
  rcases which with rfl | rfl
  · simp only [Operator.apply, BindM.yields_bind, Operator.yields_next] at h
    obtain ⟨l, c₁, hl, g', hg', rfl, rfl⟩ := h
    obtain rfl := Except.ok.inj hg'
    obtain ⟨rfl, after⟩ :=
      GroupElements.filter_of_lambda isTrue_and exact single free steady hl
    refine ⟨rfl, _, rfl, rfl, rfl, ?_⟩
    rw [GroupElements.after?, ← named, single]
    exact after
  · simp only [Operator.apply, BindM.yields_bind, Operator.yields_next] at h
    obtain ⟨l, c₁, hl, g', hg', rfl, rfl⟩ := h
    obtain rfl := Except.ok.inj hg'
    obtain ⟨rfl, after⟩ := GroupElements.map_of_lambda exact single free steady hl
    refine ⟨rfl, _, rfl, rfl, rfl, ?_⟩
    rw [GroupElements.after?, ← named, single]
    exact after

/-- **A chain** of such calls. -/
theorem becomes_of_bind {source : Expr} {c₀ c₁ : Context} {t : Term}
    (hsource : (source.bind registry).Yields c g.term c₀) {chain : List (Call Expr)}
    (plain : ∀ call ∈ chain, call.narrowsOrMaps = true)
    (steady : ∀ call ∈ chain, GroupElements.Steady engine rows c outer call.outerNames)
    (h : ((source.applied chain).bind registry).Yields c t c₁) :
    c₁.scopes = c.scopes ∧ ∃ g', t = g'.term ∧
      g.Becomes engine registry rows c outer chain g' := by
  -- The last call is bound last, so the induction takes calls away from the end.
  induction chain using List.reverseRecOn generalizing t c₁ with
  | nil =>
    obtain ⟨rfl, rfl⟩ := h.unique hsource
    exact ⟨Expr.scopes_of_bind h, g, rfl, rfl, rfl, rfl⟩
  | append_singleton chain call ih =>
    obtain ⟨op, hop, t', c₂, ht', happly⟩ := yields_applied_append.mp h
    obtain ⟨same, g', rfl, becomes⟩ :=
      ih (fun call hcall => plain call (List.mem_append_left _ hcall))
        (fun call hcall => steady call (List.mem_append_left _ hcall)) ht'
    obtain ⟨applied, happlied, rfl⟩ := applyOperator_yields.mp happly
    have hcall : call ∈ chain ++ [call] := List.mem_append_right _ (List.mem_singleton_self _)
    have steady' : GroupElements.Steady engine rows c₂ outer call.outerNames := by
      intro name hname row hrow
      rw [Context.data_congr same]
      exact steady call hcall name hname row hrow
    obtain ⟨rfl, g'', rfl, hstage, hdistinct, after⟩ :=
      becomes_of_apply exact isTrue_and (plain call hcall) hop steady' happlied
    refine ⟨same, g'', rfl, hstage.trans becomes.stage, hdistinct.trans becomes.distinct, ?_⟩
    rw [GroupElements.afterAll?, List.foldlM_append]
    rw [Context.outlines_congr same] at after
    exact Option.bind_eq_some_iff.mpr ⟨_, becomes.elements, by simpa using after⟩

end Steps

end Group

end QueryPipeline
