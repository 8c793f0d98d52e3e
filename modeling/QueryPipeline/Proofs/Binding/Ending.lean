import QueryPipeline.Proofs.Binding.Clauses
import QueryPipeline.Proofs.Grouping.Ungrouped
import QueryPipeline.Proofs.Semantics.Ending

/-!
Binding the call that ends a query. The clauses before it leave a pipeline that stands for
their values (`Denotes`). The call may filter or skip once more, then it names a result and
the value that is reduced; where one row is enough it limits the window to that row.
`Ends` says what is needed of such a pipeline: it has a row just if there is a value left,
and the accumulator of the result gives the answer for its rows.
-/

namespace QueryPipeline

variable {engine : Engine} {registry : Registry}

/-! ### Clauses before the end -/

/-- The stages go through the rows one by one. -/
def Pipeline.Rowwise (p : Pipeline) : Prop := ∀ s ∈ p.stages, s.isGroup = false

theorem Pipeline.Rowwise.filter {p : Pipeline} (h : p.Rowwise) (t : Term) :
    (p.filter t).Rowwise := by
  intro s hs
  rcases List.mem_append.mp hs with hs | hs
  · rcases List.mem_append.mp hs with hs | hs
    · exact h s hs
    · exact (Bounds.terms_eq_nil hs).1
  · obtain rfl := List.mem_singleton.mp hs
    rfl

/-- A plain call filters, projects, skips or takes. -/
theorem Call.operator_of_isPlain {call : Call Expr} {op : Operator}
    (plain : call.isPlain = true) (hop : Operator.ofCall call = .ok op) :
    op = .filter ∨ op = .project ∨ op = .skip ∨ op = .take := by
  have denoted := Operator.eq_of_ofCall hop
  have clauses : call.name = "Where" ∨ call.name = "Select" ∨ call.name = "Skip" ∨
      call.name = "Take" := by
    simp only [Call.isPlain, Bool.and_eq_true, List.contains_iff_mem] at plain
    simpa using plain.1
  exact clauses.imp (denoted .filter) <| .imp (denoted .project) <|
    .imp (denoted .skip) (denoted .take)

theorem Pipeline.Rowwise.apply {p p' : Pipeline} {op : Operator} {call : Call Argument}
    {c c' : Context} (h : p.Rowwise)
    (plain : op = .filter ∨ op = .project ∨ op = .skip ∨ op = .take)
    (happly : (op.apply registry p call).Yields c (.sequence p') c') : p'.Rowwise := by
  rcases plain with rfl | rfl | rfl | rfl
  all_goals
    simp only [Operator.apply, BindM.yields_bind, Operator.yields_next] at happly
    obtain ⟨_, _, _, _, hs', heq, _⟩ := happly
    cases heq
    cases hs'
  · exact Pipeline.Rowwise.filter (p := { p with sortOpen := false }) h _
  all_goals exact h

namespace Denotes

variable {rows : List Value} {toSkip : Nat} {p : Pipeline} {vs : Values}

/-- **The clauses before others** keep what a pipeline stands for. -/
theorem run_append (exact : engine.Exact) {calls more : List (Call Expr)} {c c' : Context}
    {p' : Pipeline} (plain : ∀ call ∈ calls, call.isPlain = true) (closed : c.scopes = {})
    (h : Denotes engine rows (Clause.totalSkipped calls + toSkip) p vs) (rowwise : p.Rowwise)
    (hbind : (Query.bindClauses registry p (calls ++ more)).Yields c p' c') :
    ∃ p₁ vs₁, Clause.applyAll engine registry vs calls = some vs₁ ∧
      Denotes engine rows toSkip p₁ vs₁ ∧ p₁.Rowwise ∧
      (Query.bindClauses registry p₁ more).Yields c p' c' := by
  induction calls generalizing p vs with
  | nil =>
    refine ⟨p, vs, rfl, ?_, rowwise, hbind⟩
    simpa [Clause.totalSkipped] using h
  | cons call rest ih =>
    simp only [List.cons_append, Query.bindClauses, BindM.yields_bind, BindM.yields_ofExcept]
      at hbind
    obtain ⟨op, c₁, ⟨hop, rfl⟩, applied, c₂, happly, hrest⟩ := hbind
    have plainCall := plain call List.mem_cons_self
    rw [Clause.totalSkipped, Nat.add_assoc] at h
    obtain ⟨rfl, p₂, vs₂, rfl, hvs₂, h₂⟩ := step exact plainCall hop closed h happly
    have rowwise₂ := rowwise.apply (Call.operator_of_isPlain plainCall hop) happly
    obtain ⟨p₁, vs₁, hvs₁, h₁⟩ :=
      ih (fun call hcall => plain call (List.mem_cons_of_mem _ hcall)) h₂ rowwise₂ hrest
    refine ⟨p₁, vs₁, ?_, h₁⟩
    rw [Clause.applyAll, List.foldlM_cons]
    exact Option.bind_eq_some_iff.mpr ⟨vs₂, hvs₂, hvs₁⟩

end Denotes

/-! ### Results -/

/-- The pipeline ends with a result over what is left of values: it has a row just if there
is a value, and the accumulator of the result has the answer for its rows. -/
structure Ends (engine : Engine) (rows : List Value) (kind : TerminalKind) (vs : Values)
    (p : Pipeline) : Prop where
  rowwise : p.Rowwise
  empty : p.rows engine rows = [] ↔ vs.items = []
  whenEmpty : vs.items = [] → kind.whenEmpty = kind.answer? vs
  result : ∃ source accumulator, p.result = some ⟨kind, source⟩ ∧
    kind.accumulator? = some accumulator ∧
    ∀ row more, p.rows engine rows = row :: more → kind.answer? vs =
      some ((Terminal.codec ⟨kind, source⟩).read
        (engine.accumulate accumulator source (row :: more)))

/-- The operators that reduce a sequence to the result of a kind. -/
inductive Operator.Reduces : Operator → TerminalKind → Prop where
  | any : Reduces .any .any
  | count {kind : Aggregate} :
      kind.reduceOp? = none → Reduces (.aggregate kind) kind.terminalKind
  | element {pick : Pick} :
      pick ≠ .single → pick ≠ .singleOrDefault → Reduces (.element pick) pick.terminalKind

theorem Operator.Reduces.of_kind {call : Call Expr} {op : Operator} {kind : TerminalKind}
    (hop : Operator.ofCall call = .ok op) (hkind : Ending.kind? call.name = some kind) :
    op.Reduces kind := by
  have denoted := Operator.eq_of_ofCall hop
  unfold Ending.kind? at hkind
  split at hkind
  case h_8 => cases hkind
  all_goals
    rename_i hname
    obtain rfl := Option.some.inj hkind
  · exact denoted (.aggregate .count) hname ▸ .count rfl
  · exact denoted (.aggregate .longCount) hname ▸ .count rfl
  · exact denoted .any hname ▸ .any
  · exact denoted (.element .first) hname ▸ .element nofun nofun
  · exact denoted (.element .firstOrDefault) hname ▸ .element nofun nofun
  · exact denoted (.element .last) hname ▸ .element nofun nofun
  · exact denoted (.element .lastOrDefault) hname ▸ .element nofun nofun

namespace Denotes

variable {rows : List Value} {p : Pipeline} {vs : Values}

theorem rows_eq_nil {toSkip : Nat} (h : Denotes engine rows toSkip p vs) :
    p.rows engine rows = [] ↔ vs.items = [] := by
  rw [h.items, Pipeline.values, List.map_eq_nil_iff]

/-- A window of one row more. -/
theorem rows_first (p : Pipeline) (rows : List Value) :
    ({ p with paging := p.paging.take 1 } : Pipeline).rows engine rows =
      (p.rows engine rows).take 1 := by
  rw [Pipeline.rows_eq, Pipeline.rows_eq, Window.apply_take]

variable {toSkip : Nat} (h : Denotes engine rows toSkip p vs) (reduces : engine.Reduces)
  (rowwise : p.Rowwise)
include h reduces rowwise

theorem ends_any : Ends engine rows .any vs p.any := by
  have hrows : p.any.rows engine rows = (p.rows engine rows).take 1 := rows_first p rows
  refine ⟨rowwise, ?_, ?_, .bool true, .max, rfl, rfl, ?_⟩
  · rw [hrows, ← h.rows_eq_nil]
    simp
  · intro none_left
    rw [TerminalKind.answer?, none_left]
    rfl
  · intro row more heq
    have nonempty : vs.items ≠ [] := by
      rw [Ne, ← h.rows_eq_nil]
      rintro hnil
      rw [hrows, hnil] at heq
      cases heq
    have some_left : vs.items.isEmpty = false := by simpa using nonempty
    rw [reduces.max_true, TerminalKind.answer?, some_left]
    rfl

theorem ends_count {kind : Aggregate} {source : Term} (counts : kind.reduceOp? = none) :
    Ends engine rows kind.terminalKind vs (p.aggregate kind source) := by
  have length {row : Value} {more : List Value} (heq : p.rows engine rows = row :: more) :
      vs.items.length = (row :: more).length := by
    rw [h.items, Pipeline.values, List.length_map, heq]
  have none_left (hnil : vs.items = []) :
      kind.terminalKind.whenEmpty = kind.terminalKind.answer? vs := by
    cases kind with
    | count | longCount =>
      simp only [Aggregate.terminalKind, TerminalKind.answer?, hnil]
      rfl
    | _ => cases counts
  cases kind with
  | count =>
    refine ⟨rowwise, h.rows_eq_nil, none_left, .int32 1, .count, rfl, rfl, ?_⟩
    intro row more heq
    rw [reduces.count, Aggregate.terminalKind, TerminalKind.answer?, length heq,
      Codec.read_some (by simp [Terminal.codec])]
  | longCount =>
    refine ⟨rowwise, h.rows_eq_nil, none_left, .int32 1, .count, rfl, rfl, ?_⟩
    intro row more heq
    rw [reduces.count, Aggregate.terminalKind, TerminalKind.answer?, length heq,
      ← Codec.read_count]
    rfl
  | _ => cases counts

omit reduces rowwise in
/-- The codec that the projector gives to the result is that of the values. -/
theorem codec_eq : vs.shape.codec = p.projector.codec := by
  rw [h.shape, Term.codec_shape]

theorem ends_first {pick : Pick} (first : pick = .first ∨ pick = .firstOrDefault) :
    Ends engine rows pick.terminalKind vs (p.element pick) := by
  have hrows : (p.element pick).rows engine rows = (p.rows engine rows).take 1 := by
    rcases first with rfl | rfl <;> exact rows_first p rows
  have empty : (p.element pick).rows engine rows = [] ↔ vs.items = [] := by
    rw [hrows, ← h.rows_eq_nil]
    simp
  have head {row : Value} {more : List Value}
      (heq : (p.element pick).rows engine rows = row :: more) :
      vs.items.head? = some (p.projector.valueIn engine row) := by
    have first_of (rows : List Value) : (rows.take 1).head? = rows.head? := by
      rw [List.head?_take, if_neg Nat.one_ne_zero]
    rw [h.items, Pipeline.values, List.head?_map, ← first_of, ← hrows, heq]
    rfl
  rcases first with rfl | rfl
  all_goals
    refine ⟨rowwise, empty, fun hnil => ?_, p.projector, .first, rfl, rfl, ?_⟩
    · simp only [Pick.terminalKind, TerminalKind.answer?, hnil]
      rfl
    intro row more heq
    rw [reduces.first]
    simp only [Pick.terminalKind, TerminalKind.answer?, head heq, Terminal.codec, codec_eq h]
    simp [Codec.read_getD]

theorem ends_last {pick : Pick} (last : pick = .last ∨ pick = .lastOrDefault) :
    Ends engine rows pick.terminalKind vs (p.element pick) := by
  have hrows : (p.element pick).rows engine rows = p.rows engine rows := by
    rcases last with rfl | rfl <;> rfl
  have empty : (p.element pick).rows engine rows = [] ↔ vs.items = [] := by
    rw [hrows, h.rows_eq_nil]
  have end_of {row : Value} {more : List Value}
      (heq : (p.element pick).rows engine rows = row :: more) :
      ∃ front back, row :: more = front ++ [back] ∧
        vs.items.getLast? = some (p.projector.valueIn engine back) := by
    obtain ⟨front, back, hback⟩ := (List.eq_nil_or_concat' (row :: more)).resolve_left nofun
    refine ⟨front, back, hback, ?_⟩
    rw [h.items, Pipeline.values, ← hrows, heq, hback]
    simp
  rcases last with rfl | rfl
  all_goals
    refine ⟨rowwise, empty, fun hnil => ?_, p.projector, .last, rfl, rfl, ?_⟩
    · simp only [Pick.terminalKind, TerminalKind.answer?, hnil]
      rfl
    intro row more heq
    obtain ⟨front, back, hback, hlast⟩ := end_of heq
    rw [hback, reduces.last]
    simp only [Pick.terminalKind, TerminalKind.answer?, hlast, Terminal.codec, codec_eq h]
    simp [Codec.read_getD]

end Denotes

/-! ### The last call -/

theorem Call.body_of_hasPlainBodies {call : Call Expr} {e : Expr}
    (plain : call.hasPlainBodies = true) (single : call.arguments = [e]) (parameter : String)
    (body : Expr) (h : e = .lambda [parameter] body) : body.isPlain = true := by
  simpa [hasPlainBodies, single, h] using plain

theorem Pipeline.optionalFilter_yields {p p' : Pipeline} {call : Call Argument}
    {c c' : Context} (h : (Operator.optionalFilter p call).Yields c p' c') :
    ∃ o, (call.optionalLambda p).Yields c o c' ∧
      p' = o.elim p fun l => p.filter l.body := by
  simp only [Operator.optionalFilter, BindM.yields_bind] at h
  obtain ⟨o, c₁, ho, h⟩ := h
  cases o with
  | none =>
    obtain ⟨rfl, rfl⟩ := BindM.yields_pure.mp h
    exact ⟨none, ho, rfl⟩
  | some l =>
    obtain ⟨hfilter, rfl⟩ := BindM.yields_ofExcept.mp h
    cases hfilter
    exact ⟨some l, ho, rfl⟩

namespace Ending

/-- The call has no argument, or it narrows by a predicate. -/
def NarrowsBy (call : Call Expr) (narrowing : Option Clause) : Prop :=
  call.arguments = [] ∧ narrowing = none ∨
    ∃ parameter body, call.arguments = [.lambda [parameter] body] ∧
      narrowing = some (.filter parameter body)

theorem NarrowsBy.skipped {call : Call Expr} {narrowing : Option Clause}
    (h : NarrowsBy call narrowing) (kind : TerminalKind) :
    Ending.skipped ⟨narrowing, kind⟩ = 0 := by
  rcases h with ⟨-, rfl⟩ | ⟨_, _, -, rfl⟩
  · rfl
  · rfl

/-- The method picks the element a number of elements from the front. -/
def PicksAt (name : String) (pick : Pick) : Prop :=
  name = "ElementAt" ∧ pick = .first ∨ name = "ElementAtOrDefault" ∧ pick = .firstOrDefault

/-- The three forms of a call that ends a query: it may narrow by a predicate, look for a
constant, or drop a constant number of elements. -/
theorem ofCall?_cases {call : Call Expr} {ending : Ending} (h : ofCall? call = some ending) :
    (∃ narrowing kind, NarrowsBy call narrowing ∧ kind? call.name = some kind ∧
      ending = ⟨narrowing, kind⟩) ∨
    ∃ v type, call.arguments = [.const v type] ∧
      (call.name = "Contains" ∧
        ending = ⟨some (.filter "x" (.binary .eq (.param "x") (.const v type))), .any⟩ ∨
      ∃ width n pick, v.integer? = some (width, n) ∧ PicksAt call.name pick ∧
        ending = ⟨some (.skip n.toNat), pick.terminalKind⟩) := by
  unfold ofCall? at h
  split at h
  · rename_i no_argument
    obtain ⟨kind, hkind, rfl⟩ := Option.map_eq_some_iff.mp h
    exact .inl ⟨none, kind, .inl ⟨no_argument, rfl⟩, hkind, rfl⟩
  · rename_i parameter predicate single
    obtain ⟨kind, hkind, rfl⟩ := Option.map_eq_some_iff.mp h
    exact .inl ⟨_, kind, .inr ⟨parameter, predicate, single, rfl⟩, hkind, rfl⟩
  · rename_i v type single
    refine .inr ⟨v, type, single, ?_⟩
    by_cases looks : call.name = "Contains"
    · rw [if_pos looks] at h
      exact .inl ⟨looks, (Option.some.inj h).symm⟩
    · rw [if_neg looks] at h
      obtain ⟨⟨width, n⟩, hv, h⟩ := Option.bind_eq_some_iff.mp h
      refine .inr ⟨width, n, ?_⟩
      by_cases negative : n < 0
      · simp [negative] at h
      · simp only [negative, ite_false] at h
        split at h
        · rename_i hname
          exact ⟨.first, hv, .inl ⟨hname, rfl⟩, (Option.some.inj h).symm⟩
        · split at h
          · rename_i hname
            exact ⟨.firstOrDefault, hv, .inr ⟨hname, rfl⟩, (Option.some.inj h).symm⟩
          · cases h
  · cases h

end Ending

namespace Denotes

variable {rows : List Value} {p : Pipeline} {vs : Values} {call : Call Expr}
  {c c' : Context} {kind : TerminalKind} {narrowing : Option Clause}

section Predicate

variable (exact : engine.Exact) (closed : c.scopes = {}) (plain : call.hasPlainBodies = true)
  (h : Denotes engine rows 0 p vs) (rowwise : p.Rowwise)
  (narrows : Ending.NarrowsBy call narrowing)
include exact closed plain h rowwise narrows

/-- A predicate that may be left out narrows the values. -/
theorem narrow (kind : TerminalKind) {o : Option Lambda}
    (ho : ((Expr.bindArguments registry call).optionalLambda p).Yields c o c') :
    ∃ vs', Ending.narrow? engine registry vs ⟨narrowing, kind⟩ = some vs' ∧
      Denotes engine rows 0 (o.elim p fun l => p.filter l.body) vs' ∧
      (o.elim p fun l => p.filter l.body).Rowwise := by
  rcases narrows with ⟨no_argument, rfl⟩ | ⟨parameter, body, single, rfl⟩
  · obtain ⟨rfl, rfl⟩ := Call.optionalLambda_yields_nil no_argument ho
    exact ⟨vs, rfl, h, rowwise⟩
  · obtain ⟨l, rfl, hl⟩ := Call.optionalLambda_yields single ho
    obtain ⟨-, _, _, heq, means⟩ :=
      MeansBody.of_lambda exact single (Call.body_of_hasPlainBodies plain single) closed
        h.readable hl
    cases heq
    obtain ⟨vs', hvs', h'⟩ := h.filter means
    exact ⟨vs', hvs', h', rowwise.filter l.body⟩

theorem ends_of_reduces (reduces : engine.Reduces) {op : Operator}
    {applied : Applied Pipeline Pipeline} (hop : op.Reduces kind)
    (happly : (op.apply registry p (Expr.bindArguments registry call)).Yields c applied c') :
    ∃ q vs', applied = .terminal q ∧
      Ending.narrow? engine registry vs ⟨narrowing, kind⟩ = some vs' ∧
      Ends engine rows kind vs' q := by
  have narrowed {o : Option Lambda} {c₁ : Context}
      (ho : ((Expr.bindArguments registry call).optionalLambda
        ({ p with sortOpen := false } : Pipeline)).Yields c o c₁) :=
    narrow (p := { p with sortOpen := false }) exact closed plain h.closeSort rowwise narrows
      kind ho
  cases hop with
  | any =>
    simp only [Operator.apply, BindM.yields_bind, Operator.yields_done] at happly
    obtain ⟨o, c₁, ho, q, hq, rfl, rfl⟩ := happly
    cases hq
    obtain ⟨vs', hvs', h', rowwise'⟩ := narrowed ho
    exact ⟨_, vs', rfl, hvs', h'.ends_any reduces rowwise'⟩
  | @count kind counts =>
    have happly' : (do
        let q ← Operator.optionalFilter ({ p with sortOpen := false } : Pipeline)
          (Expr.bindArguments registry call)
        return Applied.terminal (q.aggregate kind q.projector)).Yields c applied c' := by
      cases kind with
      | count | longCount => exact happly
      | _ => cases counts
    simp only [BindM.yields_bind, BindM.yields_pure] at happly'
    obtain ⟨q, c₁, hq, rfl, rfl⟩ := happly'
    obtain ⟨o, ho, rfl⟩ := Pipeline.optionalFilter_yields hq
    obtain ⟨vs', hvs', h', rowwise'⟩ := narrowed ho
    exact ⟨_, vs', rfl, hvs', h'.ends_count reduces rowwise' counts⟩
  | @element pick several several' =>
    simp only [Operator.apply, BindM.yields_bind, BindM.yields_pure] at happly
    obtain ⟨q, c₁, hq, r, c₂, hr, rfl, rfl⟩ := happly
    obtain ⟨rfl, rfl⟩ := BindM.yields_pure.mp hr
    obtain ⟨o, ho, rfl⟩ := Pipeline.optionalFilter_yields hq
    obtain ⟨vs', hvs', h', rowwise'⟩ := narrowed ho
    refine ⟨_, vs', rfl, hvs', ?_⟩
    cases pick with
    | first => exact h'.ends_first reduces rowwise' (.inl rfl)
    | firstOrDefault => exact h'.ends_first reduces rowwise' (.inr rfl)
    | last => exact h'.ends_last reduces rowwise' (.inl rfl)
    | lastOrDefault => exact h'.ends_last reduces rowwise' (.inr rfl)
    | single => exact absurd rfl several
    | singleOrDefault => exact absurd rfl several'

end Predicate

section Constant

variable {v : Value} {type : ValueType} {applied : Applied Pipeline Pipeline}
  (single : call.arguments = [.const v type]) (reduces : engine.Reduces) (rowwise : p.Rowwise)
include single reduces rowwise

/-- Whether a constant is among the values. -/
theorem ends_contains (exact : engine.Exact)
    (h : Denotes engine rows 0 p vs)
    (happly : (Operator.contains.apply registry p (Expr.bindArguments registry call)).Yields
      c applied c') :
    ∃ q vs', applied = .terminal q ∧
      Ending.narrow? engine registry vs
        ⟨some (.filter "x" (.binary .eq (.param "x") (.const v type))), .any⟩ = some vs' ∧
      Ends engine rows .any vs' q := by
  simp only [Operator.apply, BindM.yields_bind, Operator.yields_done] at happly
  obtain ⟨t, c₁, ht, q, hq, rfl, rfl⟩ := happly
  cases hq
  replace ht := Call.value_yields single ht
  cases hcodec : registry.codec? type with
  | none => simp [Expr.bind, hcodec] at ht
  | some codec =>
    simp only [Expr.bind, hcodec, BindM.yields_pure] at ht
    obtain ⟨rfl, rfl⟩ := ht
    have bound : ((Expr.binary .eq (.param "x") (.const v type)).bind registry).Yields
        (.ofParameter 0 "x" p.projector) (.foldBinary .eq p.projector (.const v codec))
        (.ofParameter 0 "x" p.projector) := by
      simp [Expr.bind, hcodec, Context.lookup_ofParameter, Clause.bindOnly]
    obtain ⟨-, means⟩ := MeansBody.of_bind exact h.readable rfl bound
    obtain ⟨vs', hvs', h'⟩ := h.closeSort.filter means
    exact ⟨_, vs', rfl, hvs', h'.ends_any reduces (Pipeline.Rowwise.filter rowwise _)⟩

/-- The element a number of elements from the front. -/
theorem ends_elementAt {pick : Pick} (first : pick = .first ∨ pick = .firstOrDefault)
    {width : Width} {n : Int} (hv : v.integer? = some (width, n))
    (h : Denotes engine rows n.toNat p vs) {q : Pipeline}
    (hq : (Operator.elementAtStep ({ p with sortOpen := false } : Pipeline) pick
      (Expr.bindArguments registry call)).Yields c q c') :
    Ends engine rows pick.terminalKind { vs with items := vs.items.drop n.toNat } q := by
  simp only [Operator.elementAtStep, BindM.yields_bind, BindM.yields_ofExcept] at hq
  obtain ⟨m, c₁, hm, q', c₂, ⟨hq', rfl⟩, helement⟩ := hq
  cases hq'
  obtain ⟨rfl, v', type', width', i, heq, hv', -, rfl⟩ := Call.count_yields single hm
  cases heq
  obtain ⟨-, rfl⟩ : width' = width ∧ i = n := by simpa [hv] using hv'.symm
  obtain ⟨rfl, rfl⟩ := BindM.yields_pure.mp helement
  have h' : Denotes engine rows (i.toNat + 0) { p with sortOpen := false } vs := h.closeSort
  exact h'.skip.ends_first reduces rowwise first

end Constant

/-- **The call that ends a query** leaves a pipeline that ends with its result. -/
theorem ends_of_call (exact : engine.Exact) (reduces : engine.Reduces)
    (closed : c.scopes = {}) (plain : call.hasPlainBodies = true) {ending : Ending}
    (hending : Ending.ofCall? call = some ending)
    (h : Denotes engine rows ending.skipped p vs) (rowwise : p.Rowwise) {op : Operator}
    {applied : Applied Pipeline Pipeline} (hop : Operator.ofCall call = .ok op)
    (happly : (op.apply registry p (Expr.bindArguments registry call)).Yields c applied c') :
    ∃ q vs', applied = .terminal q ∧ ending.narrow? engine registry vs = some vs' ∧
      Ends engine rows ending.kind vs' q := by
  have denoted := Operator.eq_of_ofCall hop
  rcases Ending.ofCall?_cases hending with ⟨narrowing, kind, narrows, hkind, rfl⟩ |
    ⟨v, type, single, ⟨looks, rfl⟩ | ⟨width, n, pick, hv, picks, rfl⟩⟩
  · rw [narrows.skipped] at h
    exact ends_of_reduces exact closed plain h rowwise narrows reduces (.of_kind hop hkind)
      happly
  · obtain rfl := denoted .contains looks
    exact ends_contains single reduces rowwise exact h happly
  · have first : pick = .first ∨ pick = .firstOrDefault := picks.imp And.right And.right
    have happly' : (do
        return Applied.terminal (← Operator.elementAtStep
          ({ p with sortOpen := false } : Pipeline) pick
          (Expr.bindArguments registry call))).Yields c applied c' := by
      rcases picks with ⟨hname, rfl⟩ | ⟨hname, rfl⟩
      · obtain rfl := denoted .elementAt hname
        exact happly
      · obtain rfl := denoted .elementAtOrDefault hname
        exact happly
    simp only [BindM.yields_bind, BindM.yields_pure] at happly'
    obtain ⟨q, c₁, hq, rfl, rfl⟩ := happly'
    exact ⟨q, _, rfl, rfl, ends_elementAt single reduces rowwise first hv h hq⟩

end Denotes

end QueryPipeline
