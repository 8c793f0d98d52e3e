import QueryPipeline.Compile
import QueryPipeline.Proofs.Binding.Ending

/-!
The answer of a query that ends with one value is the one its author means
(`Query.answered`). Its rows go into one group, and what the group computes is read from the
only row that there is. Whether the projection that reads it is merged into the group or not,
the reader finds the value of the accumulator (`Pipeline.decoded_reduceResult`); if no row
comes back, no value was left.
-/

namespace QueryPipeline

variable {engine : Engine} {registry : Registry}

/-! ### The plan of a result -/

namespace Pipeline

/-- The accumulator that computes a result. -/
def resultAccumulator (p : Pipeline) (r : Terminal) (kind : AccumulatorKind)
    (output : String) : Accumulator where
  group := p.flush.stages.length
  kind
  source := r.source
  output
  codec := r.codec

variable {p : Pipeline} {r : Terminal} {kind : AccumulatorKind}

theorem plan_reduceResult (hr : p.result = some r) (hkind : r.kind.accumulator? = some kind) :
    p.reduceResult.plan = {
      stages := p.flush.stages ++ [.group (.int32 1) [p.resultAccumulator r kind resultField],
        .project (.field (.field resultField) r.codec)]
      output := .value valueField r.codec
      result := some r.kind } := by
  have reduced : p.reduceResult =
      { p.flush.push (.group (.int32 1) [p.resultAccumulator r kind resultField]) with
        projector := .field (.field resultField) r.codec } := by
    simp only [reduceResult, hr, hkind, resultAccumulator]
  have written : ({} : Window).bounds.stages = [] := rfl
  rw [reduced]
  simp only [plan, flush, push, written, hr, List.append_nil, List.append_assoc]
  rfl

/-- Merged, the group computes the value under the name that it is read by. -/
theorem mergeProjection_reduceResult (hr : p.result = some r)
    (hkind : r.kind.accumulator? = some kind) :
    p.reduceResult.plan.mergeProjection = {
      stages := p.flush.stages ++ [.group (.int32 1) [p.resultAccumulator r kind valueField]]
      output := .value valueField r.codec
      result := some r.kind } := by
  have stages : (p.flush.stages ++ [
      Stage.group (.int32 1) [p.resultAccumulator r kind resultField],
      .project (.field (.field resultField) r.codec)]).reverse =
      .project (.field (.field resultField) r.codec) ::
        .group (.int32 1) [p.resultAccumulator r kind resultField] :: p.flush.stages.reverse := by
    simp
  have readings : readings? (Term.field (.field resultField) r.codec)
      (.value valueField r.codec) = some [⟨valueField, resultField⟩] := rfl
  have produced : ([⟨valueField, resultField⟩] : List Reading).all (fun reading =>
      produces [p.resultAccumulator r kind resultField] reading.field) = true := by
    simp [produces, resultAccumulator]
  -- The projection is the only reader of the accumulator, and its own name is still free.
  have merged : mergeReadings [p.resultAccumulator r kind resultField]
      [⟨valueField, resultField⟩] =
      ([p.resultAccumulator r kind valueField], [⟨resultField, valueField⟩]) := by
    simp [mergeReadings, renameSingles, readersOf, resultAccumulator, isFreeName]
    decide
  rw [plan_reduceResult hr hkind, Plan.mergeProjection]
  simp only [stages, readings, produced, merged, ite_true, List.reverse_reverse]
  rfl

/-- The row of the group holds what the accumulator computes. -/
theorem read_resultRow {output : String} (named : output ≠ "_id")
    (g : Option Value × List Value) :
    engine.read output (some (groupRow engine [p.resultAccumulator r kind output] g)) =
      engine.accumulate kind r.source g.2 := by
  have distinct :
      ("_id" :: [p.resultAccumulator r kind output].map Accumulator.output).Nodup := by
    simpa [resultAccumulator] using named.symm
  exact read_groupRow distinct List.mem_cons_self

/-- **The reader of a result sees the value of its accumulator**, merged or not, and
nothing if there are no rows. -/
theorem decoded_reduceResult (reduces : engine.Reduces) (hr : p.result = some r)
    (hkind : r.kind.accumulator? = some kind) (options : Options) (rows : List Value) :
    (p.reduceResult.plan.optimized options).decoded engine rows =
      if (p.rows engine rows).isEmpty then []
      else [.value r.codec (engine.accumulate kind r.source (p.rows engine rows))] := by
  have unreduced : Stage.runAll engine p.flush.stages rows = p.rows engine rows := rfl
  have grouped (output : String) : Stage.run engine
      (.group (.int32 1) [p.resultAccumulator r kind output]) (p.rows engine rows) =
      if (p.rows engine rows).isEmpty then []
      else [groupRow engine [p.resultAccumulator r kind output]
        (some (.int32 1), p.rows engine rows)] := by
    rw [Stage.run, reduces.groups]
    split <;> rfl
  by_cases merge : options.mergeProjection = true
  · rw [Plan.optimized, if_pos merge, mergeProjection_reduceResult hr hkind, Plan.decoded,
      Stage.runAll_append, unreduced, Stage.runAll_cons, Stage.runAll_nil, grouped]
    split
    · rfl
    · exact congrArg (fun v => [DecodedRow.value r.codec v]) (read_resultRow (by decide) _)
  · rw [Plan.optimized, if_neg merge, plan_reduceResult hr hkind, Plan.decoded,
      Stage.runAll_append, unreduced, Stage.runAll_cons, Stage.runAll_cons,
      Stage.runAll_nil, grouped]
    split
    · rfl
    · have projected (row : Value) : engine.read valueField
          (some (projectedRow engine (.field (.field resultField) r.codec) row)) =
          engine.read resultField (some row) :=
        Engine.read_ofPresent (by simp) (by simp [Term.valueIn, Term.eval]; rfl)
      refine congrArg (fun v => [DecodedRow.value r.codec v]) ?_
      rw [projected]
      exact read_resultRow (by decide) _

end Pipeline

/-! ### Queries -/

/-- **A query that ends with one value gives the answer of its author.** It is resolved
whenever it is bound. Whatever the options, at most one row comes back: if there is one, it
holds the answer for the values that are left; if there is none, no value is left, and the
answer is what the result stands for without rows. -/
theorem Query.answered (exact : engine.Exact) (reduces : engine.Reduces) {q : Query}
    {clauses : List (Call Expr)} {last : Call Expr} {ending : Ending} {p : Pipeline}
    {context : Context} {rows : List Value} (hclauses : q.clauses = clauses ++ [last])
    (plain : ∀ call ∈ clauses, call.isPlain = true) (plainLast : last.hasPlainBodies = true)
    (hending : Ending.ofCall? last = some ending)
    (countable : rows.length ≤ Window.maxOffset ∨
      Clause.totalSkipped clauses + ending.skipped ≤ Window.maxOffset)
    (h : q.bound registry = (.ok p, context)) :
    ∃ resolved vs, p.resolveGroups context.minted = .ok resolved ∧
      q.left? engine registry clauses ending rows = some vs ∧
      ∀ options, let plan := resolved.plan.optimized options
        (plan.decoded engine rows = [] ∧ vs.items = [] ∧
          ending.kind.whenEmpty = ending.kind.answer? vs) ∨
        ∃ row v, plan.decoded engine rows = [row] ∧ row.answer? = some v ∧
          ending.kind.answer? vs = some v := by
  replace h : (q.bind registry).Yields {} p context := h
  have placed := Query.bind_placed h
  unfold Query.bind at h
  cases hcodec : registry.codec? q.itemType with
  | none => simp [hcodec] at h
  | some codec =>
    simp only [hcodec, hclauses] at h
    obtain ⟨p₁, vs₁, hvs₁, h₁, rowwise₁, hbind⟩ :=
      Denotes.run_append exact plain rfl (.ofRoot codec countable) nofun h
    simp only [Query.bindClauses, BindM.yields_bind, BindM.yields_ofExcept] at hbind
    obtain ⟨op, c₁, ⟨hop, rfl⟩, applied, c₂, happly, hrest⟩ := hbind
    obtain ⟨p', vs, rfl, hvs, ends⟩ :=
      Denotes.ends_of_call exact reduces rfl plainLast hending h₁ rowwise₁ hop happly
    obtain ⟨rfl, rfl⟩ := BindM.yields_pure.mp hrest
    obtain ⟨source, accumulator, hresult, haccumulator, answers⟩ := ends.result
    refine ⟨p'.reduceResult, vs, Pipeline.resolveGroups_of_no_group placed ends.rowwise _, ?_, ?_⟩
    · simp [Query.left?, hcodec, hvs₁, hvs]
    · intro options
      simp only [Pipeline.decoded_reduceResult reduces hresult haccumulator options rows]
      cases hrows : p'.rows engine rows with
      | nil =>
        have none_left := ends.empty.mp hrows
        exact .inl ⟨rfl, none_left, ends.whenEmpty none_left⟩
      | cons row more => exact .inr ⟨_, _, rfl, rfl, answers row more hrows⟩

/-! ### Two queries over people -/

/-- Four people with their ages. -/
def fourPeople : List Value := [
  .document [("name", .string "Ann"), ("age", .int32 31)],
  .document [("name", .string "Bob"), ("age", .int32 44)],
  .document [("name", .string "Cem"), ("age", .int32 7)],
  .document [("name", .string "Dan"), ("age", .int32 81)]]

/-- The clauses that leave all adults but the first one, each as a record of the years. -/
def laterAdults : List (Call Expr) := [
  ⟨"Queryable", "Where", [],
    [.lambda ["x"] (.binary .gte (.member (.param "x") "Age") (.const (.int32 18) .int32))]⟩,
  ⟨"Queryable", "Select", [], [.lambda ["x"] (.new [("Years", .member (.param "x") "Age")])]⟩,
  ⟨"Queryable", "Skip", [], [.const (.int32 1) .int32]⟩]

/-- Picks the last record of less than sixty years. -/
def lastUnderSixty : Call Expr :=
  ⟨"Queryable", "Last", [], [.lambda ["y"]
    (.binary .lt (.member (.param "y") "Years") (.const (.int32 60) .int32))]⟩

theorem lastUnderSixty_answered :
    ∃ p context resolved,
      Query.bound people ⟨"people", .document "Person", laterAdults ++ [lastUnderSixty]⟩ =
        (.ok p, context) ∧
      p.resolveGroups context.minted = .ok resolved ∧
      ∀ options, ∃ row,
        (resolved.plan.optimized options).decoded .reducing fourPeople = [row] ∧
        row.answer? = some (.document [("Years", .int32 44)]) := by
  obtain ⟨p, context, h⟩ : ∃ p context,
      Query.bound people ⟨"people", .document "Person", laterAdults ++ [lastUnderSixty]⟩ =
        (.ok p, context) := ⟨_, _, rfl⟩
  have countable : fourPeople.length ≤ Window.maxOffset ∨
      Clause.totalSkipped laterAdults + 0 ≤ Window.maxOffset := .inl (by decide)
  obtain ⟨resolved, vs, hresolved, hleft, answers⟩ :=
    Query.answered Engine.exact_reducing Engine.reduces_reducing rfl (by decide) rfl rfl
      countable h
  have answer : TerminalKind.last.answer? vs = some (.document [("Years", .int32 44)]) := by
    obtain rfl := Option.some.inj hleft
    rfl
  refine ⟨p, context, resolved, h, hresolved, fun options => ?_⟩
  rcases answers options with ⟨-, -, none_left⟩ | ⟨row, v, hrow, hv, hanswer⟩
  · cases none_left.trans answer
  · exact ⟨row, hrow, hv.trans (hanswer.symm.trans answer)⟩

/-- Three great skips, and a count of what is left. -/
def countedSkips : Query where
  collection := "people"
  itemType := .document "Person"
  clauses := greatSkips.clauses ++ [⟨"Queryable", "Count", [], []⟩]

/-- Where neither the rows nor the skipped elements can be counted, a row is counted that
the query skips. -/
theorem countedSkips_count_a_row :
    ∃ p context resolved vs, countedSkips.bound people = (.ok p, context) ∧
      p.resolveGroups context.minted = .ok resolved ∧
      countedSkips.left? .reducing people greatSkips.clauses ⟨none, .count⟩
        (List.replicate (Window.maxOffset + 1) (.document [])) = some vs ∧
      TerminalKind.count.answer? vs = some (.int32 0) ∧
      ∀ options, (resolved.plan.optimized options).decoded .reducing
        (List.replicate (Window.maxOffset + 1) (.document [])) =
        [.value .int32 (some (.int32 1))] := by
  have skipped (rows : List Value) :
      countedSkips.left? .reducing people greatSkips.clauses ⟨none, .count⟩ rows =
        some ⟨.stored ((people.codec? (.document "Person")).getD .dynamic),
          (((rows.map some).drop 9223372036854775807).drop 9223372036854775807).drop
            9223372036854775807⟩ := rfl
  let p : Pipeline := {
    projector := .root ((people.codec? (.document "Person")).getD .dynamic)
    paging := ⟨Window.maxOffset, none⟩
    result := some ⟨.count, .int32 1⟩ }
  have paged (rows : List Value) : p.rows .reducing rows = rows.drop Window.maxOffset := by
    rw [Pipeline.rows_eq]
    rfl
  have bound : countedSkips.bound people = (.ok p, {}) := rfl
  have resolved : p.resolveGroups 0 = .ok p.reduceResult :=
    Pipeline.resolveGroups_of_no_group (Query.bind_placed bound) nofun 0
  refine ⟨p, {}, p.reduceResult, _, bound, resolved, skipped _, ?_, ?_⟩
  · rw [List.map_replicate, List.drop_replicate, List.drop_replicate, List.drop_replicate]
    rfl
  · intro options
    rw [Pipeline.decoded_reduceResult Engine.reduces_reducing rfl rfl, paged,
      List.drop_replicate, Nat.add_sub_cancel_left]
    rfl

end QueryPipeline
