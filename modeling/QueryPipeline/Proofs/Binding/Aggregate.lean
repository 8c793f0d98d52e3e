import QueryPipeline.Proofs.Binding.Group

/-!
Aggregates of a group have the value that their author means (`Expr.aggregates_elements`). The
last call of a chain over the elements of a group asks for an accumulator of the group's stage.
The condition that the filters before it have left becomes part of what the accumulator takes from
a row: an element that does not count gives a value that the accumulator passes over.

What a lambda reads beside its element has to be the same for all rows of the group. The key of
the group is not: it is read where the group's own row has it, and the rows that the accumulator
sees have something else there.
-/

namespace QueryPipeline

variable {engine : Engine} {registry : Registry}

namespace Group

variable {g g' : Group} {rows : List Value} {outer : Data} {call : Call Expr}
  {op : Operator} {c c' : Context}

/-! ### The last call -/

/-- What an accumulator takes from the row of an element: a value that it passes over, if the
element does not count. -/
def counted (g : Group) (kind : Aggregate) (value : Term) : Term :=
  match g.predicate with
  | some predicate =>
      .cond predicate (aggregated kind value) (neutral kind (aggregated kind value))
  | none => aggregated kind value

theorem over_accumulator {kind : AccumulatorKind} {source : Term} {name : String}
    {codec : Codec} {rows : List Value} :
    (Term.accumulator g.stage kind source name codec).over? engine g.stage rows =
      some (codec.read (engine.accumulate kind source rows)) :=
  if_pos rfl

theorem filter_counts (unfiltered : g.predicate = none) :
    rows.filter (g.counts engine) = rows := by
  rw [List.filter_eq_self]
  intro row _
  rw [counts, unfiltered]
  rfl

theorem values_elements : (g.elements engine rows).values =
    (rows.filter (g.counts engine)).map (g.element.valueIn engine) := by
  rw [GroupElements.values, elements, List.map_map]
  exact List.map_congr_left fun row _ => Term.stored_datum g.element

theorem count_elements : (g.elements engine rows).count =
    (rows.filter (g.counts engine)).length :=
  List.length_map _

theorem codec_elements : (g.elements engine rows).outline.codec = g.element.codec :=
  Term.codec_outline g.element

section Reduction

variable {reduce : AccumulatorKind → List (Option Value) → Value} {missing : Option Value}
  (laws : engine.Accumulates reduce missing)
include laws

/-- Aggregates pass over what an element gives that does not count. -/
theorem passes_neutral (kind : Aggregate) (source : Term) (row : Value)
    (us vs : List (Option Value)) :
    reduce kind.accumulator (us ++ (neutral kind source).valueIn engine row :: vs) =
      reduce kind.accumulator (us ++ vs) := by
  cases kind with
  | count | longCount =>
    show reduce .count _ = reduce .count _
    rw [laws.count, laws.count]
    exact laws.sum_zero us vs
  | sum => exact laws.sum_zero us vs
  | average => exact laws.avg_null us vs
  | min => exact laws.min_null us vs
  | max => exact laws.max_null us vs

/-- **A filtered aggregate is a conditional one**: it reduces what the elements that count
give. -/
theorem reduce_counted (kind : Aggregate) (value : Term) (us : List (Option Value))
    (rows : List Value) :
    reduce kind.accumulator (us ++ rows.map ((g.counted kind value).valueIn engine)) =
      reduce kind.accumulator
        (us ++ (rows.filter (g.counts engine)).map ((aggregated kind value).valueIn engine)) := by
  cases hpredicate : g.predicate with
  | none => simp only [filter_counts hpredicate, counted, hpredicate]
  | some predicate =>
    induction rows generalizing us with
    | nil => rfl
    | cons row rows ih =>
      have value_row : (g.counted kind value).valueIn engine row =
          if engine.isTrue (predicate.valueIn engine row) then
            (aggregated kind value).valueIn engine row
          else (neutral kind (aggregated kind value)).valueIn engine row := by
        rw [counted, hpredicate, Term.valueIn, Term.eval]
        rfl
      have counts_row : g.counts engine row = engine.isTrue (predicate.valueIn engine row) := by
        rw [counts, hpredicate]
        rfl
      rw [List.map_cons, value_row]
      by_cases holds : engine.isTrue (predicate.valueIn engine row) = true
      · rw [if_pos holds, List.filter_cons_of_pos (counts_row.trans holds), List.map_cons]
        simpa using ih (us ++ [(aggregated kind value).valueIn engine row])
      · rw [if_neg holds, passes_neutral laws, ih, List.filter_cons_of_neg (counts_row ▸ holds)]

theorem accumulate_counted (kind : Aggregate) (value : Term) (row : Value) :
    engine.accumulate kind.accumulator (g.counted kind value) (row :: rows) =
      some (reduce kind.accumulator (((row :: rows).filter (g.counts engine)).map
        ((aggregated kind value).valueIn engine))) := by
  rw [laws.accumulate]
  exact congrArg some (reduce_counted laws kind value [] (row :: rows))

/-- Counting adds a one for each element that counts. -/
theorem reduce_ones (rows : List Value) :
    reduce .count (rows.map ((Term.int32 1).valueIn engine)) = .count rows.length := by
  have ones : rows.map ((Term.int32 1).valueIn engine) =
      List.replicate rows.length (some (.int32 1)) :=
    List.map_const' ..
  rw [laws.count, ones, laws.sum_ones]

end Reduction

/-- A call that ends a chain, by its operator. -/
theorem operator_of_reducesGroup (plain : call.reducesGroup = true)
    (hop : Operator.ofCall call = .ok op) :
    (∃ kind, op = .aggregate kind) ∨
    (op = .element .first ∨ op = .element .firstOrDefault) ∨
    (op = .element .last ∨ op = .element .lastOrDefault) ∨ op = .toList ∨ op = .toArray := by
  simp only [Call.reducesGroup, Bool.and_eq_true, List.contains_iff_mem, List.mem_cons,
    List.not_mem_nil, or_false] at plain
  have denoted := Operator.eq_of_ofCall hop
  rcases plain.1 with h | h | h | h | h | h | h | h | h | h | h | h
  · exact .inl ⟨.count, denoted (.aggregate .count) h⟩
  · exact .inl ⟨.longCount, denoted (.aggregate .longCount) h⟩
  · exact .inl ⟨.sum, denoted (.aggregate .sum) h⟩
  · exact .inl ⟨.average, denoted (.aggregate .average) h⟩
  · exact .inl ⟨.min, denoted (.aggregate .min) h⟩
  · exact .inl ⟨.max, denoted (.aggregate .max) h⟩
  · exact .inr (.inl (.inl (denoted (.element .first) h)))
  · exact .inr (.inl (.inr (denoted (.element .firstOrDefault) h)))
  · exact .inr (.inr (.inl (.inl (denoted (.element .last) h))))
  · exact .inr (.inr (.inl (.inr (denoted (.element .lastOrDefault) h))))
  · exact .inr (.inr (.inr (.inl (denoted .toList h))))
  · exact .inr (.inr (.inr (.inr (denoted .toArray h))))

/-- The arguments of a call that takes one lambda at most. -/
structure Optional (engine : Engine) (rows : List Value) (c : Context) (outer : Data)
    (call : Call Expr) : Prop where
  few : call.arguments = [] ∨ ∃ e, call.arguments = [e]
  free : ∀ e ∈ call.arguments, e.isCallFree = true
  steady : GroupElements.Steady engine rows c outer call.outerNames

theorem optional_of_reducesGroup (plain : call.reducesGroup = true)
    (hop : Operator.ofCall call = .ok op)
    (steady : GroupElements.Steady engine rows c outer call.outerNames) :
    Optional engine rows c outer call where
  few := by
    obtain ⟨-, -, arity⟩ := Operator.ofCall_eq_ok_iff.mp hop
    have few : call.arguments.length = 0 ∨ call.arguments.length = 1 := by
      rcases operator_of_reducesGroup plain hop with
        ⟨kind, rfl⟩ | (rfl | rfl) | (rfl | rfl) | rfl | rfl
      all_goals
        simp only [Operator.arities, List.mem_cons, List.not_mem_nil, or_false] at arity
        omega
    exact few.imp List.eq_nil_of_length_eq_zero List.length_eq_one_iff.mp
  free := by
    simp only [Call.reducesGroup, Bool.and_eq_true, List.all_eq_true] at plain
    exact plain.2
  steady := steady

section LastCall

variable (exact : engine.Exact) (optional : Optional engine rows c outer call)
include exact optional

/-- A mapping that may be left out. -/
theorem map_of_optionalLambda {o : Option Lambda}
    (h : ((Expr.bindArguments registry call).optionalLambda g).Yields c o c') :
    GroupElements.optionally? (GroupElements.map? engine registry c.outlines outer)
      (g.elements engine rows) call.arguments =
        some ({ g with element := (o.map Lambda.body).getD g.element }.elements engine rows) := by
  rcases optional.few with no_argument | ⟨e, single⟩
  · obtain ⟨rfl, rfl⟩ := Call.optionalLambda_yields_nil no_argument h
    rw [no_argument]
    rfl
  · obtain ⟨l, rfl, hl⟩ := Call.optionalLambda_yields single h
    have names : call.outerNames = e.outerNames := by
      simp [Call.outerNames, single]
    rw [single]
    exact (GroupElements.map_of_lambda exact single (optional.free e (by simp [single]))
      (names ▸ optional.steady) hl).2

/-- A filter that may be left out. -/
theorem filter_of_optionalFilter (isTrue_and : ∀ l r, engine.isTrue (engine.binary .and l r) =
      (engine.isTrue l && engine.isTrue r))
    (h : (Operator.optionalFilter g (Expr.bindArguments registry call)).Yields c g' c') :
    g'.stage = g.stage ∧
    GroupElements.optionally? (GroupElements.filter? engine registry c.outlines outer)
      (g.elements engine rows) call.arguments = some (g'.elements engine rows) := by
  simp only [Operator.optionalFilter, BindM.yields_bind] at h
  obtain ⟨o, c₁, ho, h⟩ := h
  rcases optional.few with no_argument | ⟨e, single⟩
  · obtain ⟨rfl, rfl⟩ := Call.optionalLambda_yields_nil no_argument ho
    obtain ⟨rfl, rfl⟩ := BindM.yields_pure.mp h
    rw [no_argument]
    exact ⟨rfl, rfl⟩
  · obtain ⟨l, rfl, hl⟩ := Call.optionalLambda_yields single ho
    obtain ⟨hg', rfl⟩ := BindM.yields_ofExcept.mp h
    obtain rfl := Except.ok.inj hg'
    have names : call.outerNames = e.outerNames := by
      simp [Call.outerNames, single]
    rw [single]
    exact ⟨rfl, (GroupElements.filter_of_lambda isTrue_and exact single
      (optional.free e (by simp [single])) (names ▸ optional.steady) hl).2⟩

end LastCall

/-! ### Accumulators that the last call asks for -/

theorem aggregate_yields {kind : Aggregate} {selector : Option Lambda} {site : String} {t : Term}
    (h : (g.aggregate kind selector site).Yields c t c') :
    ∃ name, t = .accumulator g.stage kind.accumulator
      (g.counted kind ((selector.map Lambda.body).getD g.element)) name
      (aggregateCodec kind ((selector.map Lambda.body).getD g.element)) := by
  unfold aggregate at h
  split at h
  · exact absurd h BindM.not_yields_unsupported
  · simp only [accumulator, BindM.yields_bind, BindM.yields_pure] at h
    obtain ⟨name, _, _, rfl, _⟩ := h
    exact ⟨name, rfl⟩

theorem pick_yields {pick : Pick} {site : String} {t : Term}
    (h : (g.pick pick site).Yields c t c') :
    g.predicate = none ∧ ∃ kind name, pick.accumulator? = some kind ∧
      t = .accumulator g.stage kind g.element name g.element.codec := by
  unfold Group.pick at h
  split at h
  · exact absurd h BindM.not_yields_unsupported
  · rename_i plain
    simp only [Bool.or_eq_true, not_or, Bool.not_eq_true, Option.isSome_eq_false_iff,
      Option.isNone_iff_eq_none] at plain
    split at h
    · rename_i kind hkind
      simp only [accumulator, BindM.yields_bind, BindM.yields_pure] at h
      obtain ⟨name, _, _, rfl, _⟩ := h
      exact ⟨plain.1, kind, name, hkind, rfl⟩
    · exact absurd h BindM.not_yields_unsupported

theorem collect_yields {site : String} {t : Term} (h : (g.collect site).Yields c t c') :
    g.predicate = none ∧ ∃ name,
      t = .accumulator g.stage (if g.distinct then .addToSet else .push) g.element name
        (.arrayOf g.element.codec) := by
  unfold Group.collect at h
  split at h
  · exact absurd h BindM.not_yields_unsupported
  · rename_i unfiltered
    simp only [accumulator, BindM.yields_bind, BindM.yields_pure] at h
    obtain ⟨name, _, _, rfl, _⟩ := h
    exact ⟨by simpa using unfiltered, name, rfl⟩

section Answers

variable {reduce : AccumulatorKind → List (Option Value) → Value} {missing : Option Value}
  {applied : Applied Group Term} {t : Term} {site : String}

/-- What is bound has, over the rows of the group, the value that the last call means. -/
def Answered (engine : Engine) (registry : Registry) (outer : Data)
    (reduce : AccumulatorKind → List (Option Value) → Value) (missing : Option Value)
    (g : Group) (rows : List Value) (c : Context) (op : Operator) (arguments : List Expr)
    (t : Term) : Prop :=
  ∃ v, t.over? engine g.stage rows = some v ∧
    (g.elements engine rows).reduced? engine registry c.outlines outer reduce missing
      op.name arguments = some v

section Over

variable (laws : engine.Accumulates reduce missing) (row : Value) (rows : List Value)
include laws

/-- An aggregate reduces what the elements that count give. -/
theorem over_aggregate {kind : Aggregate} {selector : Option Lambda} {value : Term}
    (hvalue : (selector.map Lambda.body).getD g.element = value)
    (h : (g.aggregate kind selector site).Yields c t c') :
    t.over? engine g.stage (row :: rows) = some ((aggregateCodec kind value).read
      (some (reduce kind.accumulator (((row :: rows).filter (g.counts engine)).map
        ((aggregated kind value).valueIn engine))))) := by
  obtain ⟨name, rfl⟩ := aggregate_yields h
  rw [over_accumulator, hvalue, accumulate_counted laws]

theorem over_count {kind : Aggregate} (counts : kind = .count ∨ kind = .longCount)
    (h : (g.aggregate kind none site).Yields c t c') :
    t.over? engine g.stage (row :: rows) = some ((aggregateCodec kind g.element).read
      (some (.count (g.elements engine (row :: rows)).count))) := by
  rw [over_aggregate laws row rows rfl h, count_elements, ← reduce_ones laws]
  rcases counts with rfl | rfl
  · rfl
  · rfl

theorem over_first {pick : Pick} (first : pick.accumulator? = some .first)
    (h : (g.pick pick site).Yields c t c') :
    t.over? engine g.stage (row :: rows) =
      (g.elements engine (row :: rows)).values.head?.map
        (g.elements engine (row :: rows)).outline.codec.read := by
  obtain ⟨unfiltered, kind, name, hkind, rfl⟩ := pick_yields h
  obtain rfl : .first = kind := Option.some.inj (first.symm.trans hkind)
  rw [over_accumulator, laws.accumulate, List.map_cons, laws.first, Codec.read_getD,
    values_elements, filter_counts unfiltered, codec_elements]
  rfl

theorem over_last {pick : Pick} (last : pick.accumulator? = some .last)
    (h : (g.pick pick site).Yields c t c') :
    t.over? engine g.stage (row :: rows) =
      (g.elements engine (row :: rows)).values.getLast?.map
        (g.elements engine (row :: rows)).outline.codec.read := by
  obtain ⟨unfiltered, kind, name, hkind, rfl⟩ := pick_yields h
  obtain rfl : .last = kind := Option.some.inj (last.symm.trans hkind)
  obtain ⟨front, back, hback⟩ := (List.eq_nil_or_concat' (row :: rows)).resolve_left nofun
  rw [over_accumulator, laws.accumulate, values_elements, filter_counts unfiltered,
    codec_elements, hback, List.map_append, List.map_singleton, laws.last, Codec.read_getD,
    List.getLast?_concat]
  rfl

theorem over_collect (plain : g.distinct = false) (h : (g.collect site).Yields c t c') :
    t.over? engine g.stage (row :: rows) =
      some (.array ((g.elements engine (row :: rows)).values.filterMap (·.or missing))) := by
  obtain ⟨unfiltered, name, rfl⟩ := collect_yields h
  rw [over_accumulator, plain, if_neg Bool.false_ne_true, laws.accumulate, laws.push,
    Codec.read_some (by simp), values_elements, filter_counts unfiltered]

end Over

section Apply

variable {call : Call Argument}

theorem apply_count_yields {kind : Aggregate} (counts : kind = .count ∨ kind = .longCount)
    (h : ((Operator.aggregate kind).apply registry g call).Yields c applied c') :
    ∃ g' c₁ t, (Operator.optionalFilter g call).Yields c g' c₁ ∧
      (g'.aggregate kind none call.text).Yields c₁ t c' ∧ applied = .terminal t := by
  rcases counts with rfl | rfl
  all_goals
    simp only [Operator.apply, BindM.yields_bind, BindM.yields_pure] at h
    obtain ⟨g', c₁, hg', t, c₂, ht, rfl, rfl⟩ := h
    exact ⟨g', c₁, t, hg', ht, rfl⟩

theorem apply_aggregate_yields {kind : Aggregate} (counts : ¬ (kind = .count ∨ kind = .longCount))
    (h : ((Operator.aggregate kind).apply registry g call).Yields c applied c') :
    ∃ o c₁ t, (call.optionalLambda g).Yields c o c₁ ∧
      (g.aggregate kind o call.text).Yields c₁ t c' ∧ applied = .terminal t := by
  cases kind with
  | count | longCount => simp at counts
  | _ =>
    simp only [Operator.apply, BindM.yields_bind, BindM.yields_pure] at h
    obtain ⟨o, c₁, ho, t, c₂, ht, rfl, rfl⟩ := h
    exact ⟨o, c₁, t, ho, ht, rfl⟩

theorem apply_element_yields {pick : Pick}
    (h : ((Operator.element pick).apply registry g call).Yields c applied c') :
    ∃ g' c₁ t, (Operator.optionalFilter g call).Yields c g' c₁ ∧
      (g'.pick pick call.text).Yields c₁ t c' ∧ applied = .terminal t := by
  simp only [Operator.apply, BindM.yields_bind, BindM.yields_pure] at h
  obtain ⟨g', c₁, hg', t, c₂, ht, rfl, rfl⟩ := h
  exact ⟨g', c₁, t, hg', ht, rfl⟩

theorem apply_collect_yields (collects : op = .toList ∨ op = .toArray)
    (h : (op.apply registry g call).Yields c applied c') :
    ∃ t, (g.collect call.text).Yields c t c' ∧ applied = .terminal t := by
  rcases collects with rfl | rfl
  all_goals
    obtain ⟨t, c₁, ht, happlied⟩ := BindM.yields_bind.mp h
    obtain ⟨rfl, rfl⟩ := BindM.yields_pure.mp happlied
    exact ⟨t, ht, rfl⟩

end Apply

variable (exact : engine.Exact) (laws : engine.Accumulates reduce missing)
  {row : Value} (optional : Optional engine (row :: rows) c outer call)
include exact laws optional

theorem answered_aggregate {kind : Aggregate}
    (h : ((Operator.aggregate kind).apply registry g (Expr.bindArguments registry call)).Yields c
      applied c') :
    Answered engine registry outer reduce missing g (row :: rows) c (.aggregate kind)
      call.arguments (applied.term Group.term) := by
  by_cases counts : kind = .count ∨ kind = .longCount
  · obtain ⟨g', c₁, t, hg', ht, rfl⟩ := apply_count_yields counts h
    obtain ⟨stage, left⟩ := filter_of_optionalFilter exact optional laws.isTrue_and hg'
    have valued := over_count laws row rows counts ht
    rw [stage] at valued
    refine ⟨_, valued, ?_⟩
    rcases counts with rfl | rfl
    · rw [Operator.name, GroupElements.reduced?, left, aggregateCodec, Codec.read_some (by simp)]
      rfl
    · rw [Operator.name, GroupElements.reduced?, left, aggregateCodec, Codec.read_count]
      rfl
  · obtain ⟨o, c₁, t, ho, ht, rfl⟩ := apply_aggregate_yields counts h
    have mapped := map_of_optionalLambda exact optional ho
    generalize hvalue : (o.map Lambda.body).getD g.element = value at mapped
    let selected : Group := { g with element := value }
    have values : (selected.elements engine (row :: rows)).values =
        ((row :: rows).filter (g.counts engine)).map (value.valueIn engine) :=
      selected.values_elements
    have codec : (selected.elements engine (row :: rows)).outline.codec = value.codec :=
      selected.codec_elements
    refine ⟨_, over_aggregate laws row rows hvalue ht, ?_⟩
    cases kind with
    | count | longCount => simp at counts
    | average =>
      rw [Operator.name, GroupElements.reduced?, mapped, aggregateCodec,
        Codec.read_some (by simp)]
      exact congrArg (fun vs => some (reduce .avg vs)) values
    | sum | min | max =>
      rw [Operator.name, GroupElements.reduced?, GroupElements.reducedBy?, mapped]
      simp only [Option.bind_eq_bind, Option.bind_some, Option.pure_def]
      exact congrArg some (congrArg₂ (fun (codec : Codec) vs => codec.read (some (reduce _ vs)))
        codec values)

theorem answered_element {pick : Pick} {kind : AccumulatorKind}
    (picks : pick.accumulator? = some kind)
    (h : ((Operator.element pick).apply registry g (Expr.bindArguments registry call)).Yields c
      applied c') :
    Answered engine registry outer reduce missing g (row :: rows) c (.element pick)
      call.arguments (applied.term Group.term) := by
  obtain ⟨g', c₁, t, hg', ht, rfl⟩ := apply_element_yields h
  obtain ⟨stage, left⟩ := filter_of_optionalFilter exact optional laws.isTrue_and hg'
  obtain ⟨unfiltered, -⟩ := pick_yields ht
  have values : (g'.elements engine (row :: rows)).values =
      (row :: rows).map (g'.element.valueIn engine) := by
    rw [values_elements, filter_counts unfiltered]
  cases pick with
  | single | singleOrDefault => cases picks
  | first | firstOrDefault =>
    have valued := over_first laws row rows rfl ht
    rw [stage] at valued
    refine ⟨_, valued.trans (by rw [values]; rfl), ?_⟩
    rw [Operator.name, GroupElements.reduced?, left, Option.bind_eq_bind, Option.bind_some,
      values]
    rfl
  | last | lastOrDefault =>
    have valued := over_last laws row rows rfl ht
    have some_last : (g'.elements engine (row :: rows)).values.getLast? =
        some (((rows.map (g'.element.valueIn engine)).getLast?).getD
          (g'.element.valueIn engine row)) := by
      rw [values, List.map_cons, List.getLast?_cons]
    rw [stage] at valued
    refine ⟨_, valued.trans (by rw [some_last]; rfl), ?_⟩
    rw [Operator.name, GroupElements.reduced?, left, Option.bind_eq_bind, Option.bind_some,
      some_last]
    rfl

omit exact optional in
theorem answered_collect (collects : op = .toList ∨ op = .toArray) (plain : g.distinct = false)
    (h : (op.apply registry g (Expr.bindArguments registry call)).Yields c applied c') :
    Answered engine registry outer reduce missing g (row :: rows) c op call.arguments
      (applied.term Group.term) := by
  obtain ⟨t, ht, rfl⟩ := apply_collect_yields collects h
  refine ⟨_, over_collect laws row rows plain ht, ?_⟩
  rcases collects with rfl | rfl
  · rfl
  · rfl

end Answers

end Group

/-- **Aggregates of a group have the value that their author means.** A chain that filters and
maps the elements of a group, and a last call that reduces them, is bound to an accumulator of
the group's stage. Its value over the rows of the group is what the chain and the last call give
on the list of elements, if what lambdas read beside their element is the same for all rows. -/
theorem Expr.aggregates_elements (exact : engine.Exact)
    {reduce : AccumulatorKind → List (Option Value) → Value} {missing : Option Value}
    (laws : engine.Accumulates reduce missing) {source : Expr} {g : Group} {c c₀ c' : Context}
    (hsource : (source.bind registry).Yields c g.term c₀) {chain : List (Call Expr)}
    (plain : ∀ call ∈ chain, call.narrowsOrMaps = true) {last : Call Expr}
    (reduces : last.reducesGroup = true)
    (collects : last.name = "ToList" ∨ last.name = "ToArray" → g.distinct = false) {t : Term}
    (h : ((source.applied (chain ++ [last])).bind registry).Yields c t c') {row : Value}
    {rows : List Value} {outer : Data}
    (steady : ∀ call ∈ chain ++ [last],
      GroupElements.Steady engine (row :: rows) c outer call.outerNames) :
    ∃ v, t.over? engine g.stage (row :: rows) = some v ∧
      (g.elements engine (row :: rows)).answer? engine registry c.outlines outer reduce missing
        chain last = some v := by
  rw [Expr.applied, List.foldl_append] at h
  simp only [List.foldl_cons, List.foldl_nil, Expr.bind, BindM.yields_bind,
    BindM.yields_ofExcept] at h
  obtain ⟨op, _, ⟨hop, rfl⟩, t', c₁, ht', happly⟩ := h
  obtain ⟨same, g', rfl, becomes⟩ := Group.becomes_of_bind exact laws.isTrue_and hsource plain
    (fun call hcall => steady call (List.mem_append_left _ hcall)) ht'
  obtain ⟨applied, happlied, rfl⟩ := Group.applyOperator_yields.mp happly
  obtain ⟨named, -, -⟩ := Operator.ofCall_eq_ok_iff.mp hop
  have answered : Group.Answered engine registry outer reduce missing g' (row :: rows) c₁
      op last.arguments (applied.term Group.term) := by
    have optional : Group.Optional engine (row :: rows) c₁ outer last := by
      refine Group.optional_of_reducesGroup reduces hop fun name hname r hr => ?_
      rw [Context.data_congr same]
      exact steady last (List.mem_append_right _ (List.mem_singleton_self _)) name hname r hr
    have distinct (hname : last.name = "ToList" ∨ last.name = "ToArray") : g'.distinct = false :=
      becomes.distinct.trans (collects hname)
    rcases Group.operator_of_reducesGroup reduces hop with
      ⟨kind, rfl⟩ | (rfl | rfl) | (rfl | rfl) | rfl | rfl
    · exact Group.answered_aggregate exact laws optional happlied
    · exact Group.answered_element exact laws optional rfl happlied
    · exact Group.answered_element exact laws optional rfl happlied
    · exact Group.answered_element exact laws optional rfl happlied
    · exact Group.answered_element exact laws optional rfl happlied
    · exact Group.answered_collect laws (.inl rfl) (distinct (.inl named.symm)) happlied
    · exact Group.answered_collect laws (.inr rfl) (distinct (.inr named.symm)) happlied
  obtain ⟨v, valued, reduced⟩ := answered
  rw [becomes.stage] at valued
  rw [Context.outlines_congr same] at reduced
  refine ⟨v, valued, ?_⟩
  rw [GroupElements.answer?, becomes.elements, ← named]
  exact reduced

/-! ### A filtered sum, and a key -/

/-- Citizens with their city and their age. -/
def citizens : Registry where
  classes := [.mk "Person" none
    [.mk "City" "city" (.static .string), .mk "Age" "age" (.static .int32)]]

/-- The citizens of one city, as grouping by the city gives them. -/
def cityGroup : Group where
  stage := 0
  key := .field (.field "_id") .string
  element := .root ((citizens.codec? (.document "Person")).getD .dynamic)

/-- The group is in scope. -/
def ofCity : Context := ({} : Context).push "g" cityGroup.term

/-- A citizen with an identifier of their own. -/
def citizen (id age : Int32) : Value :=
  .document [("_id", .int32 id), ("city", .string "Izmir"), ("age", .int32 age)]

/-- The ages of those older than thirty, as far as they are below sixty. -/
def agesInBounds : List (Call Expr) := [
  ⟨"Enumerable", "Where", [], [.lambda ["x"]
    (.binary .gt (.member (.param "x") "Age") (.const (.int32 30) .int32))]⟩,
  ⟨"Enumerable", "Select", [], [.lambda ["x"] (.member (.param "x") "Age")]⟩,
  ⟨"Enumerable", "Where", [], [.lambda ["a"]
    (.binary .lt (.param "a") (.const (.int32 60) .int32))]⟩]

/-- Their sum: an age within the bounds, else zero. -/
def agesInBoundsSum : Term :=
  .accumulator 0 .sum
    (.cond
      (.binary .and (.binary .gt (.field (.field "age") .int32) (.int32 30))
        (.binary .lt (.field (.field "age") .int32) (.int32 60)))
      (.field (.field "age") .int32) (.int32 0))
    "__agg0" .int32

theorem agesInBounds_total :
    (((Expr.param "g").applied (agesInBounds ++ [⟨"Enumerable", "Sum", [], []⟩])).bind
        citizens).Yields ofCity agesInBoundsSum { ofCity with minted := 1 } ∧
      agesInBoundsSum.over? .totalling 0 [citizen 1 41, citizen 2 17, citizen 3 64, citizen 4 35] =
        some (.int32 76) ∧
      (cityGroup.elements .totalling
        [citizen 1 41, citizen 2 17, citizen 3 64, citizen 4 35]).answer? .totalling citizens
          ofCity.outlines (fun _ => none) Value.accumulated none agesInBounds
          ⟨"Enumerable", "Sum", [], []⟩ = some (.int32 76) := by
  have bound : (((Expr.param "g").applied (agesInBounds ++ [⟨"Enumerable", "Sum", [], []⟩])).bind
      citizens).Yields ofCity agesInBoundsSum { ofCity with minted := 1 } := rfl
  have alone : ∀ call ∈ agesInBounds ++ [⟨"Enumerable", "Sum", [], []⟩],
      call.outerNames = [] := by decide
  have group : ((Expr.param "g").bind citizens).Yields ofCity cityGroup.term ofCity := rfl
  have total : agesInBoundsSum.over? .totalling 0
      [citizen 1 41, citizen 2 17, citizen 3 64, citizen 4 35] = some (.int32 76) := by rfl
  have steady : ∀ call ∈ agesInBounds ++ [⟨"Enumerable", "Sum", [], []⟩],
      GroupElements.Steady .totalling
        (citizen 1 41 :: [citizen 2 17, citizen 3 64, citizen 4 35]) ofCity (fun _ => none)
        call.outerNames := by
    intro call hcall name hname
    rw [alone call hcall] at hname
    cases hname
  obtain ⟨v, valued, answer⟩ := Expr.aggregates_elements Engine.exact_totalling
    Engine.accumulates_totalling group (by decide) (by decide) (fun _ => rfl) bound steady
  obtain rfl := Option.some.inj (total.symm.trans valued)
  exact ⟨bound, total, answer⟩

/-- How many citizens live in the city that is the key. -/
def livingInKey : Call Expr :=
  ⟨"Enumerable", "Count", [], [.lambda ["x"]
    (.binary .eq (.member (.param "x") "City") (.member (.param "g") "Key"))]⟩

/-- All citizens of a group live in its city. But the key in the lambda is bound to the field
where the row of the group has it, and the accumulator looks there in the citizens' rows. -/
theorem livingInKey_reads_identifiers :
    ((cityGroup.elements .totalling [citizen 1 41, citizen 2 17]).answer? .totalling citizens
        ofCity.outlines
        (fun name => if name = "g" then some (.group (.value (some (.string "Izmir")))) else none)
        Value.accumulated none [] livingInKey = some (.int32 2)) ∧
      ∃ t c', (((Expr.param "g").applied [livingInKey]).bind citizens).Yields ofCity t c' ∧
        t.over? .totalling 0 [citizen 1 41, citizen 2 17] = some (.int32 0) :=
  ⟨rfl, _, _, rfl, rfl⟩

end QueryPipeline
