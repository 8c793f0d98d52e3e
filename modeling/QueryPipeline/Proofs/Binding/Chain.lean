import QueryPipeline.Proofs.Binding.Lambda

/-!
Operators on the items of an array. For a sequence that holds some items, each operator
gives a sequence or a term that holds what the operator means for them.
-/

namespace QueryPipeline

variable {engine : Engine} {registry : Registry} {other? : Others} {vars : List String}

/-! ### What operators make of items -/

/-- A term is what an operator makes of a sequence of items. -/
structure Follows (engine : Engine) (vars : List String) (c : Context) (s : Items)
    (q : Sequel) (t : Term) : Prop where
  outline : t.outline = .stored q.codec
  reads : t.ReadsIn vars
  sliced : t.Sliced fun _ => True
  value {env : Env} {items : List Value} {r : Option Value} :
    c.Every (Term.Countable engine env) → s.Holds engine env items →
    q.value (c.data engine env) items = some r →
    t.eval engine env = r ∧ t.Countable engine env

namespace Follows

variable {c : Context} {s : Items} {q : Sequel}

/-- The operator leaves a sequence. -/
theorem of_items {s' : Items} (ranges : s'.Over vars) (codec : q.codec = .arrayOf s'.codec)
    (holds : ∀ {env : Env} {items : List Value} {r : Option Value},
      c.Every (Term.Countable engine env) → s.Holds engine env items →
      q.value (c.data engine env) items = some r →
      ∃ left, r = some (.array left) ∧ s'.Holds engine env left) :
    Follows engine vars c s q s'.windowed where
  outline := by rw [ranges.outline_windowed, codec]
  reads := ranges.reads_windowed
  sliced := ranges.sliced_windowed trivial
  value countable hs hr := by
    obtain ⟨left, rfl, hleft⟩ := holds countable hs hr
    exact ⟨hleft.eval_windowed, ranges.sliced_windowed hleft.fewItems⟩

/-- The operator gives a value. -/
theorem of_value {t : Term} (reads : t.ReadsIn vars) (outline : t.outline = .stored q.codec)
    (no_slice : t.isSlice = false)
    (value : ∀ {env : Env} {items : List Value} {r : Option Value},
      c.Every (Term.Countable engine env) → s.Holds engine env items →
      q.value (c.data engine env) items = some r → t.eval engine env = r) :
    Follows engine vars c s q t where
  outline := outline
  reads := reads
  sliced := .other (Items.isValue_of_outline outline) no_slice
  value countable hs hr :=
    ⟨value countable hs hr, .other (Items.isValue_of_outline outline) no_slice⟩

/-- An open sort does not matter. -/
theorem of_closeSort {t : Term} (h : Follows engine vars c (Sequence.closeSort s) q t) :
    Follows engine vars c s q t :=
  ⟨h.outline, h.reads, h.sliced, fun countable hs => h.value countable hs.closeSort⟩

/-- A condition counts a missing value as it counts null. -/
theorem isTrue_getD (absent : engine.isTrue none = engine.isTrue (some .null))
    (v : Option Value) : engine.isTrue (some (v.getD .null)) = engine.isTrue v := by
  cases v with
  | none => exact absent.symm
  | some v => rfl

section Operators

variable {call : Call Expr} {e : Expr} {c' : Context} {applied : Applied Items Term}
  (single : call.arguments = [e]) (apart : e.apart vars = true) (fit : c.Fit vars)
  (sound : ∀ parameter body, e = .lambda [parameter] body →
    body.Sound engine registry other?)
  (ranges : s.Over vars) {f : Selector}
  (hf : (e.operand engine registry other? c.outlines).selector? s.codec = some f)

include single apart fit sound ranges hf

theorem filter_apply
    (h : (Operator.filter.apply registry s (Expr.bindArguments registry call)).Yields c
      applied c') :
    c'.scopes = c.scopes ∧
      Follows engine vars c s (.ofTable (.arrayOf s.codec) f fun table =>
        some (.array ((table.filter fun a => engine.isTrue a.2).map Prod.fst)))
        (applied.term Items.windowed) := by
  simp only [Operator.apply, BindM.yields_bind, Operator.yields_next] at h
  obtain ⟨l, c₁, hl, s', hs', rfl, rfl⟩ := h
  cases hs'
  obtain ⟨scopes, selects⟩ := Selects.of_lambda single apart fit sound hf hl
  refine ⟨scopes, of_items (ranges.closeSort.filter selects.reads) rfl ?_⟩
  intro env items r countable hs hr
  obtain ⟨table, htable, rfl⟩ := Option.map_eq_some_iff.mp hr
  rw [selects.kept countable htable]
  exact ⟨_, rfl, hs.closeSort.filter⟩

theorem project_apply
    (h : (Operator.project.apply registry s (Expr.bindArguments registry call)).Yields c
      applied c') :
    c'.scopes = c.scopes ∧
      Follows engine vars c s (.ofTable (.arrayOf f.codec) f fun table =>
        some (.array (table.map fun a => a.2.getD .null)))
        (applied.term Items.windowed) := by
  simp only [Operator.apply, BindM.yields_bind, Operator.yields_next] at h
  obtain ⟨l, c₁, hl, s', hs', rfl, rfl⟩ := h
  cases hs'
  obtain ⟨scopes, selects⟩ := Selects.of_lambda single apart fit sound hf hl
  refine ⟨scopes, of_items (ranges.closeSort.project selects.reads)
    (congrArg Codec.arrayOf selects.codec.symm) ?_⟩
  intro env items r countable hs hr
  obtain ⟨table, htable, rfl⟩ := Option.map_eq_some_iff.mp hr
  obtain rfl := selects.table countable htable
  refine ⟨_, rfl, ?_⟩
  rw [List.map_map]
  exact hs.closeSort.project

theorem any_apply (absent : engine.isTrue none = engine.isTrue (some .null))
    (h : (Operator.any.apply registry s (Expr.bindArguments registry call)).Yields c
      applied c') :
    c'.scopes = c.scopes ∧
      Follows engine vars c s (.ofTable .boolean f fun table =>
        some (.bool (table.any fun a => engine.isTrue a.2)))
        (applied.term Items.windowed) := by
  simp only [Operator.apply, BindM.yields_bind, Operator.yields_done] at h
  obtain ⟨o, c₁, ho, t, ht, rfl, rfl⟩ := h
  cases ht
  obtain ⟨l, rfl, hl⟩ := Call.optionalLambda_yields single ho
  obtain ⟨scopes, selects⟩ := Selects.of_lambda single apart fit sound hf hl
  refine ⟨scopes, of_value (Items.reads_mapped ranges.closeSort selects.reads) rfl rfl ?_⟩
  intro env items r countable hs hr
  obtain ⟨table, htable, rfl⟩ := Option.map_eq_some_iff.mp hr
  obtain rfl := selects.table countable htable
  change Value.onItems _ (((Sequence.closeSort s : Items).mapped l).eval engine env) = _
  rw [hs.closeSort.eval_mapped, Value.onItems, List.any_map, List.any_map]
  simp only [Function.comp_def, isTrue_getD absent]

theorem all_apply (absent : engine.isTrue none = engine.isTrue (some .null))
    (h : (Operator.all.apply registry s (Expr.bindArguments registry call)).Yields c
      applied c') :
    c'.scopes = c.scopes ∧
      Follows engine vars c s (.ofTable .boolean f fun table =>
        some (.bool (table.all fun a => engine.isTrue a.2)))
        (applied.term Items.windowed) := by
  simp only [Operator.apply, BindM.yields_bind, Operator.yields_done] at h
  obtain ⟨l, c₁, hl, t, ht, rfl, rfl⟩ := h
  cases ht
  obtain ⟨scopes, selects⟩ := Selects.of_lambda single apart fit sound hf hl
  refine ⟨scopes, of_value (Items.reads_mapped ranges.closeSort selects.reads) rfl rfl ?_⟩
  intro env items r countable hs hr
  obtain ⟨table, htable, rfl⟩ := Option.map_eq_some_iff.mp hr
  obtain rfl := selects.table countable htable
  change Value.onItems _ (((Sequence.closeSort s : Items).mapped l).eval engine env) = _
  rw [hs.closeSort.eval_mapped, Value.onItems, List.all_map, List.all_map]
  simp only [Function.comp_def, isTrue_getD absent]

end Operators

section Calls

variable {call : Call Expr} {e : Expr} {c' : Context} {applied : Applied Items Term}

/-- A skip or a take pages the items. -/
theorem page_apply {step : Paging} {op : Operator} (ranges : s.Over vars)
    (hstep : Paging.ofCall? call = some step) (hop : Operator.ofCall call = .ok op)
    (h : (op.apply registry s (Expr.bindArguments registry call)).Yields c applied c') :
    c' = c ∧ Follows engine vars c s (.ofItems s.codec step.apply)
      (applied.term Items.windowed) := by
  have hpaged (site : String) : step.of (Sequence.closeSort s) site =
      .ok { Sequence.closeSort s with paging := s.paging.page step } := by
    cases step <;> rfl
  obtain ⟨op', hop', happly⟩ := Paging.apply_yields registry hstep (hpaged _) c
  obtain rfl : op = op' := Except.ok.inj (hop.symm.trans hop')
  obtain ⟨rfl, rfl⟩ := h.unique happly
  refine ⟨rfl, of_items (ranges.closeSort.paged step) rfl ?_⟩
  intro env items r _ hs hr
  obtain rfl := Option.some.inj hr
  exact ⟨_, rfl, hs.closeSort.paged step⟩

/-- A number of elements is compared with zero as it stands. -/
theorem foldBinary_count (n : Nat) :
    Value.foldBinary .gt (.count n) (.int32 0) = some (.bool (0 < n)) := by
  have compared : ∃ m : Nat, (0 < m ↔ 0 < n) ∧
      (Value.count n).compare? (.int32 0) = some (compare (m : Int) 0) := by
    unfold Value.count
    split
    · refine ⟨n, Iff.rfl, ?_⟩
      simp only [Value.compare?]
      rw [Int32.toInt_ofInt_of_le (by omega) (by omega)]
      rfl
    · refine ⟨min n 9223372036854775807, by omega, ?_⟩
      simp only [Value.compare?]
      rw [Int64.toInt_ofInt_of_le (by omega) (by omega)]
      rfl
  obtain ⟨m, hm, compared⟩ := compared
  have answer : (compare (m : Int) 0 == .gt) = decide (0 < n) := by
    rw [Bool.eq_iff_iff, beq_iff_eq, decide_eq_true_eq, ← hm, Int.compare_eq_gt]
    omega
  simp only [Value.foldBinary, BinaryOp.isComparison, ite_true, compared, BinaryOp.holds]
  rw [← answer]
  rfl

/-- Whether there is an item. -/
theorem any_items_apply (exact : engine.Exact) (ranges : s.Over vars)
    (no_argument : call.arguments = [])
    (h : (Operator.any.apply registry s (Expr.bindArguments registry call)).Yields c
      applied c') :
    c' = c ∧ Follows engine vars c s
      { codec := .boolean, value := fun _ items => some (some (.bool !items.isEmpty)) }
      (applied.term Items.windowed) := by
  simp only [Operator.apply, BindM.yields_bind, Operator.yields_done] at h
  obtain ⟨o, c₁, ho, t, ht, rfl, rfl⟩ := h
  cases ht
  obtain ⟨rfl, rfl⟩ := Call.optionalLambda_yields_nil no_argument ho
  refine ⟨rfl, of_value ?_ rfl rfl ?_⟩
  · intro x hx
    change x ∈ (Sequence.closeSort s : Items).windowed.reads ++ [] at hx
    rw [List.append_nil] at hx
    exact ranges.closeSort.reads_windowed x hx
  · intro env items r _ hs hr
    obtain rfl := Option.some.inj hr
    change engine.binary .gt (Value.size ((Sequence.closeSort s : Items).windowed.eval engine env))
      (some (.int32 0)) = _
    rw [hs.closeSort.eval_windowed]
    simp only [Value.size, Value.onItems]
    rw [exact.binary (foldBinary_count items.length)]
    cases items <;> simp

/-- Whether a value is among the items. -/
theorem contains_apply (single : call.arguments = [e]) (apart : e.apart vars = true)
    (fit : c.Fit vars) (sound : e.Sound engine registry other?) (ranges : s.Over vars)
    {m : Meaning} (hm : e.meaning? engine registry other? c.outlines = some m)
    (h : (Operator.contains.apply registry s (Expr.bindArguments registry call)).Yields c
      applied c') :
    c'.scopes = c.scopes ∧ Follows engine vars c s {
        codec := .boolean
        value := fun data items => (m.datum data).map fun d =>
          some (.bool (items.any fun v =>
            engine.isTrue (engine.binary .eq d.stored (some v)))) }
      (applied.term Items.windowed) := by
  simp only [Operator.apply, BindM.yields_bind, Operator.yields_done] at h
  obtain ⟨t, c₁, ht, u, hu, rfl, rfl⟩ := h
  cases hu
  obtain ⟨scopes, realizes⟩ := sound apart fit hm (Call.value_yields single ht)
  refine ⟨scopes, of_value ?_ rfl rfl ?_⟩
  · intro x hx
    exact (List.mem_append.mp hx).elim (realizes.reads x) (ranges.closeSort.reads_windowed x)
  · intro env items r countable hs hr
    obtain ⟨d, hd, rfl⟩ := Option.map_eq_some_iff.mp hr
    obtain ⟨hdatum, _⟩ := realizes.datum countable hd
    change Value.onItems _ ((Sequence.closeSort s : Items).windowed.eval engine env) = _
    rw [hs.closeSort.eval_windowed, ← Term.stored_datum, hdatum]
    rfl

/-- An item that is picked of a sequence, whose items are those that an earlier one
holds after a step. -/
theorem of_element {s' : Items} {pick : Pick} {site : String} {t : Term}
    {g : List Value → Option Value} (ranges : s'.Over vars) (codec : q.codec = s'.codec)
    (hpick : pick.of? = some g) (ht : s'.element pick site = .ok t)
    (holds : ∀ {env : Env} {items : List Value} {r : Option Value},
      c.Every (Term.Countable engine env) → s.Holds engine env items →
      q.value (c.data engine env) items = some r →
      ∃ left, s'.Holds engine env left ∧ r = g left) :
    Follows engine vars c s q t := by
  obtain ⟨reads, outline, no_slice⟩ := ranges.element hpick ht
  refine of_value reads (codec ▸ outline) no_slice ?_
  intro env items r countable hs hr
  obtain ⟨left, hleft, rfl⟩ := holds countable hs hr
  exact hleft.eval_element hpick ht

variable (engine) in
/-- The item a number of items from the front. -/
theorem elementAt_apply {pick : Pick} {n : Nat} {t : Term} (ranges : s.Over vars)
    (hcount : Paging.count? call.arguments = some n) (hpick : pick.of? = some List.head?)
    (h : (Operator.elementAtStep s pick (Expr.bindArguments registry call)).Yields c t c') :
    c' = c ∧ Follows engine vars c s { codec := s.codec, value := fun _ items => some items[n]? }
      t := by
  simp only [Operator.elementAtStep, BindM.yields_bind, BindM.yields_ofExcept] at h
  obtain ⟨n', c₁, hn', s', c₂, ⟨hs', rfl⟩, h⟩ := h
  cases hs'
  obtain ⟨rfl, rfl⟩ := hn'.unique (Paging.count_yields hcount c)
  obtain ⟨ht, rfl⟩ := BindM.yields_ofExcept.mp h
  refine ⟨rfl, of_element (ranges.paged (.skip n')) rfl hpick ht ?_⟩
  intro env items r _ hs hr
  obtain rfl := Option.some.inj hr
  exact ⟨_, hs.paged (.skip n'), by rw [Paging.apply, List.head?_drop]⟩

end Calls

section Narrowed

variable {call : Call Expr} {c' : Context} {applied : Applied Items Term}
  (apart : ∀ e ∈ call.arguments, e.apart vars = true) (fit : c.Fit vars)
  (sound : ∀ e ∈ call.arguments, ∀ parameter body, e = .lambda [parameter] body →
    body.Sound engine registry other?)
  (ranges : s.Over vars) {codec : Codec} {g : List Value → Option Value}
  (hq : Sequel.narrowed engine codec s.codec
    (call.arguments.map (Expr.operand engine registry other? c.outlines)) g = some q)

include apart fit sound ranges hq

/-- The items that a predicate keeps, or all items without one. -/
theorem optionalFilter_yields {s' : Items}
    (h : (Operator.optionalFilter s (Expr.bindArguments registry call)).Yields c s' c') :
    c'.scopes = c.scopes ∧ q.codec = codec ∧ s'.Over vars ∧ s'.codec = s.codec ∧
      ∀ {env : Env} {items : List Value} {r : Option Value},
        c.Every (Term.Countable engine env) → s.Holds engine env items →
        q.value (c.data engine env) items = some r →
        ∃ kept, s'.Holds engine env kept ∧ r = g kept := by
  simp only [Operator.optionalFilter, BindM.yields_bind] at h
  obtain ⟨o, c₁, ho, h⟩ := h
  unfold Sequel.narrowed at hq
  split at hq
  · rename_i hargs
    obtain ⟨rfl, rfl⟩ := Call.optionalLambda_yields_nil (List.map_eq_nil_iff.mp hargs) ho
    obtain ⟨rfl, rfl⟩ := BindM.yields_pure.mp h
    obtain rfl := Option.some.inj hq
    refine ⟨rfl, rfl, ranges, rfl, ?_⟩
    intro env items r _ hs hr
    exact ⟨items, hs, (Option.some.inj hr).symm⟩
  · rename_i operand hargs
    obtain ⟨e, single, rfl⟩ := List.map_eq_singleton_iff.mp hargs
    have hmem : e ∈ call.arguments := by simp [single]
    obtain ⟨l, rfl, hl⟩ := Call.optionalLambda_yields single ho
    obtain ⟨hs', rfl⟩ := BindM.yields_ofExcept.mp h
    cases hs'
    obtain ⟨f, hf, hq⟩ := Option.bind_eq_some_iff.mp hq
    obtain rfl := Option.some.inj hq
    obtain ⟨scopes, selects⟩ :=
      Selects.of_lambda single (apart e hmem) fit (sound e hmem) hf hl
    refine ⟨scopes, rfl, ranges.filter selects.reads, rfl, ?_⟩
    intro env items r countable hs hr
    obtain ⟨table, htable, rfl⟩ := Option.map_eq_some_iff.mp hr
    rw [selects.kept countable htable]
    exact ⟨_, hs.filter, rfl⟩
  · cases hq

theorem count_apply (hcodec : codec = .int32)
    (hg : ∀ items, g items = some (.count items.length))
    (h : ((Operator.aggregate .count).apply registry s (Expr.bindArguments registry call)).Yields
      c applied c') :
    c'.scopes = c.scopes ∧ Follows engine vars c s q (applied.term Items.windowed) := by
  simp only [Operator.apply, BindM.yields_bind, BindM.yields_pure] at h
  obtain ⟨s', c₁, hs', t, c₂, ht, rfl, rfl⟩ := h
  obtain ⟨rfl, rfl⟩ := BindM.yields_pure.mp ht
  obtain ⟨scopes, qcodec, ranges', _, kept⟩ :=
    optionalFilter_yields (s := Sequence.closeSort s) apart fit sound ranges.closeSort hq hs'
  refine ⟨scopes, of_value ranges'.reads_windowed ?_ rfl ?_⟩
  · rw [qcodec, hcodec]
    rfl
  · intro env items r countable hs hr
    obtain ⟨left, hleft, rfl⟩ := kept countable hs.closeSort hr
    change Value.size (s'.windowed.eval engine env) = _
    rw [hleft.eval_windowed, hg]
    rfl

theorem element_apply {pick : Pick} (hcodec : codec = s.codec) (hpick : pick.of? = some g)
    (h : ((Operator.element pick).apply registry s (Expr.bindArguments registry call)).Yields
      c applied c') :
    c'.scopes = c.scopes ∧ Follows engine vars c s q (applied.term Items.windowed) := by
  simp only [Operator.apply, BindM.yields_bind, BindM.yields_pure] at h
  obtain ⟨s', c₁, hs', t, c₂, ht, rfl, rfl⟩ := h
  obtain ⟨hpicked, rfl⟩ := BindM.yields_ofExcept.mp ht
  obtain ⟨scopes, qcodec, ranges', samecodec, kept⟩ :=
    optionalFilter_yields (s := Sequence.closeSort s) apart fit sound ranges.closeSort hq hs'
  refine ⟨scopes, of_element ranges' ?_ hpick hpicked ?_⟩
  · rw [qcodec, hcodec, samecodec]
    rfl
  · intro env items r countable hs hr
    exact kept countable hs.closeSort hr

end Narrowed

/-- **One call**: what an operator means for the items of a sequence is what it is bound
to. -/
theorem of_apply (exact : engine.Exact)
    (absent : engine.isTrue none = engine.isTrue (some .null)) {call : Call Expr}
    {c' : Context} {applied : Applied Items Term} {op : Operator}
    (hop : Operator.ofCall call = .ok op)
    (apart : ∀ e ∈ call.arguments, e.apart vars = true) (fit : c.Fit vars)
    (values : ∀ e ∈ call.arguments, e.Sound engine registry other?)
    (lambdas : ∀ e ∈ call.arguments, ∀ parameter body, e = .lambda [parameter] body →
      body.Sound engine registry other?)
    (ranges : s.Over vars)
    (hq : Sequel.ofMethod? engine s.codec call.name
      (call.arguments.map (Expr.operand engine registry other? c.outlines)) = some q)
    (h : (op.apply registry s (Expr.bindArguments registry call)).Yields c applied c') :
    c'.scopes = c.scopes ∧ Follows engine vars c s q (applied.term Items.windowed) := by
  generalize hname : call.name = method at hq
  generalize hargs : call.arguments.map (Expr.operand engine registry other? c.outlines) =
    operands at hq
  have denoted := Operator.eq_of_ofCall hop
  -- The only argument of a call that takes one.
  have single {o : Operand}
      (hargs : call.arguments.map (Expr.operand engine registry other? c.outlines) = [o]) :
      ∃ e, call.arguments = [e] ∧ e ∈ call.arguments ∧
        e.operand engine registry other? c.outlines = o := by
    obtain ⟨e, he, ho⟩ := List.map_eq_singleton_iff.mp hargs
    exact ⟨e, he, by simp [he], ho⟩
  have counted {o : Operand} {n : Nat}
      (hargs : call.arguments.map (Expr.operand engine registry other? c.outlines) = [o])
      (hn : o.count? = some n) : Paging.count? call.arguments = some n := by
    obtain ⟨e, he, _, rfl⟩ := single hargs
    rw [he]
    exact Expr.count_operand hn
  unfold Sequel.ofMethod? at hq
  split at hq
  case h_1 =>
    obtain rfl := denoted .filter hname
    obtain ⟨e, he, hmem, rfl⟩ := single hargs
    obtain ⟨f, hf, hq⟩ := Option.bind_eq_some_iff.mp hq
    obtain rfl := Option.some.inj hq
    exact filter_apply he (apart e hmem) fit (lambdas e hmem) ranges hf h
  case h_2 =>
    obtain rfl := denoted .project hname
    obtain ⟨e, he, hmem, rfl⟩ := single hargs
    obtain ⟨f, hf, hq⟩ := Option.bind_eq_some_iff.mp hq
    obtain rfl := Option.some.inj hq
    exact project_apply he (apart e hmem) fit (lambdas e hmem) ranges hf h
  case h_3 =>
    obtain rfl := denoted .skip hname
    obtain ⟨n, hn, rfl⟩ := Option.map_eq_some_iff.mp hq
    obtain ⟨rfl, follows⟩ :=
      page_apply ranges (Paging.ofCall?_skip hop (counted hargs hn)) hop h
    exact ⟨rfl, follows⟩
  case h_4 =>
    obtain rfl := denoted .take hname
    obtain ⟨n, hn, rfl⟩ := Option.map_eq_some_iff.mp hq
    obtain ⟨rfl, follows⟩ :=
      page_apply ranges (Paging.ofCall?_take hop (counted hargs hn)) hop h
    exact ⟨rfl, follows⟩
  case h_5 =>
    obtain rfl := denoted .any hname
    obtain rfl := Option.some.inj hq
    obtain ⟨rfl, follows⟩ := any_items_apply exact ranges (List.map_eq_nil_iff.mp hargs) h
    exact ⟨rfl, follows⟩
  case h_6 =>
    obtain rfl := denoted .any hname
    obtain ⟨e, he, hmem, rfl⟩ := single hargs
    obtain ⟨f, hf, hq⟩ := Option.bind_eq_some_iff.mp hq
    obtain rfl := Option.some.inj hq
    exact any_apply he (apart e hmem) fit (lambdas e hmem) ranges hf absent h
  case h_7 =>
    obtain rfl := denoted .all hname
    obtain ⟨e, he, hmem, rfl⟩ := single hargs
    obtain ⟨f, hf, hq⟩ := Option.bind_eq_some_iff.mp hq
    obtain rfl := Option.some.inj hq
    exact all_apply he (apart e hmem) fit (lambdas e hmem) ranges hf absent h
  case h_8 =>
    obtain rfl := denoted .contains hname
    obtain ⟨e, he, hmem, rfl⟩ := single hargs
    obtain ⟨m, hm, hq⟩ := Option.bind_eq_some_iff.mp hq
    obtain rfl := Option.some.inj hq
    exact contains_apply he (apart e hmem) fit (values e hmem) ranges (Expr.meaning_operand hm) h
  case h_9 =>
    obtain rfl := denoted (.aggregate .count) hname
    exact count_apply apart fit lambdas ranges (hargs ▸ hq) rfl (fun _ => rfl) h
  case h_10 =>
    obtain rfl := denoted (.element .first) hname
    exact element_apply apart fit lambdas ranges (hargs ▸ hq) rfl rfl h
  case h_11 =>
    obtain rfl := denoted (.element .firstOrDefault) hname
    exact element_apply apart fit lambdas ranges (hargs ▸ hq) rfl rfl h
  case h_12 =>
    obtain rfl := denoted (.element .last) hname
    exact element_apply apart fit lambdas ranges (hargs ▸ hq) rfl rfl h
  case h_13 =>
    obtain rfl := denoted (.element .lastOrDefault) hname
    exact element_apply apart fit lambdas ranges (hargs ▸ hq) rfl rfl h
  case h_14 =>
    obtain rfl := denoted .elementAt hname
    obtain ⟨n, hn, rfl⟩ := Option.map_eq_some_iff.mp hq
    simp only [Operator.apply, BindM.yields_bind, BindM.yields_pure] at h
    obtain ⟨t, c₁, ht, rfl, rfl⟩ := h
    obtain ⟨rfl, follows⟩ :=
      elementAt_apply engine ranges.closeSort (counted hargs hn) rfl ht
    exact ⟨rfl, follows.of_closeSort⟩
  case h_15 =>
    obtain rfl := denoted .elementAtOrDefault hname
    obtain ⟨n, hn, rfl⟩ := Option.map_eq_some_iff.mp hq
    simp only [Operator.apply, BindM.yields_bind, BindM.yields_pure] at h
    obtain ⟨t, c₁, ht, rfl, rfl⟩ := h
    obtain ⟨rfl, follows⟩ :=
      elementAt_apply engine ranges.closeSort (counted hargs hn) rfl ht
    exact ⟨rfl, follows.of_closeSort⟩
  case h_16 => cases hq

end Follows

end QueryPipeline
