import QueryPipeline.Proofs.Answer
import QueryPipeline.Proofs.Binding.Definedness
import QueryPipeline.Proofs.Binding.FreeNames
import QueryPipeline.Proofs.Semantics.Group

/-!
Whether all elements satisfy a predicate. Over the items of an array each item is tested, and a
test that gives null or nothing counts as false (`Expr.all_items`). Over rows the least test is
taken, which passes over null and what is missing (`Pipeline.all_rows`). So the two agree where
some test is false or all are true, and nowhere else (`all_agrees_iff`).
-/

namespace QueryPipeline

variable {engine : Engine} {registry : Registry} {other? : Others}

/-! ### Truth values -/

/-- What a test gives: a truth value, null or nothing. -/
def Value.IsTest (r : Option Value) : Prop := r = none ∨ r = some .null ∨ ∃ b, r = some (.bool b)

/-- How the server takes tests: null is not true, and the least test of rows is that of the
truth values among them. -/
structure Engine.Judges (engine : Engine) : Prop where
  isTrue_null : engine.isTrue (some .null) = false
  least (t : Term) (row : Value) (rows : List Value) :
    (∀ r ∈ (row :: rows).map (t.valueIn engine), Value.IsTest r) →
    engine.accumulate .min t (row :: rows) =
      some (Value.extreme .lt (Value.present ((row :: rows).map (t.valueIn engine))))

namespace Value

/-- The least of truth values is whether all are true. -/
theorem extreme_bools (b : Bool) (bs : List Bool) :
    extreme .lt ((b :: bs).map Value.bool) = .bool ((b :: bs).all id) := by
  have onto (a : Bool) : (bs.map Value.bool).foldl
      (fun a b => if b.compare? a = some .lt then b else a) (.bool a) =
        .bool (a && bs.all id) := by
    induction bs generalizing a with
    | nil => simp
    | cons b bs ih =>
      have least : (if (Value.bool b).compare? (.bool a) = some .lt then Value.bool b
          else .bool a) = .bool (a && b) := by
        cases a <;> cases b <;> rfl
      rw [List.map_cons, List.foldl_cons, least, ih, List.all_cons, id, Bool.and_assoc]
  exact onto b

/-- The values that are present among tests are truth values. -/
theorem present_tests {rs : List (Option Value)} (tests : ∀ r ∈ rs, IsTest r) :
    ∃ bs : List Bool, present rs = bs.map Value.bool ∧
      ∀ b, b ∈ bs ↔ some (.bool b) ∈ rs := by
  induction rs with
  | nil => exact ⟨[], rfl, fun b => by simp⟩
  | cons r rest ih =>
    obtain ⟨bs, hbs, same⟩ := ih fun r' h => tests r' (List.mem_cons_of_mem _ h)
    rcases tests r List.mem_cons_self with rfl | rfl | ⟨b, rfl⟩
    · exact ⟨bs, hbs, fun b => by simp [same]⟩
    · exact ⟨bs, hbs, fun b => by simp [same]⟩
    · exact ⟨b :: bs, congrArg (Value.bool b :: ·) hbs, fun b' => by simp [same]⟩

/-- Truth values, null if there are none, are reduced to whether all are true. -/
theorem extreme_of_bools (bs : List Bool) :
    extreme .lt (bs.map Value.bool) = if bs = [] then .null else .bool (bs.all id) := by
  cases bs with
  | nil => rfl
  | cons b bs => rw [if_neg (List.cons_ne_nil b bs)]; exact extreme_bools b bs

end Value

namespace Engine

variable (exact : engine.Exact) (absent : engine.isTrue none = engine.isTrue (some .null))
  (judges : engine.Judges)
include exact absent judges

/-- Of what tests give, only true counts as true. -/
theorem isTrue_test {r : Option Value} (test : Value.IsTest r) :
    engine.isTrue r = true ↔ r = some (.bool true) := by
  rcases test with rfl | rfl | ⟨b, rfl⟩
  · simp [absent, judges.isTrue_null]
  · simp [judges.isTrue_null]
  · simp [exact.isTrue_bool]

/-- **The least test is whether all are true, just if one is false or all are true.** -/
theorem least_eq_all_iff {rs : List (Option Value)} (tests : ∀ r ∈ rs, Value.IsTest r)
    (hrs : rs ≠ []) :
    Value.extreme .lt (Value.present rs) = .bool (rs.all engine.isTrue) ↔
      some (.bool false) ∈ rs ∨ ∀ r ∈ rs, r = some (.bool true) := by
  obtain ⟨bs, hbs, same⟩ := Value.present_tests tests
  have all_true : rs.all engine.isTrue = true ↔ ∀ r ∈ rs, r = some (.bool true) := by
    rw [List.all_eq_true]
    exact forall₂_congr fun r hr => isTrue_test exact absent judges (tests r hr)
  rw [hbs, Value.extreme_of_bools]
  by_cases isFalse : some (.bool false) ∈ rs
  · refine iff_of_true ?_ (.inl isFalse)
    have found := (same false).mpr isFalse
    have notAll : rs.all engine.isTrue = false := Bool.eq_false_iff.mpr fun h => by
      cases all_true.mp h _ isFalse
    rw [if_neg (List.ne_nil_of_mem found), notAll]
    exact congrArg Value.bool (List.all_eq_false.mpr ⟨false, found, by simp⟩)
  -- No test is false, so all truth values among them are true, and it is null that matters.
  have trues : bs.all id = true :=
    List.all_eq_true.mpr fun b hb => Bool.of_not_eq_false fun h => isFalse (h ▸ (same b).mp hb)
  by_cases all : ∀ r ∈ rs, r = some (.bool true)
  · refine iff_of_true ?_ (.inr all)
    obtain ⟨r, hr⟩ := List.exists_mem_of_ne_nil rs hrs
    have found : true ∈ bs := (same true).mpr (all r hr ▸ hr)
    rw [if_neg (List.ne_nil_of_mem found), trues, all_true.mpr all]
  · refine iff_of_false ?_ (by simp [isFalse, all])
    rw [Bool.eq_false_iff.mpr fun h => all (all_true.mp h), trues]
    split <;> simp

end Engine

/-! ### Answers of results -/

/-- The answer that a plan gives over rows: that of its row, or of having none. -/
def Plan.answer? (engine : Engine) (plan : Plan) (rows : List Value) : Option Value :=
  match plan.decoded engine rows with
  | [] => plan.result.bind TerminalKind.whenEmpty
  | row :: _ => row.answer?

theorem Pipeline.answer_reduceResult {p : Pipeline} {r : Terminal} {kind : AccumulatorKind}
    (reduces : engine.Reduces) (hr : p.result = some r)
    (hkind : r.kind.accumulator? = some kind) (options : Options) (rows : List Value) :
    (p.reduceResult.plan.optimized options).answer? engine rows =
      if (p.rows engine rows).isEmpty then r.kind.whenEmpty
      else some (r.codec.read (engine.accumulate kind r.source (p.rows engine rows))) := by
  have hresult : (p.reduceResult.plan.optimized options).result = some r.kind := by
    unfold Plan.optimized
    split
    · rw [mergeProjection_reduceResult hr hkind]
    · rw [plan_reduceResult hr hkind]
  rw [Plan.answer?, decoded_reduceResult reduces hr hkind, hresult]
  cases (p.rows engine rows).isEmpty <;> rfl

/-! ### Elements of rows and of arrays -/

/-- The rows of a pipeline have elements of a codec for their values. -/
structure Pipeline.Gives (p : Pipeline) (codec : Codec) : Prop where
  outline : p.projector.outline = .stored codec
  reads : p.projector.ReadsIn []
  sliced : p.projector.Sliced fun _ => True

/-- The rows of a pipeline have given elements for their values. -/
structure Pipeline.Holds (engine : Engine) (p : Pipeline) (codec : Codec) (rows : List Value)
    (items : List Value) : Prop extends p.Gives codec where
  countable : ∀ row ∈ p.rows engine rows, p.projector.Countable engine { row }
  values : p.values engine rows = items.map some

/-- In a context, an expression is an array of elements of a codec. -/
structure Expr.Holds (engine : Engine) (registry : Registry) (other? : Others) (c : Context)
    (env : Env) (e : Expr) (codec : Codec) (items : List Value) : Prop where
  countable : c.Every (Term.Countable engine env)
  array : ∃ m, e.meaning? engine registry other? c.outlines = some m ∧
    m.outline.itemCodec? = some codec ∧ (m.datum (c.data engine env)).bind Datum.items? = some items

/-- A predicate on elements of a codec that reads no parameter around it. -/
def Expr.predicate? (engine : Engine) (registry : Registry) (other? : Others) (codec : Codec)
    (e : Expr) : Option Selector :=
  (e.operand engine registry other? fun _ => none).selector? codec

/-- What a predicate gives for elements. -/
def Selector.tests? (f : Selector) (items : List Value) : Option (List (Option Value)) :=
  items.mapM (f.value fun _ => none)

section Predicate

variable {call : Call Expr} {e : Expr} {vars : List String} {codec : Codec} {f : Selector}
  {items : List Value} {tests : List (Option Value)}

/-- The table of a predicate holds its tests. -/
theorem Selector.exists_table {data : Data} (h : items.mapM (f.value data) = some tests) :
    ∃ table, f.table data items = some table ∧ table.map Prod.snd = tests := by
  unfold Selector.table
  induction items generalizing tests with
  | nil =>
    obtain rfl : [] = tests := by simpa using h
    exact ⟨[], rfl, rfl⟩
  | cons v rest ih =>
    rw [List.mapM_cons] at h
    obtain ⟨r, hr, h⟩ := Option.bind_eq_some_iff.mp h
    obtain ⟨more, hmore, h⟩ := Option.bind_eq_some_iff.mp h
    obtain rfl := Option.some.inj h
    obtain ⟨table, htable, rfl⟩ := ih hmore
    refine ⟨(v, r) :: table, ?_, rfl⟩
    rw [List.mapM_cons, hr, htable]
    rfl

/-- Whether all items satisfy a predicate. -/
def Selector.all (engine : Engine) (f : Selector) : Sequel :=
  .ofTable .boolean f fun table => some (.bool (table.all fun a => engine.isTrue a.2))

theorem Selector.all_value {data : Data} (h : items.mapM (f.value data) = some tests) :
    (f.all engine).value data items = some (some (.bool (tests.all engine.isTrue))) := by
  obtain ⟨table, htable, rfl⟩ := exists_table h
  refine Option.map_eq_some_iff.mpr ⟨table, htable, ?_⟩
  rw [List.all_map]
  rfl

/-- What it means that all items of an array satisfy a predicate. -/
theorem Expr.meaning?_all (named : call.name = "All")
    (single : call.arguments = [e]) {source : Expr} {scope : String → Option Outline}
    {m : Meaning} (hm : source.meaning? engine registry other? scope = some m)
    (hitem : m.outline.itemCodec? = some codec)
    (hselector : (e.operand engine registry other? scope).selector? codec = some f) :
    (Expr.call source call).meaning? engine registry other? scope =
      some ⟨.stored .boolean, fun data => ((m.datum data).bind Datum.items?).bind fun items =>
        ((f.all engine).value data items).map Datum.value⟩ := by
  have hsequel : Sequel.ofMethod? engine codec "All"
      [e.operand engine registry other? scope] = some (f.all engine) :=
    Option.bind_eq_some_iff.mpr ⟨f, hselector, rfl⟩
  rw [meaning?, named, hm, callOperands_eq, single]
  refine (Option.orElse_eq_some _ _ _).mpr (.inl ?_)
  refine Option.bind_eq_some_iff.mpr ⟨m, rfl, ?_⟩
  refine Option.bind_eq_some_iff.mpr ⟨codec, hitem, ?_⟩
  refine Option.bind_eq_some_iff.mpr ⟨f.all engine, hsequel, congrArg some ?_⟩
  refine congrArg (Meaning.mk _) (funext fun data => ?_)
  exact congrArg _ (funext fun items => Option.map_eq_bind.symm)

/-- Rows whose values are items give what the tests of the items are. -/
theorem Selector.map_eq_tests {rows : List Value} {value test : Value → Option Value}
    (hvalues : rows.map value = items.map some) (htests : f.tests? items = some tests)
    (each : ∀ row ∈ rows, ∀ v r, value row = some v → f.value (fun _ => none) v = some r →
      test row = r) : rows.map test = tests := by
  unfold Selector.tests? at htests
  induction rows generalizing items tests with
  | nil =>
    obtain rfl : items = [] := by simpa using hvalues.symm
    simpa using htests
  | cons row rest ih =>
    cases items with
    | nil => cases hvalues
    | cons v more =>
      rw [List.map_cons, List.map_cons, List.cons.injEq] at hvalues
      rw [List.mapM_cons] at htests
      obtain ⟨r, hr, htests⟩ := Option.bind_eq_some_iff.mp htests
      obtain ⟨rs, hrs, htests⟩ := Option.bind_eq_some_iff.mp htests
      obtain rfl := Option.some.inj htests
      rw [List.map_cons, each row List.mem_cons_self v r hvalues.1 hr,
        ih hvalues.2 hrs fun row' h => each row' (List.mem_cons_of_mem _ h)]

/-- In a context of its own, a parameter stands for one term. -/
theorem Context.every_push {c : Context} {parameter : String} {t : Term} (top : c.scopes = {}) :
    (c.push parameter t).Every (· = t) := by
  refine Every.push (fun name u h => ?_) fun q hq => by rw [List.mem_singleton.mp hq]
  rw [top] at h
  cases h

/-- A predicate on rows is bound where its parameter is read by the projector. -/
theorem Query.all_yields {p p' : Pipeline} {c c' : Context}
    (hop : Operator.ofCall call = .ok .all) (single : call.arguments = [e])
    (h : (Query.bindClauses registry p [call]).Yields c p' c') :
    ∃ parameter body t c₁, e = .lambda [parameter] body ∧
      (body.bind registry).Yields (c.push parameter p.projector) t c₁ ∧
      p' = { p with result := some ⟨.all, t⟩, sortOpen := false } := by
  simp only [Query.bindClauses, BindM.yields_bind, BindM.yields_ofExcept] at h
  obtain ⟨op, c₁, ⟨hop', rfl⟩, applied, c₂, happly, h⟩ := h
  obtain rfl : op = .all := Except.ok.inj (hop'.symm.trans hop)
  simp only [Operator.apply, BindM.yields_bind, Operator.yields_done] at happly
  obtain ⟨l, c₃, hl, ended, hended, rfl, rfl⟩ := happly
  cases hended
  obtain ⟨rfl, rfl⟩ := BindM.yields_pure.mp h
  obtain ⟨parameter, body, c₄, rfl, -, hbody, -⟩ := Call.lambda_yields single hl
  exact ⟨parameter, body, l.body, c₄, rfl, hbody, rfl⟩

namespace Pipeline.Gives

variable {p : Pipeline} {c : Context} {parameter : String}

theorem outlines (h : p.Gives codec) (top : c.scopes = {}) :
    (c.push parameter p.projector).outlines =
      Function.update (fun _ => none) parameter (some (.stored codec)) := by
  rw [Context.outlines_push, h.outline, Context.outlines_of_top top]

theorem data (h : p.Gives codec) (top : c.scopes = {}) (env : Env) :
    (c.push parameter p.projector).data engine env =
      Function.update (fun _ => none) parameter
        (some (.value (p.projector.eval engine env))) := by
  rw [Context.data_push, Term.datum_of_isValue (Items.isValue_of_outline h.outline),
    Context.data_of_top top]

theorem fit (h : p.Gives codec) (top : c.scopes = {}) :
    (c.push parameter p.projector).Fit vars := by
  constructor
  · rintro name t ht
    obtain rfl := Context.every_push top name t ht
    exact fun x hx => absurd (h.reads x hx) List.not_mem_nil
  · rintro name t ht
    obtain rfl := Context.every_push top name t ht
    exact h.sliced

end Pipeline.Gives

variable (laws : Laws engine registry other?) (hop : Operator.ofCall call = .ok .all)
  (single : call.arguments = [e])
include laws hop single

/-- A predicate of chains on rows has a meaning as soon as it is bound. -/
theorem Pipeline.exists_predicate {p p' : Pipeline} {c c' : Context} (top : c.scopes = {})
    (apart : e.apart vars = true) (gives : p.Gives codec) (chained : e.chained registry = true)
    (h : (Query.bindClauses registry p [call]).Yields c p' c') :
    ∃ f, e.predicate? engine registry other? codec = some f := by
  obtain ⟨parameter, body, t, c₁, rfl, hbody, -⟩ := Query.all_yields hop single h
  rw [Expr.apart, Bool.and_eq_true] at apart
  have regular : (c.push parameter p.projector).Every fun t => t.outline.Regular := by
    rintro name t ht
    obtain rfl := Context.every_push top name t ht
    rw [gives.outline]
    exact .stored codec
  obtain ⟨m, hm, -⟩ := Expr.meant laws body chained apart.2 (gives.fit top) regular hbody
  rw [gives.outlines top] at hm
  exact ⟨_, Option.bind_eq_some_iff.mpr ⟨m, hm, rfl⟩⟩

variable (hf : e.predicate? engine registry other? codec = some f)
  (htests : f.tests? items = some tests)
include hf htests

/-- **Over rows**, the result is the least of the tests. -/
theorem Pipeline.all_rows {p p' : Pipeline} {c c' : Context} {rows : List Value}
    (top : c.scopes = {}) (apart : e.apart vars = true)
    (holds : p.Holds engine codec rows items)
    (h : (Query.bindClauses registry p [call]).Yields c p' c') :
    ∃ source, p'.result = some ⟨.all, source⟩ ∧ p'.rows engine rows = p.rows engine rows ∧
      (p.rows engine rows).map (source.valueIn engine) = tests := by
  obtain ⟨parameter, body, t, c₁, rfl, hbody, rfl⟩ := Query.all_yields hop single h
  rw [Expr.apart, Bool.and_eq_true] at apart
  refine ⟨t, rfl, rfl, Selector.map_eq_tests holds.values htests ?_⟩
  intro row hrow v r hv hr
  obtain ⟨m, hm, hf⟩ := Option.bind_eq_some_iff.mp hf
  obtain rfl := Option.some.inj hf
  obtain ⟨d, hd, rfl⟩ := Option.map_eq_some_iff.mp hr
  have gives := holds.toGives
  obtain ⟨-, realizes⟩ := Expr.sound laws body apart.2 (gives.fit top)
    (by rw [gives.outlines top]; exact hm) hbody
  have countable : (c.push parameter p.projector).Every (Term.Countable engine { row }) := by
    rintro name t ht
    obtain rfl := Context.every_push top name t ht
    exact holds.countable row hrow
  obtain ⟨heval, -⟩ := realizes.datum countable (by
    rw [gives.data top, show p.projector.eval engine { row } = some v from hv]
    exact hd)
  rw [← heval, Term.stored_datum]
  rfl

variable (others : other?.Local)
include others

/-- **Over the items of an array**, all satisfy a predicate if each test counts as true. -/
theorem Expr.all_items (own : e.freeNames = []) {source : Expr}
    {c c' : Context} {env : Env} {t : Term}
    (apart : (Expr.call source call).apart vars = true) (fit : c.Fit vars)
    (holds : source.Holds engine registry other? c env codec items)
    (h : ((Expr.call source call).bind registry).Yields c t c') :
    t.eval engine env = some (.bool (tests.all engine.isTrue)) := by
  obtain ⟨countable, m, hm, hitem, hitems⟩ := holds
  have nothing {α : Type} (g g' : String → Option α) : AgreeOn e.freeNames g g' := by
    rw [own]
    nofun
  -- The predicate reads nothing around it, so it means the same here as on its own.
  have hselector : (e.operand engine registry other? c.outlines).selector? codec = some f := by
    rw [operand_congr (isLocal others e) (isLocal_body others e) (nothing _ fun _ => none)]
    exact hf
  have looksAt : f.LooksAt e.freeNames :=
    (operand_looksAt (isLocal others e) (isLocal_body others e) _).selector hf
  have here : items.mapM (f.value (c.data engine env)) = some tests := by
    rw [looksAt (nothing _ fun _ => none)]
    exact htests
  have meant := meaning?_all (Operator.ofCall_eq_ok_iff.mp hop).1.symm single hm hitem hselector
  obtain ⟨-, realizes⟩ := sound laws _ apart fit meant h
  have value : ((m.datum (c.data engine env)).bind Datum.items?).bind (fun items =>
      ((f.all engine).value (c.data engine env) items).map Datum.value) =
        some (.value (some (.bool (tests.all engine.isTrue)))) := by
    rw [hitems, Option.bind_some, Selector.all_value here]
    rfl
  obtain ⟨heval, -⟩ := realizes.datum countable value
  rw [← Term.stored_datum, heval]
  rfl

end Predicate

/-- **All of the elements, over rows and inside a document.** A predicate of chains has a
meaning as soon as it is bound. Inside a document the answer is whether each test counts as
true, so null and what is missing do not. Over rows it is the same, whatever the options, just
if some test is false or all are true; without rows all are. -/
theorem all_agrees_iff (laws : Laws engine registry other?) (others : other?.Local)
    (reduces : engine.Reduces) (judges : engine.Judges) {call : Call Expr} {e : Expr}
    {codec : Codec} {vars : List String} (hop : Operator.ofCall call = .ok .all)
    (single : call.arguments = [e]) (own : e.freeNames = [])
    -- Over the rows of a pipeline.
    {p p' : Pipeline} {c c' : Context} (top : c.scopes = {}) (gives : p.Gives codec)
    (hp : (Query.bindClauses registry p [call]).Yields c p' c')
    -- Inside a document.
    {source : Expr} {d d' : Context} {t : Term} (fit : d.Fit vars)
    (apart : (Expr.call source call).apart vars = true)
    (ht : ((Expr.call source call).bind registry).Yields d t d') :
    (e.chained registry = true → ∃ f, e.predicate? engine registry other? codec = some f) ∧
    ∀ f, e.predicate? engine registry other? codec = some f →
    ∀ rows env items tests, p.Holds engine codec rows items →
      source.Holds engine registry other? d env codec items → f.tests? items = some tests →
      t.eval engine env = some (.bool (tests.all engine.isTrue)) ∧
      ((∀ r ∈ tests, Value.IsTest r) → ∀ options,
        (p'.reduceResult.plan.optimized options).answer? engine rows = t.eval engine env ↔
          some (.bool false) ∈ tests ∨ ∀ r ∈ tests, r = some (.bool true)) := by
  have apartE : e.apart vars = true := by
    rw [Expr.apart, Expr.callApart_eq, single, Bool.and_eq_true] at apart
    simpa using apart.2
  refine ⟨fun chained => Pipeline.exists_predicate laws hop single top apartE gives chained hp, ?_⟩
  intro f hf rows env items tests hrows hitems htests
  have inside := Expr.all_items laws hop single hf htests others own apart fit hitems ht
  refine ⟨inside, fun isTest options => ?_⟩
  obtain ⟨least, hresult, sameRows, hleast⟩ :=
    Pipeline.all_rows laws hop single hf htests top apartE hrows hp
  rw [inside, Pipeline.answer_reduceResult reduces hresult rfl options rows, sameRows]
  cases hempty : p.rows engine rows with
  | nil =>
    obtain rfl : tests = [] := by rw [← hleast, hempty]; rfl
    exact iff_of_true rfl (.inr nofun)
  | cons row more =>
    rw [hempty] at hleast
    have boolean : (⟨.all, least⟩ : Terminal).codec ≠ .int64 := nofun
    have computed : engine.accumulate .min least (row :: more) =
        some (Value.extreme .lt (Value.present tests)) := by
      rw [judges.least least row more (by rwa [hleast]), hleast]
    rw [← Engine.least_eq_all_iff laws.exact laws.absent judges isTest (by rw [← hleast]; nofun)]
    simp only [List.isEmpty_cons, Bool.false_eq_true, if_false, computed,
      Codec.read_some boolean, Option.some.injEq]

/-! ### An engine that answers -/

namespace Engine

/-- The folding engine, with one group of all rows and with accumulators of their values. -/
def answering : Engine :=
  folding.withReduction
    (fun id rows => if rows.isEmpty then [] else [(id.valueIn folding .null, rows)])
    fun kind source rows => some (Value.accumulated kind (rows.map (source.valueIn folding)))

theorem exact_answering : answering.Exact := ⟨fun h => h, fun h => h, fun _ => rfl⟩

theorem laws_answering : Laws answering registry fun _ _ => none := ⟨exact_answering, rfl, nofun⟩

/-- The accumulators compute with the values that terms have for this engine. -/
theorem accumulate_answering (kind : AccumulatorKind) (t : Term) (rows : List Value) :
    answering.accumulate kind t rows =
      some (Value.accumulated kind (rows.map (t.valueIn answering))) := by
  have same : t.valueIn answering = t.valueIn folding :=
    funext fun row => eval_withReduction t ⟨row, []⟩
  rw [same]
  rfl

theorem reduces_answering : answering.Reduces where
  groups rows := rfl
  count row rows := by
    have ones : (row :: rows).map ((Term.int32 1).valueIn answering) =
        List.replicate (row :: rows).length (some (.int32 1)) :=
      List.map_const' ..
    rw [accumulate_answering, ones, Value.accumulated, Value.total_ones, Value.ofTotal_natCast]
  max_true row rows := by
    have trues : (row :: rows).map ((Term.bool true).valueIn answering) =
        some (.bool true) :: List.replicate rows.length (some (.bool true)) :=
      congrArg (some (Value.bool true) :: ·) (List.map_const' ..)
    rw [accumulate_answering, trues]
    refine congrArg some ?_
    induction rows.length with
    | zero => rfl
    | succ n ih => exact ih
  first t row rows := by
    rw [accumulate_answering]
    rfl
  last t rows row := by
    rw [accumulate_answering]
    simp [Value.accumulated]

theorem judges_answering : answering.Judges where
  isTrue_null := rfl
  least t row rows _ := accumulate_answering .min t (row :: rows)

end Engine

/-! ### People who are active -/

/-- People are active or not, and teams have people for their members. -/
def teams : Registry :=
  .ofList [.mk "Person" none [.mk "IsActive" "active" (.static .boolean)],
    .mk "Team" none [.mk "Members" "members" (.static (.array (.document "Person")))]]

/-- The persons of the collection. -/
def persons : Pipeline := .ofRoot ((teams.codec? (.document "Person")).getD .dynamic)

/-- A team is in scope. -/
def ofTeam : Context :=
  ({} : Context).push "y" (.root ((teams.codec? (.document "Team")).getD .dynamic))

/-- Whether all are active. -/
def allActive : Call Expr :=
  ⟨"Queryable", "All", [], [.lambda ["x"] (.member (.param "x") "IsActive")]⟩

/-- One who is active and one who is not. -/
def halfActive : List Value :=
  [.document [("active", .bool true)], .document [("active", .bool false)]]

theorem halfActive_agree :
    ∃ p' c' t d', (Query.bindClauses teams persons [allActive]).Yields {} p' c' ∧
      ((Expr.call (.member (.param "y") "Members") allActive).bind teams).Yields ofTeam t d' ∧
      ∀ options, (p'.reduceResult.plan.optimized options).answer? .answering halfActive =
        t.eval .answering { row := .document [("members", .array halfActive)] } := by
  have only (holds : Term → Prop) (h : ∀ codec, holds (.root codec)) : ofTeam.Every holds := by
    rintro name t ht
    obtain rfl := Context.every_push rfl name t ht
    exact h _
  have fit : ofTeam.Fit [] := ⟨only _ fun _ => nofun, only _ fun _ => .other rfl rfl⟩
  have gives : persons.Gives ((teams.codec? (.document "Person")).getD .dynamic) :=
    ⟨rfl, nofun, .other rfl rfl⟩
  have locally : Others.Local fun _ _ => none := ⟨fun _ => rfl, nofun⟩
  obtain ⟨p', c', hp⟩ : ∃ p' c', (Query.bindClauses teams persons [allActive]).Yields {} p' c' :=
    ⟨_, _, rfl⟩
  obtain ⟨t, d', ht⟩ : ∃ t d', ((Expr.call (.member (.param "y") "Members") allActive).bind
    teams).Yields ofTeam t d' := ⟨_, _, rfl⟩
  obtain ⟨-, agree⟩ := all_agrees_iff Engine.laws_answering locally
    Engine.reduces_answering Engine.judges_answering rfl rfl rfl rfl gives hp fit (by decide) ht
  obtain ⟨-, answers⟩ := agree _ rfl halfActive
    { row := .document [("members", .array halfActive)] } halfActive
    [some (.bool true), some (.bool false)]
    ⟨gives, fun _ _ => .other rfl rfl, rfl⟩ ⟨only _ fun _ => .other rfl rfl, _, rfl, rfl, rfl⟩ rfl
  refine ⟨p', c', t, d', hp, ht, fun options => (answers ?_ options).mpr (.inl (by simp))⟩
  rintro r hr
  rcases List.mem_pair.mp hr with rfl | rfl
  · exact .inr (.inr ⟨true, rfl⟩)
  · exact .inr (.inr ⟨false, rfl⟩)

/-- The persons, and whether all of them are active. -/
def everyoneActive : Query := ⟨"people", .document "Person", [allActive]⟩

/-- For each team, whether all of its members are active. -/
def teamsActive : Query :=
  ⟨"teams", .document "Team", [⟨"Queryable", "Select", [],
    [.lambda ["y"] (.call (.member (.param "y") "Members") allActive)]⟩]⟩

/-- One who is active and one of whom it is not known. -/
def perhapsActive : List Value := [.document [("active", .bool true)], .document []]

/-- Over rows it is passed over that nothing is known of one of them; in a team it counts. -/
theorem perhapsActive_disagree :
    ∃ p context resolved p' context', everyoneActive.bound teams = (.ok p, context) ∧
      p.resolveGroups context.minted = .ok resolved ∧
      (∀ options, (resolved.plan.optimized options).answer? .answering perhapsActive =
        some (.bool true)) ∧
      teamsActive.bound teams = (.ok p', context') ∧
      p'.values .answering [.document [("members", .array perhapsActive)]] =
        [some (.bool false)] := by
  let p : Pipeline :=
    { persons with result := some ⟨.all, .field (.field "active") .boolean⟩ }
  have bound : everyoneActive.bound teams = (.ok p, {}) := rfl
  have resolved : p.resolveGroups 0 = .ok p.reduceResult :=
    Pipeline.resolveGroups_of_no_group (Query.bind_placed bound) nofun 0
  obtain ⟨p', context', bound', inside⟩ : ∃ p' context',
      teamsActive.bound teams = (.ok p', context') ∧
        p'.values .answering [.document [("members", .array perhapsActive)]] =
          [some (.bool false)] := ⟨_, _, rfl, rfl⟩
  refine ⟨p, {}, p.reduceResult, p', context', bound, resolved, fun options => ?_, bound', inside⟩
  rw [Pipeline.answer_reduceResult Engine.reduces_answering rfl rfl]
  rfl

end QueryPipeline
