import QueryPipeline.Proofs.Binding.Clauses
import QueryPipeline.Proofs.Emission.Conformance
import QueryPipeline.Proofs.Emission.Leaves
import QueryPipeline.Proofs.Grouping.Ungrouped

/-!
Where filters in the query language agree with expressions, by the codecs of what they test
(`Expr.filter_agrees_where_settled`).
A query looks at the items of an array one by one, and orders values of one type only; an
expression compares whole values of all types. Rows that conform to a class cannot tell them
apart by a member that holds no array and is not ordered against a value of an earlier type.
They can by a member that may hold an array: such tests are written in the query language
all the same.
-/

namespace QueryPipeline

/-! ### What a test depends on -/

/-- Whether the operator asks for equality only. -/
def BinaryOp.isEquality : BinaryOp → Bool
  | .eq | .ne => true
  | _ => false

namespace Codec

/-- Whether no value of a codec tells the languages apart that is compared with another value:
none is an array, and none is ordered that comes later by its type. -/
def settles (codec : Codec) (op : BinaryOp) (v : Value) : Bool :=
  codec.bracket?.any fun b => op.isEquality || b ≤ v.bracket

/-- Whether some value of a codec is known to tell the languages apart that is compared with
another value: for equality an array that has the other value in it, for order one that comes
later by its type. -/
def separates (codec : Codec) (op : BinaryOp) (v : Value) : Bool :=
  match codec with
  | .dynamic => true
  | .array _ => op.isEquality || v.bracket < (Value.array []).bracket
  | .scalar type => !op.isEquality && v.bracket < type.bracket
  | .document _ => false

end Codec

namespace Term

/-- Whether the codec of the field that a test is about settles it. -/
def isSettled : Term → Bool
  | .binary op (.field _ codec) (.const v _) => codec.settles op v
  | .binary op (.const v _) (.field _ codec) => codec.settles op.flip v
  | .contained (.field _ codec) (.const (.array _) _) => codec.bracket?.isSome
  | _ => true

/-- Whether some value of the field that a test is about is known to tell the languages
apart. -/
def isSeparated : Term → Bool
  | .binary op (.field _ codec) (.const v _) => codec.separates op v
  | .binary op (.const v _) (.field _ codec) => codec.separates op.flip v
  | .contained (.field _ codec) (.const (.array items) _) =>
    codec.bracket?.isNone && !items.isEmpty
  | _ => false

variable {server : Server} {row : Value} {t u : Term} {q : Document}

namespace Compares

variable {op : BinaryOp} {path : FieldPath} {codec : Codec} {v : Value}

theorem isSettled_eq (h : t.Compares op path codec v) : t.isSettled = codec.settles op v := by
  cases h <;> rfl

theorem isSeparated_eq (h : t.Compares op path codec v) :
    t.isSeparated = codec.separates op v := by
  cases h <;> rfl

end Compares

/-! ### Settled tests -/

theorem IsOrdinary.plain (h : t.IsOrdinary) {path : FieldPath} {codec : Codec}
    (child : .field path codec ∈ t.children) : path.IsPlain :=
  h.paths path codec (mem_subterms_of_child child (mem_subterms_self _))

/-- What is read from a row for a test. -/
theorem reads_of_query? {registry : Registry} {path : FieldPath} {codec : Codec} {field : String}
    (reads : t.Everywhere (ReadsConforming registry server row))
    (child : .field path codec ∈ t.children) (hfield : path.query? = some field)
    (typed : codec.bracket?.isSome) :
    registry.Conforms codec (server.readAll path.segments (some row)) ∧
      row.IsArrayFree path.segments := by
  have ofRow := FieldPath.var_eq_none (isRowField_of_query? hfield)
  exact (reads.child child).self ofRow typed

/-- A comparison that a codec settles is answered as it is by an expression. -/
theorem accepts_settled_comparison (lawful : server.Lawful) {registry : Registry}
    {op : BinaryOp} {path : FieldPath} {codec : Codec} {v condition : Value} {field : String}
    (ordinary : t.IsOrdinary) (reads : t.Everywhere (ReadsConforming registry server row))
    (compares : t.Compares op path codec v) (settled : codec.settles op v = true)
    (hfield : path.query? = some field) (hcondition : comparisonQuery? op v = some condition) :
    server.accepts row [(field, condition)] = server.isTrue (t.meaning server row) := by
  obtain ⟨b, hb, order⟩ : ∃ b, codec.bracket? = some b ∧ (op.isEquality || b ≤ v.bracket) := by
    simpa [Codec.settles, Option.any_eq_true] using settled
  obtain ⟨conforms, arrayFree⟩ := reads_of_query? reads compares.field_mem hfield (by simp [hb])
  obtain ⟨codec', hconst⟩ := compares.const_mem
  have ordinaryValue : v.isOrdinary = true :=
    ordinary.constants v codec' (mem_subterms_of_child hconst (mem_subterms_self _))
  rw [compares.isTrue_meaning lawful, meaning_field (isRowField_of_query? hfield),
    Server.accepts_field hfield (ordinary.plain compares.field_mem) arrayFree]
  refine Server.meetsCondition_of_exceeds hcondition fun noEq noNe => ?_
  refine Server.exceeds_eq_of_le fun w hw => ?_
  have earlier : b ≤ v.bracket := by
    cases op <;> simp_all [BinaryOp.isEquality]
  rw [Option.mem_def.mp hw] at conforms
  rcases conforms.bracket_eq hb with rfl | same
  · have notNull := (comparisonQuery?_cases hcondition).1
    exact Nat.le_of_lt (Value.bracket_null_lt ordinaryValue notNull)
  · exact same ▸ earlier

/-- **A test that is settled is answered in the query language as it is by an expression.** -/
theorem accepts_settled (lawful : server.Lawful) {registry : Registry} (ordinary : t.IsOrdinary)
    (reads : t.Everywhere (ReadsConforming registry server row)) (single : t.isJoined = false)
    (settled : t.isSettled = true) (h : t.query? = some q) :
    server.accepts row q = server.isTrue (t.meaning server row) := by
  rcases query?_cases single h with
    ⟨op, path, codec, v, field, condition, compares, hfield, hcondition, rfl⟩ |
    ⟨path, codec, field, rfl, isBoolean, hfield, rfl⟩ |
    ⟨path, codec, items, codec', field, rfl, hfield, noNull, rfl⟩
  · exact accepts_settled_comparison lawful ordinary reads compares
      (compares.isSettled_eq ▸ settled) hfield hcondition
  · obtain rfl : codec = .boolean := by
      cases codec with
      | scalar type => cases type <;> first | rfl | cases isBoolean
      | _ => cases isBoolean
    refine accepts_condition lawful (ordinary.paths path _ (mem_subterms_self _)) ?_ hfield
    intro isRowField
    obtain ⟨conforms, arrayFree⟩ := reads.self (FieldPath.var_eq_none isRowField) rfl
    exact ⟨arrayFree, conforms.isCondition⟩
  · refine accepts_contained lawful ordinary ?_ hfield noNull
    intro _
    exact ⟨(reads_of_query? reads (by simp [children]) hfield settled).2, trivial⟩

end Term

/-! ### Values that separate the languages -/

/-- What queries do with arrays: at the end of a path they look at the array and at each of
its items. Arrays are equal only if they have as many items. -/
structure Server.Distributes (server : Server) : Prop where
  reach_array (items : List Value) :
    server.reachArray [] items = some (.array items) :: items.map some
  length_eq {a b : List Value} :
    server.within (.array a) (.array b) = .eq → a.length = b.length

/-- The value stands in a row at the end of a path, with documents only on the way. -/
def Value.StandsAt (x : Value) : List String → Value → Prop
  | [], v => v = x
  | name :: names, .document fields =>
    ∃ v, Document.get? name fields = some v ∧ x.StandsAt names v
  | _ :: _, _ => False

namespace Server

variable {server : Server} {row x v : Value} {names : List String}

/-- Both languages get to a value that stands in a row. -/
theorem reaches_of_standsAt (server : Server) (h : x.StandsAt names row) :
    server.readAll names (some row) = some x ∧ server.reach names row = server.reach [] x := by
  induction names generalizing row with
  | nil =>
    obtain rfl : row = x := h
    exact ⟨rfl, rfl⟩
  | cons name names ih =>
    cases row with
    | document fields =>
      obtain ⟨v, hv, hx⟩ := h
      rw [readAll_cons, read, hv]
      obtain ⟨read, reached⟩ := ih hx
      refine ⟨read, Eq.trans ?_ reached⟩
      simp only [reach, hv]
    | _ => exact h.elim

theorem compareValues_self (lawful : server.Lawful) (v : Value) :
    server.compareValues v v = .eq := by
  have same : server.within v v = .eq := by
    have swap := lawful.swap v v
    cases h : server.within v v <;> simp_all
  simp [compareValues, same]

/-- Equality is answered by all values that are reached. -/
theorem meetsCondition_equality {op : BinaryOp} (equality : op.isEquality = true)
    {condition : Value} (h : comparisonQuery? op v = some condition)
    (values : List (Option Value)) :
    server.meetsCondition values condition =
      if op = .eq then values.any (server.equals v) else !values.any (server.equals v) := by
  obtain ⟨-, form⟩ := comparisonQuery?_cases h
  rcases form with ⟨rfl, rfl, noDocument, noPattern⟩ | ⟨rfl, rfl⟩ | ⟨rfl, rfl⟩ | ⟨rfl, rfl⟩ |
    ⟨rfl, rfl⟩
  · rw [meetsCondition_value noDocument noPattern, if_pos rfl]
  · simp [meetsCondition, Value.operator, meets]
  · simp [meetsCondition, Value.operator, meets]
  · cases equality
  · cases equality

/-- A value that comes later by its type is greater for an expression, and not for a query. -/
theorem meetsCondition_later {op : BinaryOp} (order : op.isEquality = false) {condition : Value}
    (h : comparisonQuery? op v = some condition) (later : v.bracket < x.bracket) :
    server.meetsCondition [some x] condition = false ∧
      op.answer (server.order (some x) (some v)) = true := by
  obtain ⟨-, form⟩ := comparisonQuery?_cases h
  have greater : server.order (some x) (some v) = .gt := by
    simp [Server.order, compareValues, Nat.compare_eq_gt.mpr later]
  have notExceeds : server.exceeds v (some x) = false := by
    simp [exceeds, Nat.ne_of_gt later]
  have notEquals : server.equals v (some x) = false := by
    simp [equals, compareValues, Nat.compare_eq_gt.mpr later]
  rw [greater]
  rcases form with ⟨rfl, -⟩ | ⟨rfl, -⟩ | ⟨rfl, -⟩ | ⟨rfl, rfl⟩ | ⟨rfl, rfl⟩
  · cases order
  · cases order
  · cases order
  · simp [meetsCondition, Value.operator, meets, notExceeds, BinaryOp.answer, BinaryOp.holds]
  · simp [meetsCondition, Value.operator, meets, notExceeds, notEquals, BinaryOp.answer,
      BinaryOp.holds]

/-- An array that has more items than any of some values equals none of them. -/
theorem order_array_ne (distributes : server.Distributes) {items : List Value}
    (longer : ∀ inner, v = .array inner → inner.length < items.length) :
    (server.order (some (.array items)) (some v) == .eq) = false := by
  rw [beq_eq_false_iff_ne]
  intro same
  simp only [Server.order, compareValues, Ordering.then_eq_eq, Nat.compare_eq_eq] at same
  cases v with
  | array inner => exact Nat.ne_of_gt (longer inner rfl) (distributes.length_eq same.2)
  | _ => cases same.1

/-- Some array has a value among its items and equals none of a list of values. -/
theorem exists_array (distributes : server.Distributes) (v : Value) (items : List Value) :
    ∃ array, v ∈ array ∧
      ∀ item ∈ items, (server.order (some (.array array)) (some item) == .eq) = false := by
  obtain ⟨n, bound⟩ : ∃ n, ∀ inner, .array inner ∈ items → inner.length ≤ n := by
    induction items with
    | nil => exact ⟨0, nofun⟩
    | cons item items ih =>
      obtain ⟨n, bound⟩ := ih
      cases item with
      | array inner =>
        refine ⟨max n inner.length, ?_⟩
        intro inner' h
        rcases List.mem_cons.mp h with same | h
        · cases same
          exact Nat.le_max_right _ _
        · exact Nat.le_trans (bound inner' h) (Nat.le_max_left _ _)
      | _ => exact ⟨n, fun inner h => bound inner (by simpa using h)⟩
  refine ⟨List.replicate (n + 1) v, by simp, ?_⟩
  intro item hitem
  refine order_array_ne distributes ?_
  rintro inner rfl
  rw [List.length_replicate]
  exact Nat.lt_succ_of_le (bound inner hitem)

/-- The items of an array are looked at. -/
theorem any_equals_reach (lawful : server.Lawful) (distributes : server.Distributes)
    {items : List Value} (h : v ∈ items) :
    (server.reach [] (.array items)).any (server.equals v) = true := by
  rw [reach, distributes.reach_array, List.any_eq_true]
  refine ⟨some v, by simp [h], ?_⟩
  simp [equals, compareValues_self lawful]

/-- An array with a value in it equals the value for a query, and not for an expression. -/
theorem exists_array_of_equality (lawful : server.Lawful) (distributes : server.Distributes)
    {op : BinaryOp} (equality : op.isEquality = true) {condition : Value}
    (h : comparisonQuery? op v = some condition) :
    ∃ items, server.meetsCondition (server.reach [] (.array items)) condition ≠
      op.answer (server.order (some (.array items)) (some v)) := by
  obtain ⟨items, hmem, apart⟩ := exists_array distributes v [v]
  have different := apart v List.mem_cons_self
  refine ⟨items, ?_⟩
  rw [meetsCondition_equality equality h, any_equals_reach lawful distributes hmem]
  cases op with
  | eq | ne => simp_all [BinaryOp.answer, BinaryOp.holds, bne]
  | _ => cases equality

/-- A codec that is separated where values are ordered has a value that comes later. -/
theorem exists_later_of_separates (distributes : server.Distributes) (registry : Registry)
    {codec : Codec} {op : BinaryOp} (order : op.isEquality = false)
    (ordinary : v.isOrdinary = true) (separates : codec.separates op v = true) :
    ∃ x, registry.Conforms codec (some x) ∧ v.bracket < x.bracket ∧
      server.reach [] x = [some x] := by
  cases codec with
  | dynamic => exact ⟨.maxKey, .dynamic _, Value.bracket_lt_maxKey ordinary, rfl⟩
  | array item =>
    have later : v.bracket < (Value.array []).bracket := by
      simpa [Codec.separates, order] using separates
    refine ⟨.array [], .array _, later, ?_⟩
    rw [reach, distributes.reach_array]
    rfl
  | scalar type =>
    have later : v.bracket < type.bracket := by
      simpa [Codec.separates, order] using separates
    refine ⟨type.sample, .scalar (Value.scalarType?_sample type), later, ?_⟩
    cases type <;> rfl
  | document => cases separates

/-- **A comparison that is separated has another answer in the query language** than as an
expression, for some value of its codec. -/
theorem exists_value_of_separates (lawful : server.Lawful) (distributes : server.Distributes)
    (registry : Registry) {codec : Codec} {op : BinaryOp} {condition : Value}
    (ordinary : v.isOrdinary = true) (separates : codec.separates op v = true)
    (h : comparisonQuery? op v = some condition) :
    ∃ x, registry.Conforms codec (some x) ∧
      server.meetsCondition (server.reach [] x) condition ≠
        op.answer (server.order (some x) (some v)) := by
  cases equality : op.isEquality with
  | true =>
    obtain ⟨items, differ⟩ := exists_array_of_equality lawful distributes equality h
    refine ⟨.array items, ?_, differ⟩
    cases codec with
    | dynamic => exact .dynamic _
    | array item => exact .array _
    | scalar type => simp [Codec.separates, equality] at separates
    | document => cases separates
  | false =>
    obtain ⟨x, conforms, later, alone⟩ :=
      exists_later_of_separates distributes registry equality ordinary separates
    obtain ⟨notMet, holds⟩ := meetsCondition_later equality h later
    refine ⟨x, conforms, ?_⟩
    rw [alone, notMet, holds]
    exact Bool.false_ne_true

end Server

namespace Term

variable {server : Server} {row : Value} {t : Term} {q : Document}

/-- A comparison that is separated, in a row where the value stands. -/
theorem exists_value_of_compares (lawful : server.Lawful) (distributes : server.Distributes)
    (registry : Registry) (ordinary : t.IsOrdinary) {op : BinaryOp} {path : FieldPath}
    {codec : Codec} {v condition : Value} {field : String} (compares : t.Compares op path codec v)
    (separates : codec.separates op v = true) (hfield : path.query? = some field)
    (hcondition : comparisonQuery? op v = some condition) :
    ∃ x, registry.Conforms codec (some x) ∧ ∀ row, x.StandsAt path.segments row →
      server.accepts row [(field, condition)] ≠ server.isTrue (t.meaning server row) := by
  obtain ⟨codec', hconst⟩ := compares.const_mem
  have ordinaryValue : v.isOrdinary = true :=
    ordinary.constants v codec' (mem_subterms_of_child hconst (mem_subterms_self _))
  obtain ⟨x, conforms, differ⟩ := Server.exists_value_of_separates lawful distributes registry
    ordinaryValue separates hcondition
  refine ⟨x, conforms, ?_⟩
  intro row stands
  obtain ⟨read, reached⟩ := Server.reaches_of_standsAt server stands
  rw [Server.accepts_reached hfield (ordinary.plain compares.field_mem), reached,
    compares.isTrue_meaning lawful, meaning_field (isRowField_of_query? hfield), read]
  exact differ

/-- A test of membership in a list that has items, in a row where an array stands that has one
of them. -/
theorem exists_array_of_contained (lawful : server.Lawful) (distributes : server.Distributes)
    {path : FieldPath} {codec codec' : Codec} {items : List Value} {field : String}
    (ordinary : (Term.contained (.field path codec) (.const (.array items) codec')).IsOrdinary)
    (nonempty : items ≠ []) (hfield : path.query? = some field) :
    ∃ array, ∀ row, (Value.array array).StandsAt path.segments row →
      server.accepts row [(field, .operator "$in" (.array items))] ≠
        server.isTrue ((Term.contained (.field path codec)
          (.const (.array items) codec')).meaning server row) := by
  obtain ⟨v, hv⟩ := List.exists_mem_of_ne_nil items nonempty
  obtain ⟨array, hmem, apart⟩ := Server.exists_array distributes v items
  refine ⟨array, ?_⟩
  intro row stands
  obtain ⟨read, reached⟩ := Server.reaches_of_standsAt server stands
  have child : .field path codec ∈
      (Term.contained (.field path codec) (.const (.array items) codec')).children := by
    simp [children]
  have ordinaryItems := ordinary.constants (.array items) codec' (by simp [subterms])
  rw [Value.isOrdinary] at ordinaryItems
  have found : server.accepts row [(field, .operator "$in" (.array items))] = true := by
    rw [Server.accepts_reached hfield (ordinary.plain child), reached,
      Server.meetsCondition_in, List.any_eq_true]
    refine ⟨v, hv, ?_⟩
    rw [Server.meetsItem_eq (Value.isOrdinary_of_mem ordinaryItems hv)]
    exact Server.any_equals_reach lawful distributes hmem
  have missed : server.isTrue ((Term.contained (.field path codec)
      (.const (.array items) codec')).meaning server row) = false := by
    rw [meaning, meaning_field (isRowField_of_query? hfield), read]
    refine (lawful.truth_bool _).trans ?_
    simpa [List.any_eq_false] using apart
  rw [found, missed]
  decide

/-- **A test that is separated tells the languages apart**, in every row where some value of
its codec stands at its path. -/
theorem exists_value_of_separated (lawful : server.Lawful) (distributes : server.Distributes)
    (registry : Registry) (ordinary : t.IsOrdinary) (single : t.isJoined = false)
    (separated : t.isSeparated = true) (h : t.query? = some q) :
    ∃ path codec x, .field path codec ∈ t.children ∧ registry.Conforms codec (some x) ∧
      ∀ row, x.StandsAt path.segments row →
        server.accepts row q ≠ server.isTrue (t.meaning server row) := by
  rcases query?_cases single h with
    ⟨op, path, codec, v, field, condition, compares, hfield, hcondition, rfl⟩ |
    ⟨path, codec, field, rfl, isBoolean, hfield, rfl⟩ |
    ⟨path, codec, items, codec', field, rfl, hfield, noNull, rfl⟩
  · obtain ⟨x, conforms, differ⟩ := exists_value_of_compares lawful distributes registry
      ordinary compares (compares.isSeparated_eq ▸ separated) hfield hcondition
    exact ⟨path, codec, x, compares.field_mem, conforms, differ⟩
  · cases separated
  · simp only [isSeparated, Bool.and_eq_true, Option.isNone_iff_eq_none] at separated
    obtain ⟨untyped, nonempty⟩ := separated
    obtain ⟨array, differ⟩ := exists_array_of_contained lawful distributes ordinary
      (by simpa using nonempty) hfield
    refine ⟨path, codec, .array array, by simp [children], ?_, differ⟩
    cases codec with
    | dynamic => exact .dynamic _
    | array item => exact .array _
    | _ => cases untyped

theorem IsOrdinary.of_mem {u : Term} (h : t.IsOrdinary) (hu : u ∈ t.subterms) :
    u.IsOrdinary where
  paths path codec hmem := h.paths path codec (mem_subterms_trans hu hmem)
  constants v codec hmem := h.constants v codec (mem_subterms_trans hu hmem)

theorem Everywhere.of_mem {holds : Term → Prop} {u : Term} (h : t.Everywhere holds)
    (hu : u ∈ t.subterms) : u.Everywhere holds :=
  fun v hv => h v (mem_subterms_trans hu hv)

theorem mem_subterms_of_mem_queriedLeaves {u : Term} (h : u ∈ t.queriedLeaves) :
    u ∈ t.subterms := by
  obtain ⟨conjunct, hconjunct, -, hu⟩ := mem_queriedLeaves.mp h
  exact mem_subterms_trans (mem_subterms_of_mem_chain hconjunct)
    (mem_subterms_of_mem_leaves hu)

end Term

/-! ### Predicates -/

/-- **Where the languages agree.** Take a predicate that is bound over the rows of a class. If
every test that its filter writes in the query language is settled by the codec of its field,
then the filter accepts the rows that conform to the class as the expression does. A test that
is separated by its codec, as each comparison of an untyped member is and each test for
equality of a member that holds an array, answers as its expression does for no row where a
certain value of the codec is found. -/
theorem Expr.filter_agrees_where_settled {registry : Registry} {c : ClassMap} {minted : Nat}
    {x : String} {e : Expr} {t : Term} {c₁ : Context}
    (bound : (e.bind registry).Yields
      (({ minted } : Context).push x (.root (.document c))) t c₁)
    (ordinary : t.IsOrdinary) {server : Server} (lawful : server.Lawful) :
    (∀ query expression, t.filterQuery = .ok query → t.exprQuery = .ok expression →
        (∀ test ∈ t.queriedLeaves, test.isSettled = true) →
        ∀ row, registry.Conforms (.document c) (some row) →
          server.accepts row query = server.accepts row expression) ∧
      (server.Distributes → ∀ test ∈ t.queriedLeaves, test.isSeparated = true →
        ∀ query expression, test.query? = some query → test.exprQuery = .ok expression →
          ∃ path codec v, .field path codec ∈ test.children ∧
            registry.Conforms codec (some v) ∧
            ∀ row, v.StandsAt path.segments row →
              server.accepts row query ≠ server.accepts row expression) := by
  have single {test : Term} (h : test ∈ t.queriedLeaves) : test.isJoined = false := by
    obtain ⟨conjunct, -, -, htest⟩ := Term.mem_queriedLeaves.mp h
    exact Term.isJoined_of_mem_leaves htest
  constructor
  · intro query expression hquery hexpression settled row conforms
    have reads : t.Everywhere (Term.ReadsConforming registry server row) :=
      Term.readsConforming_of_bound conforms bound
    rw [Term.accepts_exprQuery lawful ordinary.paths hexpression]
    refine Term.accepts_filterQuery_of_leaves lawful ordinary.paths ?_ hquery
    intro test htest q hq
    have below := Term.mem_subterms_of_mem_queriedLeaves htest
    exact Term.accepts_settled lawful (ordinary.of_mem below) (reads.of_mem below)
      (single htest) (settled test htest) hq
  · intro distributes test htest separated query expression hquery hexpression
    have ordinaryTest := ordinary.of_mem (Term.mem_subterms_of_mem_queriedLeaves htest)
    obtain ⟨path, codec, v, child, conforms, differ⟩ := Term.exists_value_of_separated lawful
      distributes registry ordinaryTest (single htest) separated hquery
    refine ⟨path, codec, v, child, conforms, ?_⟩
    intro row stands
    rw [Term.accepts_exprQuery lawful ordinaryTest.paths hexpression]
    exact differ row stands

/-! ### A settled and a separated predicate -/

/-- The number that orders integers, truth values and arrays, these by their length. -/
def Value.extent : Value → Int
  | .array items => items.length
  | v => v.rank

/-- A server that looks at the items of arrays. -/
def Server.ofExtents : Server :=
  { Server.ofRanks with
    within := fun a b => compare a.extent b.extent
    reachArray := fun names items =>
      if names = [] then some (.array items) :: items.map some else [] }

theorem Server.lawful_ofExtents : Server.ofExtents.Lawful where
  swap a b := Int.compare_swap a.extent b.extent
  within_bool a b := by cases a <;> cases b <;> rfl
  truth_bool b := by cases b <;> rfl
  truth_null := rfl

theorem Server.distributes_ofExtents : Server.ofExtents.Distributes where
  reach_array items := rfl
  length_eq h := by simpa [ofExtents, Value.extent, Int.natCast_inj] using h

/-- A person with notes, which may be anything. -/
def notedPerson : ClassMap :=
  .mk "Person" none
    [.mk "Name" "name" (.static .string), .mk "Age" "age" (.static .int32),
      .mk "Extra" "extra" (.static .object)]

/-- Such people only. -/
def notedPeople : Registry := .ofList [notedPerson]

/-- A person with one note in a list. -/
def listedFive : Value := .document [("name", .string "ann"), ("extra", .array [.int32 5])]

theorem listedFive_conforms : notedPeople.Conforms (.document notedPerson) (some listedFive) := by
  refine .of_members ?_
  simp only [notedPerson, ClassMap.members, List.forall_mem_cons, List.not_mem_nil,
    false_implies, implies_true, and_true, Member.type, Member.element]
  refine ⟨?_, ?_, ?_⟩
  · rintro codec ⟨rfl⟩
    exact .scalar rfl
  · rintro codec ⟨rfl⟩
    exact .missing rfl
  · rintro codec ⟨rfl⟩
    exact .dynamic _

/-- Whether a person is no adult, or is called otherwise. -/
def childOrNotAnn : Expr :=
  .unary .not (.binary .and
    (.binary .lte (.const (.int32 18) .int32) (.member (.param "x") "Age"))
    (.binary .eq (.member (.param "x") "Name") (.const (.string "ann") .string)))

/-- The predicate that it is bound to. -/
def isChildOrNotAnn : Term :=
  .unary .not (.binary .and
    (.binary .lte (.const (.int32 18) .int32) (.field (.field "age") .int32))
    (.binary .eq (.field (.field "name") .string) (.const (.string "ann") .string)))

/-- Whether the notes of a person are the number five. -/
def notesFive : Expr :=
  .binary .eq (.member (.param "x") "Extra") (.const (.int32 5) .int32)

/-- The predicate that it is bound to. -/
def isNotedFive : Term :=
  .binary .eq (.field (.field "extra") .dynamic) (.const (.int32 5) .int32)

theorem isChildOrNotAnn_isOrdinary : isChildOrNotAnn.IsOrdinary := by
  constructor
  · intro path codec h
    simp only [isChildOrNotAnn, Term.subterms, List.cons_append, List.nil_append, List.mem_cons,
      List.not_mem_nil, reduceCtorEq, false_or, or_false, Term.field.injEq] at h
    rcases h with ⟨rfl, _⟩ | ⟨rfl, _⟩ <;> simp [FieldPath.IsPlain, FieldPath.field]
  · intro v codec h
    simp only [isChildOrNotAnn, Term.subterms, List.cons_append, List.nil_append, List.mem_cons,
      List.not_mem_nil, reduceCtorEq, false_or, or_false, Term.const.injEq] at h
    rcases h with ⟨rfl, _⟩ | ⟨rfl, _⟩ <;> rfl

theorem isNotedFive_isOrdinary : isNotedFive.IsOrdinary := by
  constructor
  · intro path codec h
    simp only [isNotedFive, Term.subterms, List.cons_append, List.nil_append, List.mem_cons,
      List.not_mem_nil, reduceCtorEq, or_false, Term.field.injEq, false_or] at h
    rw [h.1]
    simp [FieldPath.IsPlain, FieldPath.field]
  · intro v codec h
    simp only [isNotedFive, Term.subterms, List.cons_append, List.nil_append, List.mem_cons,
      List.not_mem_nil, reduceCtorEq, or_false, Term.const.injEq, false_or] at h
    rw [h.1]
    rfl

theorem childOrNotAnn_agrees :
    ∃ query expression, isChildOrNotAnn.filterQuery = .ok query ∧
      isChildOrNotAnn.exprQuery = .ok expression ∧
      Server.ofExtents.accepts listedFive query =
        Server.ofExtents.accepts listedFive expression ∧
      ∃ query expression, isNotedFive.filterQuery = .ok query ∧
        isNotedFive.exprQuery = .ok expression ∧
        ∃ path codec v, .field path codec ∈ isNotedFive.children ∧
          notedPeople.Conforms codec (some v) ∧
          ∀ row, v.StandsAt path.segments row →
            Server.ofExtents.accepts row query ≠ Server.ofExtents.accepts row expression := by
  have bound : (childOrNotAnn.bind notedPeople).Yields
      (({} : Context).push "x" (.root (.document notedPerson))) isChildOrNotAnn
      (({} : Context).push "x" (.root (.document notedPerson))) := rfl
  have bound' : (notesFive.bind notedPeople).Yields
      (({} : Context).push "x" (.root (.document notedPerson))) isNotedFive
      (({} : Context).push "x" (.root (.document notedPerson))) := rfl
  have settled : ∀ test ∈ isChildOrNotAnn.queriedLeaves, test.isSettled = true := by decide
  have agree := (Expr.filter_agrees_where_settled bound isChildOrNotAnn_isOrdinary
    Server.lawful_ofExtents).1 _ _ rfl rfl settled listedFive listedFive_conforms
  have written : isNotedFive ∈ isNotedFive.queriedLeaves :=
    (List.mem_cons_self : isNotedFive ∈ [isNotedFive])
  have differ := (Expr.filter_agrees_where_settled bound' isNotedFive_isOrdinary
    Server.lawful_ofExtents).2 Server.distributes_ofExtents isNotedFive written rfl _ _ rfl rfl
  exact ⟨_, _, rfl, rfl, agree, _, _, rfl, rfl, differ⟩

/-- The people whose notes are the number five. -/
def notedFive : Query where
  collection := "people"
  itemType := .document "Person"
  clauses := [⟨"Queryable", "Where", [], [.lambda ["x"] notesFive]⟩]

/-- As it is bound, it filters by that. -/
def notedFiveBound : Pipeline where
  stages := [.filter isNotedFive]
  projector := .root (.document notedPerson)

/-- A list with five in it is not five, but the query language finds it. -/
theorem notedFive_finds_lists :
    let query : Document := [("extra", .int32 5)]
    let expression : Document :=
      [("$expr", .document [("$eq", .array [.string "$extra", .int32 5])])]
    notedFive.bound notedPeople = (.ok notedFiveBound, {}) ∧
      (notedFive.compile notedPeople {}).map Command.pipeline =
        .ok [[("$match", .document query)]] ∧
      isNotedFive.filterQuery = .ok query ∧ isNotedFive.exprQuery = .ok expression ∧
      notedPeople.Conforms (.document notedPerson) (some listedFive) ∧
      Server.ofExtents.Lawful ∧ Server.ofExtents.Distributes ∧
      Server.ofExtents.accepts listedFive query = true ∧
      Server.ofExtents.accepts listedFive expression = false := by
  intro query expression
  have bound : notedFive.bound notedPeople = (.ok notedFiveBound, {}) := rfl
  have compiled : (notedFive.compile notedPeople {}).map Command.pipeline =
      .ok [[("$match", .document query)]] :=
    Query.compile_of_no_group bound (by simp [notedFiveBound, Stage.isGroup]) {}
  exact ⟨bound, compiled, rfl, rfl, listedFive_conforms, Server.lawful_ofExtents,
    Server.distributes_ofExtents, rfl, rfl⟩

end QueryPipeline
