import QueryPipeline.Emission.Filter
import QueryPipeline.Proofs.Emission.Expression

/-!
Filters accept the rows for which their predicates are true (`Term.accepts_filterQuery`). Conjunct
by conjunct a predicate is written as a query or wrapped as an expression, and a query must not
differ from the expression: on null, on fields that are missing, and on the side on which a
constant stands. Arrays are out of scope, where the languages differ by design, and so are values
of another type than what they are compared with.
-/

namespace QueryPipeline

/-! ### Ordinary constants -/

namespace Value

mutual
/-- Whether a value has no pattern, no number that is none and no end of the order of
types in it, nor the type that only old documents have. -/
def isOrdinary : Value → Bool
  | .regex _ _ | .undefined | .minKey | .maxKey => false
  | .double d => !d.isNaN
  | .array items => allOrdinary items
  | .document fields | .codeWithScope _ fields => fieldsOrdinary fields
  | _ => true

def allOrdinary : List Value → Bool
  | [] => true
  | v :: rest => v.isOrdinary && allOrdinary rest

def fieldsOrdinary : List (String × Value) → Bool
  | [] => true
  | (_, v) :: rest => v.isOrdinary && fieldsOrdinary rest
end

theorem isOrdinary_of_mem {items : List Value} (h : allOrdinary items = true) {v : Value}
    (hv : v ∈ items) : v.isOrdinary = true := by
  induction items with
  | nil => cases hv
  | cons w rest ih =>
    simp only [allOrdinary, Bool.and_eq_true] at h
    rcases List.mem_cons.mp hv with rfl | hv
    · exact h.1
    · exact ih h.2 hv

/-- Null comes before all ordinary values of other types. -/
theorem bracket_null_lt {v : Value} (ordinary : v.isOrdinary = true)
    (notNull : v.isNull = false) : Value.null.bracket < v.bracket := by
  cases v <;> simp_all [isOrdinary, isNull, bracket]

/-- And the end of the order comes after them. -/
theorem bracket_lt_maxKey {v : Value} (ordinary : v.isOrdinary = true) :
    v.bracket < Value.maxKey.bracket := by
  cases v <;> simp_all [isOrdinary, bracket]

/-! ### Paths without arrays -/

/-- No array is on a path from a value, nor at its end. -/
def IsArrayFree : List String → Value → Prop
  | _, .array _ => False
  | name :: names, .document fields =>
    ∀ v, Document.get? name fields = some v → IsArrayFree names v
  | _, _ => True

end Value

/-- A field of the row is read from no variable. -/
theorem FieldPath.var_eq_none {p : FieldPath} (h : p.isRowField = true) : p.var = none := by
  simp only [isRowField, Bool.and_eq_true, Option.isNone_iff_eq_none] at h
  exact h.1

namespace Server

variable {server : Server} {row : Value}

theorem readAll_cons (name : String) (names : List String) (v : Option Value) :
    server.readAll (name :: names) v = server.readAll names (server.read name v) := rfl

/-- What is missing has no fields. -/
theorem readAll_none (names : List String) : server.readAll names none = none := by
  induction names with
  | nil => rfl
  | cons name names ih => exact ih

/-- Without arrays, a query reaches the one value that an expression reads. -/
theorem reach_eq_readAll {names : List String} {v : Value} (h : v.IsArrayFree names) :
    server.reach names v = [server.readAll names (some v)] := by
  induction names generalizing v with
  | nil =>
    cases v with
    | array items => exact h.elim
    | _ => rfl
  | cons name names ih =>
    cases v with
    | array items => exact h.elim
    | document fields =>
      rw [readAll_cons, read, reach]
      cases hget : Document.get? name fields with
      | none => rw [readAll_none]
      | some w => exact ih (h w hget)
    | _ => rw [readAll_cons, read, readAll_none, reach] <;> simp

/-- A part whose name is no operator is a condition on a path. -/
theorem acceptsPart_path {name : String} (h : name.toList.head? ≠ some '$') (v : Value) :
    server.acceptsPart row name v = server.meetsPath row name v := by
  have isOperator {name' : String} (h' : name'.toList.head? = some '$') : name ≠ name' := by
    rintro rfl
    exact h h'
  unfold acceptsPart
  split
  · split
    · exact absurd rfl (isOperator rfl)
    · exact absurd rfl (isOperator rfl)
    · exact absurd rfl (isOperator rfl)
    · exact absurd rfl (isOperator rfl)
    · rfl
  · split
    · exact absurd rfl (isOperator rfl)
    · rfl

/-- A query for a field looks at the values that its path reaches. -/
theorem accepts_reached {p : FieldPath} {field : String} (h : p.query? = some field)
    (plain : p.IsPlain) (condition : Value) :
    server.accepts row [(field, condition)] =
      server.meetsCondition (server.reach p.segments row) condition := by
  unfold FieldPath.query? at h
  split at h
  · rename_i isRowField
    obtain rfl := Option.some.inj h
    have nonempty : p.segments ≠ [] := by
      simp only [FieldPath.isRowField, Bool.and_eq_true] at isRowField
      simpa using isRowField.2
    rw [accepts, accepts, Bool.and_true,
      acceptsPart_path (FieldPath.head?_dotted plain), meetsPath,
      FieldPath.splitOn_dotted plain nonempty]
  · cases h

/-- Without arrays, it looks at the value that the field has. -/
theorem accepts_field {p : FieldPath} {field : String} (h : p.query? = some field)
    (plain : p.IsPlain) (arrayFree : row.IsArrayFree p.segments) (condition : Value) :
    server.accepts row [(field, condition)] =
      server.meetsCondition [server.readAll p.segments (some row)] condition := by
  rw [accepts_reached h plain, reach_eq_readAll arrayFree]

end Server

/-! ### Comparisons -/

/-- A condition is the value itself, if it is neither a document nor a pattern, or the operator
of the comparison with the value. Nothing is compared with null. -/
theorem comparisonQuery?_cases {op : BinaryOp} {v condition : Value}
    (h : comparisonQuery? op v = some condition) :
    v.isNull = false ∧
      (op = .eq ∧ condition = v ∧ (∀ fields, v ≠ .document fields) ∧
          (∀ pattern options, v ≠ .regex pattern options) ∨
        op = .eq ∧ condition = .operator "$eq" v ∨ op = .ne ∧ condition = .operator "$ne" v ∨
        op = .gt ∧ condition = .operator "$gt" v ∨
        op = .gte ∧ condition = .operator "$gte" v) := by
  have notNull : v.isNull = false := by
    cases hv : v.isNull with
    | false => rfl
    | true =>
      rw [comparisonQuery?.eq_def, if_pos hv] at h
      cases h
  refine ⟨notNull, ?_⟩
  rw [comparisonQuery?.eq_def, if_neg (by simp [notNull])] at h
  cases op with
  | eq => cases v <;> cases h <;> simp
  | ne | gt | gte =>
    cases h
    simp
  | _ => cases h

/-- The answer of a comparison for an order. -/
def BinaryOp.answer (op : BinaryOp) (o : Ordering) : Bool := (op.holds o).getD false

/-- What a field may hold that is compared with a value: nothing, null, or a value of
the same type. -/
def Value.IsComparable (v : Value) : Option Value → Prop
  | none => True
  | some w => w = .null ∨ w.bracket = v.bracket

namespace Server

variable {server : Server} {row : Value}

/-- The order of two values, seen from the other side. -/
theorem order_swap (lawful : server.Lawful) (a b : Option Value) :
    (server.order a b).swap = server.order b a := by
  cases a with
  | none => cases b <;> rfl
  | some a =>
    cases b with
    | none => rfl
    | some b =>
      simp only [order, compareValues, Ordering.swap_then, Nat.compare_swap, lawful.swap]

/-- A comparison is flipped with its sides. -/
theorem answer_flip (lawful : server.Lawful) {op : BinaryOp} (h : op.isComparison = true)
    (a b : Option Value) :
    op.flip.answer (server.order b a) = op.answer (server.order a b) := by
  rw [← order_swap lawful a b]
  cases op with
  | eq | ne | lt | lte | gt | gte => cases server.order a b <;> rfl
  | _ => cases h

/-- A field that is missing or null is less than any value that it is compared with. -/
theorem order_eq_lt {v : Value} (ordinary : v.isOrdinary = true) (notNull : v.isNull = false)
    {x : Option Value} (h : x = none ∨ x = some .null) : server.order x (some v) = .lt := by
  rcases h with rfl | rfl
  · rfl
  · have hlt := Value.bracket_null_lt ordinary notNull
    simp [order, compareValues, Nat.compare_eq_lt.mpr hlt]

theorem equals_eq {v : Value} (notNull : v.isNull = false) (x : Option Value) :
    server.equals v x = (server.order x (some v) == .eq) := by
  cases x with
  | none => rw [equals, notNull]; rfl
  | some w => rfl

theorem exceeds_eq_of_le {v : Value} {x : Option Value}
    (bracket : ∀ w ∈ x, w.bracket ≤ v.bracket) :
    server.exceeds v x = (server.order x (some v) == .gt) := by
  cases x with
  | none => rfl
  | some w =>
    rcases Nat.eq_or_lt_of_le (bracket w rfl) with same | less
    · simp [exceeds, same, order]
    · have lower : server.order (some w) (some v) = .lt := by
        simp [order, compareValues, Nat.compare_eq_lt.mpr less]
      simp [exceeds, lower, Nat.ne_of_lt less]

theorem exceeds_eq {v : Value} (ordinary : v.isOrdinary = true) (notNull : v.isNull = false)
    {x : Option Value} (comparable : v.IsComparable x) :
    server.exceeds v x = (server.order x (some v) == .gt) := by
  refine exceeds_eq_of_le ?_
  rintro w rfl
  rcases comparable with rfl | same
  · exact Nat.le_of_lt (Value.bracket_null_lt ordinary notNull)
  · exact Nat.le_of_eq same

/-- A value that stands for itself is met by its equals. -/
theorem meetsCondition_value {v : Value} (noDocument : ∀ fields, v ≠ .document fields)
    (noPattern : ∀ pattern options, v ≠ .regex pattern options)
    (values : List (Option Value)) :
    server.meetsCondition values v = values.any (server.equals v) := by
  cases v with
  | document fields => exact (noDocument fields rfl).elim
  | regex pattern options => exact (noPattern pattern options rfl).elim
  | _ => rfl

/-- The condition of a comparison is met by the values for which the comparison holds, where a
value that has to be greater is not greater by its type. -/
theorem meetsCondition_of_exceeds {op : BinaryOp} {v condition : Value}
    (h : comparisonQuery? op v = some condition) {x : Option Value}
    (exceed : op ≠ .eq → op ≠ .ne →
      server.exceeds v x = (server.order x (some v) == .gt)) :
    server.meetsCondition [x] condition = op.answer (server.order x (some v)) := by
  obtain ⟨notNull, form⟩ := comparisonQuery?_cases h
  have equal : server.equals v x = (server.order x (some v) == .eq) := equals_eq notNull x
  rcases form with ⟨rfl, rfl, noDocument, noPattern⟩ | ⟨rfl, rfl⟩ | ⟨rfl, rfl⟩ | ⟨rfl, rfl⟩ |
    ⟨rfl, rfl⟩
  · rw [meetsCondition_value noDocument noPattern, List.any_cons, List.any_nil, Bool.or_false,
      equal]
    rfl
  · simp [meetsCondition, Value.operator, meets, equal, BinaryOp.answer, BinaryOp.holds]
  · simp [meetsCondition, Value.operator, meets, equal, BinaryOp.answer, BinaryOp.holds, bne]
  · simp [meetsCondition, Value.operator, meets, exceed (by decide) (by decide), BinaryOp.answer,
      BinaryOp.holds]
  · simp [meetsCondition, Value.operator, meets, equal, exceed (by decide) (by decide),
      BinaryOp.answer, BinaryOp.holds]
    cases server.order x (some v) <;> rfl

/-- The condition of a comparison is met by the values for which the comparison holds. -/
theorem meetsCondition_comparison {op : BinaryOp} {v condition : Value}
    (ordinary : v.isOrdinary = true) (h : comparisonQuery? op v = some condition)
    {x : Option Value} (comparable : v.IsComparable x) :
    server.meetsCondition [x] condition = op.answer (server.order x (some v)) :=
  meetsCondition_of_exceeds h fun _ _ =>
    exceeds_eq ordinary (comparisonQuery?_cases h).1 comparable

/-- An ordinary item of a list is met by its equals. -/
theorem meetsItem_eq {item : Value} (ordinary : item.isOrdinary = true) :
    server.meetsItem item = server.equals item := by
  funext v
  cases item with
  | regex pattern options => cases ordinary
  | _ => rfl

theorem meetsCondition_in (values : List (Option Value)) (items : List Value) :
    server.meetsCondition values (.operator "$in" (.array items)) =
      items.any fun item => values.any (server.meetsItem item) := by
  simp [meetsCondition, Value.operator, meets]

/-! ### Chains of queries -/

theorem acceptsAll_append (row : Value) (queries more : List Value) :
    server.acceptsAll row (queries ++ more) =
      (server.acceptsAll row queries && server.acceptsAll row more) := by
  induction queries with
  | nil => rfl
  | cons q queries ih =>
    cases q with
    | document query => simp only [List.cons_append, acceptsAll, ih, Bool.and_assoc]
    | _ => simp [acceptsAll]

theorem acceptsAny_append (row : Value) (queries more : List Value) :
    server.acceptsAny row (queries ++ more) =
      (server.acceptsAny row queries || server.acceptsAny row more) := by
  induction queries with
  | nil => rfl
  | cons q queries ih =>
    cases q with
    | document query => simp only [List.cons_append, acceptsAny, ih, Bool.or_assoc]
    | _ => simpa only [List.cons_append, acceptsAny] using ih

theorem accepts_and (queries : List Value) :
    server.accepts row [("$and", .array queries)] = server.acceptsAll row queries := by
  simp [accepts, acceptsPart]

theorem accepts_or (queries : List Value) :
    server.accepts row [("$or", .array queries)] = server.acceptsAny row queries := by
  simp [accepts, acceptsPart]

theorem accepts_nor (query : Document) :
    server.accepts row [("$nor", .array [.document query])] =
      !server.accepts row query := by
  simp [accepts, acceptsPart, acceptsAny]

theorem accepts_expr (e : Value) :
    server.accepts row [("$expr", e)] = server.isTrue (server.evaluate row e) := by
  cases e <;> simp [accepts, acceptsPart]

end Server

/-! ### Predicates -/

namespace Term

/-- A predicate with plain names and ordinary constants. -/
structure IsOrdinary (t : Term) : Prop where
  paths : t.HasPlainPaths
  constants : ∀ v codec, .const v codec ∈ t.subterms → v.isOrdinary = true

theorem IsOrdinary.child {t u : Term} (h : t.IsOrdinary) (hu : u ∈ t.children) :
    u.IsOrdinary where
  paths := h.paths.child hu
  constants v codec hmem := h.constants v codec (mem_subterms_of_child hu hmem)

/-- A field of the row has no array on its path, and its value is as expected. -/
def FieldFits (server : Server) (row : Value) (p : FieldPath)
    (expected : Option Value → Prop) : Prop :=
  p.isRowField = true →
    row.IsArrayFree p.segments ∧ expected (server.readAll p.segments (some row))

/-- What a field may hold that is a condition: nothing, null or a truth value. -/
def IsCondition (v : Option Value) : Prop := v = none ∨ v = some .null ∨ ∃ b, v = some (.bool b)

/-- A row fits a predicate if no field that it reads where it compares, tests or takes a
condition is an array, and each is missing, null or of the type that is asked for. -/
def Fits (server : Server) (row : Value) : Term → Prop
  | .binary op left right =>
    if op.isComparison then
      match left, right with
      | .field path _, .const v _ => FieldFits server row path v.IsComparable
      | .const v _, .field path _ => FieldFits server row path v.IsComparable
      | _, _ => True
    else if op.isConnective then left.Fits server row ∧ right.Fits server row
    else True
  | .unary .not operand => operand.Fits server row
  | .field path codec => codec.isBoolean = true → FieldFits server row path IsCondition
  | .contained (.field path _) (.const _ _) => FieldFits server row path fun _ => True
  | _ => True

variable {server : Server} {row : Value}

theorem isRowField_of_query? {p : FieldPath} {field : String} (h : p.query? = some field) :
    p.isRowField = true := by
  unfold FieldPath.query? at h
  split at h
  · assumption
  · cases h

theorem meaning_field {p : FieldPath} {codec : Codec} (h : p.isRowField = true) :
    (Term.field p codec).meaning server row = server.readAll p.segments (some row) := by
  obtain ⟨var, names⟩ := p
  cases var with
  | none => rfl
  | some var => cases h

theorem meaning_comparison {op : BinaryOp} (h : op.isComparison = true)
    (left right : Term) :
    (Term.binary op left right).meaning server row =
      some (.bool (op.answer
        (server.order (left.meaning server row) (right.meaning server row)))) := by
  cases op <;> first | rfl | cases h

/-- A query that compares a field with a value is the comparison. -/
theorem accepts_comparisonQuery {op : BinaryOp} {path : FieldPath} {v condition : Value}
    {codec : Codec} {field : String} (plain : path.IsPlain) (hv : v.isOrdinary = true)
    (fits : FieldFits server row path v.IsComparable) (hfield : path.query? = some field)
    (hcondition : comparisonQuery? op v = some condition) :
    server.accepts row [(field, condition)] = op.answer
      (server.order ((Term.field path codec).meaning server row) (some v)) := by
  have isRowField := isRowField_of_query? hfield
  obtain ⟨arrayFree, comparable⟩ := fits isRowField
  rw [Server.accepts_field hfield plain arrayFree,
    Server.meetsCondition_comparison hv hcondition comparable, meaning_field isRowField]

/-- A query for a comparison is the comparison, on whichever side the field stands. -/
theorem accepts_comparison (lawful : server.Lawful) {op : BinaryOp} {left right : Term}
    {q : Document} (comparison : op.isComparison = true)
    (ordinary : (Term.binary op left right).IsOrdinary)
    (fits : (Term.binary op left right).Fits server row)
    (h : left.comparison? op right = some q) :
    server.accepts row q = op.answer
      (server.order (left.meaning server row) (right.meaning server row)) := by
  simp only [Fits, comparison, if_true] at fits
  unfold comparison? at h
  split at h
  · rename_i path codec v codec'
    simp only [Option.bind_eq_bind, Option.bind_eq_some_iff, Option.pure_def,
      Option.some.injEq] at h
    obtain ⟨field, hfield, condition, hcondition, rfl⟩ := h
    exact accepts_comparisonQuery (ordinary.paths path codec (by simp [subterms]))
      (ordinary.constants v codec' (by simp [subterms])) fits hfield hcondition
  · rename_i v codec' path codec
    simp only [Option.bind_eq_bind, Option.bind_eq_some_iff, Option.pure_def,
      Option.some.injEq] at h
    obtain ⟨field, hfield, condition, hcondition, rfl⟩ := h
    rw [← Server.answer_flip lawful comparison]
    exact accepts_comparisonQuery (ordinary.paths path codec (by simp [subterms]))
      (ordinary.constants v codec' (by simp [subterms])) fits hfield hcondition
  · cases h

/-- A query for a field to be true is the field as a condition. -/
theorem accepts_condition (lawful : server.Lawful) {path : FieldPath} {codec : Codec}
    {field : String} (plain : path.IsPlain) (fits : FieldFits server row path IsCondition)
    (hfield : path.query? = some field) :
    server.accepts row [(field, .bool true)] =
      server.isTrue ((Term.field path codec).meaning server row) := by
  have isRowField := isRowField_of_query? hfield
  obtain ⟨arrayFree, condition⟩ := fits isRowField
  rw [Server.accepts_field hfield plain arrayFree, meaning_field isRowField]
  have implicit (v : Option Value) :
      server.meetsCondition [v] (.bool true) = (server.order v (some (.bool true)) == .eq) := by
    rw [← Server.equals_eq rfl]
    simp [Server.meetsCondition, Server.meetsItem]
  rw [implicit]
  rcases condition with hv | hv | ⟨b, hv⟩
  · rw [hv]
    rfl
  · rw [hv, Server.order_eq_lt rfl rfl (.inr rfl)]
    exact lawful.truth_null.symm
  · have same : server.order (some (.bool b)) (some (.bool true)) = compare b true := by
      simp [Server.order, Server.compareValues, lawful.within_bool, Value.bracket]
    rw [hv, same]
    refine Eq.trans ?_ (lawful.truth_bool b).symm
    cases b <;> rfl

/-- A query for membership is membership. -/
theorem accepts_contained (lawful : server.Lawful) {path : FieldPath} {codec codec' : Codec}
    {items : List Value} {field : String} (ordinary : (Term.contained (.field path codec)
      (.const (.array items) codec')).IsOrdinary)
    (fits : FieldFits server row path fun _ => True) (hfield : path.query? = some field)
    (noNull : items.any Value.isNull = false) :
    server.accepts row [(field, .operator "$in" (.array items))] =
      server.isTrue ((Term.contained (.field path codec)
        (.const (.array items) codec')).meaning server row) := by
  have isRowField := isRowField_of_query? hfield
  obtain ⟨arrayFree, _⟩ := fits isRowField
  have plain := ordinary.paths path codec (by simp [subterms])
  have hitems := ordinary.constants (.array items) codec' (by simp [subterms])
  rw [Value.isOrdinary] at hitems
  have equal : ∀ item ∈ items,
      [server.readAll path.segments (some row)].any (server.meetsItem item) =
        (server.order (server.readAll path.segments (some row)) (some item) == .eq) := by
    intro item hitem
    have ordinaryItem := Value.isOrdinary_of_mem hitems hitem
    have notNull : item.isNull = false := by
      rw [List.any_eq_false] at noNull
      simpa using noNull item hitem
    rw [← Server.equals_eq notNull]
    rw [Server.meetsItem_eq ordinaryItem]
    simp
  rw [Server.accepts_field hfield plain arrayFree, Server.meetsCondition_in, meaning,
    meaning_field isRowField]
  refine Eq.trans ?_ (lawful.truth_bool _).symm
  rw [Bool.eq_iff_iff, List.any_eq_true, List.any_eq_true]
  exact exists_congr fun item => and_congr_right fun hitem => by rw [equal item hitem]

/-- A chain is written as a query if its parts are, all in one list. -/
theorem query?_connective {op : BinaryOp} (connective : op.isConnective = true)
    {left right : Term} {q : Document} (h : (Term.binary op left right).query? = some q) :
    ∃ l r, left.query? = some l ∧ right.query? = some r ∧
      q = [(op.emit, .array (left.queryOperands op l ++ right.queryOperands op r))] := by
  have noComparison : ¬ op.isComparison = true := by
    cases op <;> first | decide | cases connective
  rw [query?, if_neg noComparison, if_pos connective] at h
  simp only [Option.bind_eq_bind, Option.bind_eq_some_iff, Option.pure_def,
    Option.some.injEq] at h
  obtain ⟨l, hl, r, hr, rfl⟩ := h
  exact ⟨l, r, hl, hr, rfl⟩

/-- What a query adds to a chain: itself, or what it joins. -/
theorem queryOperands_query (op : BinaryOp) (connective : op.isConnective = true) {t : Term}
    {q : Document} (h : t.query? = some q) :
    t.queryOperands op q = [.document q] ∨
      ∃ queries, q = [(op.emit, .array queries)] ∧ t.queryOperands op q = queries := by
  rcases operands_cases op t (.document q) with
    single | ⟨left, right, name, queries, rfl, hq, hqueries⟩
  · exact .inl single
  · obtain ⟨l, r, _, _, rfl⟩ := query?_connective connective h
    simp only [Value.document.injEq, List.cons.injEq, Prod.mk.injEq] at hq
    exact .inr ⟨queries, by rw [hq.1.1, hq.1.2], hqueries⟩

theorem acceptsAll_queryOperands {t : Term} {q : Document} (h : t.query? = some q) :
    server.acceptsAll row (t.queryOperands .and q) = server.accepts row q := by
  rcases queryOperands_query .and rfl h with single | ⟨queries, rfl, hqueries⟩
  · simp [single, Server.acceptsAll]
  · rw [hqueries, BinaryOp.emit, Server.accepts_and]

theorem acceptsAny_queryOperands {t : Term} {q : Document} (h : t.query? = some q) :
    server.acceptsAny row (t.queryOperands .or q) = server.accepts row q := by
  rcases queryOperands_query .or rfl h with single | ⟨queries, rfl, hqueries⟩
  · simp [single, Server.acceptsAny]
  · rw [hqueries, BinaryOp.emit, Server.accepts_or]

/-- A chain accepts a row as its sides do. -/
theorem accepts_connective (lawful : server.Lawful) {op : BinaryOp}
    (connective : op.isConnective = true) {left right : Term} {l r : Document}
    (hl : left.query? = some l) (hr : right.query? = some r)
    (left_accepts : server.accepts row l = server.isTrue (left.meaning server row))
    (right_accepts : server.accepts row r = server.isTrue (right.meaning server row)) :
    server.accepts row
        [(op.emit, .array (left.queryOperands op l ++ right.queryOperands op r))] =
      server.isTrue ((Term.binary op left right).meaning server row) := by
  have truth (b : Bool) : server.isTrue (some (.bool b)) = b := lawful.truth_bool b
  cases op with
  | and =>
    rw [BinaryOp.emit, Server.accepts_and, Server.acceptsAll_append,
      acceptsAll_queryOperands hl, acceptsAll_queryOperands hr, left_accepts,
      right_accepts, meaning, truth]
  | or =>
    rw [BinaryOp.emit, Server.accepts_or, Server.acceptsAny_append,
      acceptsAny_queryOperands hl, acceptsAny_queryOperands hr, left_accepts,
      right_accepts, meaning, truth]
  | _ => cases connective

/-- **A query accepts the rows for which the predicate is true.** -/
theorem accepts_query (lawful : server.Lawful) : (t : Term) → {q : Document} →
    t.IsOrdinary → t.Fits server row → t.query? = some q →
    server.accepts row q = server.isTrue (t.meaning server row)
  | .binary op left right, q, ordinary, fits, h => by
      by_cases comparison : op.isComparison = true
      · rw [query?, if_pos comparison] at h
        rw [accepts_comparison lawful comparison ordinary fits h,
          meaning_comparison comparison]
        exact (lawful.truth_bool _).symm
      · by_cases connective : op.isConnective = true
        · obtain ⟨l, r, hl, hr, rfl⟩ := query?_connective connective h
          simp only [Fits, if_neg comparison, if_pos connective] at fits
          have left_accepts :=
            accepts_query lawful left (ordinary.child (by simp [children])) fits.1 hl
          have right_accepts :=
            accepts_query lawful right (ordinary.child (by simp [children])) fits.2 hr
          exact accepts_connective lawful connective hl hr left_accepts right_accepts
        · rw [query?, if_neg comparison, if_neg connective] at h
          cases h
  | .unary .not operand, q, ordinary, fits, h => by
      simp only [query?, Option.bind_eq_bind, Option.bind_eq_some_iff, Option.pure_def,
        Option.some.injEq] at h
      obtain ⟨query, hquery, rfl⟩ := h
      have operand_accepts :=
        accepts_query lawful operand (ordinary.child (by simp [children])) fits hquery
      rw [Server.accepts_nor, operand_accepts, meaning]
      exact (lawful.truth_bool _).symm
  | .field path codec, q, ordinary, fits, h => by
      rw [query?] at h
      split at h
      · rename_i isBoolean
        obtain ⟨field, hfield, rfl⟩ := Option.map_eq_some_iff.mp h
        exact accepts_condition lawful (ordinary.paths path codec (by simp [subterms]))
          (fits isBoolean) hfield
      · cases h
  | .contained value array, q, ordinary, fits, h => by
      unfold query? at h
      split at h
      · contradiction
      · contradiction
      · contradiction
      · rename_i path codec items codec' heq
        obtain ⟨rfl, rfl⟩ := Term.contained.inj heq
        split at h
        · cases h
        · rename_i noNull
          obtain ⟨field, hfield, rfl⟩ := Option.map_eq_some_iff.mp h
          exact accepts_contained lawful ordinary fits hfield (by simpa using noNull)
      · cases h
  | .const _ _, _, _, _, h | .document _, _, _, _, h | .item _ _ _, _, _, _, h
  | .accumulator _ _ _ _ _, _, _, _, h | .unary .negate _, _, _, _, h
  | .cond _ _ _, _, _, _, h | .filter _ _ _, _, _, _, h | .map _ _ _, _, _, _, h
  | .anyTrue _, _, _, _, h | .allTrue _, _, _, _, h | .setOp _ _, _, _, _, h
  | .size _, _, _, _, h | .elemAt _ _, _, _, _, h | .slice _ _, _, _, _, h
  | .reduce _ _ _, _, _, _, h | .sortArray _ _, _, _, _, h | .getField _ _ _, _, _, _, h
  | .grouping _ _ _ _ _, _, _, _, h => by
      cases h

/-! ### Conjuncts -/

/-- What holds of a predicate and, where it holds of a conjunction, of both its sides,
holds of all its conjuncts. -/
theorem forall_chain_and {holds : Term → Prop} {t : Term} (h : holds t)
    (sides : ∀ left right, holds (.binary .and left right) → holds left ∧ holds right) :
    ∀ conjunct ∈ t.chain .and, holds conjunct := by
  generalize hop : BinaryOp.and = op
  fun_induction chain op t with
  | case1 left right ihleft ihright =>
    subst hop
    obtain ⟨hleft, hright⟩ := sides left right h
    intro conjunct hmem
    rcases List.mem_append.mp hmem with hmem | hmem
    · exact ihleft hleft conjunct hmem
    · exact ihright hright conjunct hmem
  | case2 op' left right hne =>
    simpa using h
  | case3 t hnot =>
    simpa using h

/-- A predicate is true if and only if all its conjuncts are. -/
theorem all_chain_and (lawful : server.Lawful) (t : Term) :
    (t.chain .and).all (fun conjunct => server.isTrue (conjunct.meaning server row)) =
      server.isTrue (t.meaning server row) := by
  generalize hop : BinaryOp.and = op
  fun_induction chain op t with
  | case1 left right ihleft ihright =>
    subst hop
    rw [List.all_append, ihleft, ihright, meaning]
    exact (lawful.truth_bool _).symm
  | case2 op' left right hne => simp
  | case3 t hnot => simp

/-- A conjunct, written as a query or as an expression, accepts the rows for which it is
true. -/
theorem accepts_conjunct (lawful : server.Lawful) {t : Term} {q : Document}
    (ordinary : t.IsOrdinary) (fits : t.Fits server row)
    (h : (match t.query? with
      | some query => Except.ok query
      | none => t.exprQuery) = .ok q) :
    server.accepts row q = server.isTrue (t.meaning server row) := by
  cases hquery : t.query? with
  | some query =>
    rw [hquery] at h
    cases h
    exact accepts_query lawful t ordinary fits hquery
  | none =>
    rw [hquery] at h
    simp only [exprQuery, bind_eq_ok, pure_eq_ok] at h
    obtain ⟨e, he, rfl⟩ := h
    rw [Server.accepts_expr, evaluate_emit lawful t ordinary.paths he]

/-- Written conjuncts accept the rows for which all of them are true, if each accepts the rows
for which it is true. -/
theorem acceptsAll_written {ts : List Term} {queries : List Document}
    (each : ∀ t ∈ ts, ∀ q, (match t.query? with
      | some query => Except.ok query
      | none => t.exprQuery) = .ok q →
        server.accepts row q = server.isTrue (t.meaning server row))
    (h : ts.mapM (fun t => match t.query? with
      | some query => Except.ok query
      | none => t.exprQuery) = .ok queries) :
    server.acceptsAll row (queries.map Value.document) =
      ts.all fun t => server.isTrue (t.meaning server row) := by
  induction ts generalizing queries with
  | nil =>
    cases h
    rfl
  | cons t ts ih =>
    rw [List.mapM_cons] at h
    simp only [bind_eq_ok, pure_eq_ok] at h
    obtain ⟨q, hq, rest, hrest, rfl⟩ := h
    have first := each t List.mem_cons_self q hq
    have others := ih (fun u hu => each u (List.mem_cons_of_mem _ hu)) hrest
    rw [List.map_cons, Server.acceptsAll, first, others, List.all_cons]

/-- So do those of predicates that a row fits. -/
theorem acceptsAll_conjuncts (lawful : server.Lawful) {ts : List Term}
    {queries : List Document}
    (hts : ∀ t ∈ ts, t.IsOrdinary ∧ t.Fits server row)
    (h : ts.mapM (fun t => match t.query? with
      | some query => Except.ok query
      | none => t.exprQuery) = .ok queries) :
    server.acceptsAll row (queries.map Value.document) =
      ts.all fun t => server.isTrue (t.meaning server row) :=
  acceptsAll_written
    (fun t ht _ hq => accepts_conjunct lawful (hts t ht).1 (hts t ht).2 hq) h

/-- A filter is its only conjunct, or joins its conjuncts. -/
theorem filterQuery_cases {t : Term} {q : Document} (h : t.filterQuery = .ok q) :
    ∃ conjuncts, (t.chain .and).mapM (fun t => match t.query? with
        | some query => Except.ok query
        | none => t.exprQuery) = .ok conjuncts ∧
      (conjuncts = [q] ∨ q = [("$and", .array (conjuncts.map .document))]) := by
  simp only [filterQuery, bind_eq_ok] at h
  obtain ⟨conjuncts, hconjuncts, h⟩ := h
  refine ⟨conjuncts, hconjuncts, ?_⟩
  rcases conjuncts with _ | ⟨single, _ | ⟨second, rest⟩⟩
  · cases h
    exact .inr rfl
  · cases h
    exact .inl rfl
  · cases h
    exact .inr rfl

/-- **Filters in the query language agree with expressions.** For a row that fits the
predicate, the filter that a predicate is written as accepts the row if and only if the
predicate is true for it. The comparison is with the same predicate under `$expr`: what no
filter language says, such as arithmetic, conditionals, sizes and sub-queries, is written as an
expression on both sides and means what the server evaluates it to (`Term.meaning`). -/
theorem accepts_filterQuery (lawful : server.Lawful) {t : Term} {q : Document}
    (ordinary : t.IsOrdinary) (fits : t.Fits server row) (h : t.filterQuery = .ok q) :
    server.accepts row q = server.isTrue (t.meaning server row) := by
  simp only [filterQuery, bind_eq_ok] at h
  obtain ⟨conjuncts, hconjuncts, h⟩ := h
  have all_ordinary := forall_chain_and ordinary fun left right both =>
    ⟨both.child (by simp [children]), both.child (by simp [children])⟩
  have all_fit := forall_chain_and fits fun left right both => by
    simpa [Fits, BinaryOp.isComparison, BinaryOp.isConnective] using both
  have accepted := acceptsAll_conjuncts lawful
    (fun u hu => ⟨all_ordinary u hu, all_fit u hu⟩) hconjuncts
  rw [all_chain_and lawful] at accepted
  split at h
  · cases h
    simpa [Server.acceptsAll] using accepted
  · cases h
    rw [Server.accepts_and, accepted]

end Term

/-! ### A filter with both kinds of conjuncts -/

/-- The number that orders integers and truth values. -/
def Value.rank : Value → Int
  | .int32 n => n.toInt
  | .int64 n => n.toInt
  | .bool true => 1
  | _ => 0

/-- A server for documents of integers and truth values. -/
def Server.ofRanks : Server where
  within a b := compare a.rank b.rank
  truth v := v.rank != 0
  readArray _ _ := none
  reachArray _ _ := []
  meetsPattern _ _ := false
  meetsOther _ _ _ := false
  other _ _ := none

theorem Server.lawful_ofRanks : Server.ofRanks.Lawful where
  swap a b := Int.compare_swap a.rank b.rank
  within_bool a b := by cases a <;> cases b <;> rfl
  truth_bool b := by cases b <;> rfl
  truth_null := rfl

/-- Whether the age is no less than 18, the constant on the left, and the score is less
than 3. -/
def scorePredicate : Term :=
  .binary .and (.binary .lte (.int32 18) (.field (.field "age") .int32))
    (.binary .lt (.field (.field "score") .int32) (.int32 3))

theorem scorePredicate_filter :
    ∃ q, scorePredicate.filterQuery = .ok q ∧
      Server.ofRanks.accepts (.document [("age", .int32 20)]) q =
        Server.ofRanks.isTrue
          (scorePredicate.meaning .ofRanks (.document [("age", .int32 20)])) := by
  refine ⟨_, rfl, Term.accepts_filterQuery Server.lawful_ofRanks ⟨?_, ?_⟩ ?_ rfl⟩
  · intro path codec h
    simp only [scorePredicate, Term.subterms, Term.int32, List.cons_append, List.nil_append,
      List.mem_cons, List.not_mem_nil, reduceCtorEq, false_or, or_false, Term.field.injEq] at h
    rcases h with ⟨rfl, _⟩ | ⟨rfl, _⟩ <;> simp [FieldPath.IsPlain, FieldPath.field]
  · intro v codec h
    simp only [scorePredicate, Term.subterms, Term.int32, List.cons_append, List.nil_append,
      List.mem_cons, List.not_mem_nil, reduceCtorEq, false_or, or_false, Term.const.injEq] at h
    rcases h with ⟨rfl, _⟩ | ⟨rfl, _⟩ <;> rfl
  · refine ⟨fun _ => ⟨?_, .inr rfl⟩, fun _ => ⟨?_, trivial⟩⟩
    · intro v hv
      obtain rfl : Value.int32 20 = v := by simpa [Document.get?] using hv
      trivial
    · intro v hv
      simp [Document.get?] at hv

end QueryPipeline
