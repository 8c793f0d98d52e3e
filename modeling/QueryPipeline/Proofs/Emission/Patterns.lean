import QueryPipeline.Proofs.Binding.Clauses
import QueryPipeline.Proofs.Emission.Leaves
import QueryPipeline.Proofs.Grouping.Ungrouped

/-!
Patterns in filters. A regular expression that a query gives for a path, or as an item of a
list that the path is to be in, is matched and not compared. Equality with a regular
expression is written so that it is compared; a list is written as it is, so membership in a
list that has one becomes a match. Wherever the query language is used for no such list,
nothing in a filter is matched (`Term.filterQuery_matches_iff`).
-/

namespace QueryPipeline

/-! ### What a query matches -/

namespace Value

/-- Whether the value is a regular expression. -/
def isPattern : Value → Bool
  | .regex _ _ => true
  | _ => false

/-- Whether what a query says of a path is a pattern, or a list with a pattern in it. -/
def isPatternCondition : Value → Bool
  | .regex _ _ => true
  | .document [("$in", .array items)] => items.any isPattern
  | _ => false

end Value

namespace Document

mutual
/-- Whether a query gives a pattern to match, in one of its parts. -/
def readsPattern : Document → Bool
  | [] => false
  | (name, v) :: rest => partReadsPattern name v || readsPattern rest

/-- Expressions compare values only. -/
def partReadsPattern (name : String) : Value → Bool
  | .array queries =>
    match name with
    | "$and" | "$or" | "$nor" => anyReadsPattern queries
    | _ => false
  | v =>
    match name with
    | "$expr" => false
    | _ => v.isPatternCondition

def anyReadsPattern : List Value → Bool
  | [] => false
  | .document query :: rest => readsPattern query || anyReadsPattern rest
  | _ :: rest => anyReadsPattern rest
end

theorem anyReadsPattern_append (queries more : List Value) :
    anyReadsPattern (queries ++ more) =
      (anyReadsPattern queries || anyReadsPattern more) := by
  induction queries with
  | nil => rfl
  | cons q queries ih =>
    cases q with
    | document query => simp only [List.cons_append, anyReadsPattern, ih, Bool.or_assoc]
    | _ => simpa only [List.cons_append, anyReadsPattern] using ih

theorem readsPattern_connective {op : BinaryOp} (connective : op.isConnective = true)
    (queries : List Value) :
    readsPattern [(op.emit, .array queries)] = anyReadsPattern queries := by
  cases op with
  | and | or => simp [readsPattern, partReadsPattern, BinaryOp.emit]
  | _ => cases connective

theorem readsPattern_nor (query : Document) :
    readsPattern [("$nor", .array [.document query])] = readsPattern query := by
  simp [readsPattern, partReadsPattern, anyReadsPattern]

theorem readsPattern_expr (e : Value) : readsPattern [("$expr", e)] = false := by
  cases e <;> simp [readsPattern, partReadsPattern]

/-- What a query says of a path is all that it can give to match. -/
theorem readsPattern_path {name : String} (h : name.toList.head? ≠ some '$') (v : Value) :
    readsPattern [(name, v)] = v.isPatternCondition := by
  have isOperator {name' : String} (h' : name'.toList.head? = some '$') : name ≠ name' := by
    rintro rfl
    exact h h'
  rw [readsPattern, readsPattern, Bool.or_false]
  unfold partReadsPattern
  split
  · split
    · exact absurd rfl (isOperator rfl)
    · exact absurd rfl (isOperator rfl)
    · exact absurd rfl (isOperator rfl)
    · rfl
  · split
    · exact absurd rfl (isOperator rfl)
    · rfl

end Document

/-! ### Patterns and the server -/

namespace Server

/-- The server with another way to match patterns. -/
def matching (server : Server) (meetsPattern : Value → Option Value → Bool) : Server :=
  { server with meetsPattern }

variable {server : Server} {meetsPattern : Value → Option Value → Bool} {row : Value}

theorem evaluate_argument {name : String} {argument : Value}
    (notArray : ∀ arguments, argument = .array arguments → False) :
    server.evaluate row (.document [(name, argument)]) =
      if name = "$literal" then some argument
      else server.other row (.document [(name, argument)]) := by
  rw [evaluate]
  exact notArray

theorem evaluate_unread {fields : Document}
    (noArguments : ∀ name arguments, fields = [(name, .array arguments)] → False)
    (noArgument : ∀ name argument, fields = [(name, argument)] → False) :
    server.evaluate row (.document fields) = server.other row (.document fields) := by
  rw [evaluate]
  · exact noArguments
  · exact noArgument

/-- Expressions match nothing. -/
theorem evaluate_matching (e : Value) :
    (server.matching meetsPattern).evaluate row e = server.evaluate row e := by
  refine evaluate.induct
    (fun e => (server.matching meetsPattern).evaluate row e = server.evaluate row e)
    (fun es => (server.matching meetsPattern).evaluateAll row es = server.evaluateAll row es)
    ?_ ?_ ?_ ?_ ?_ ?_ ?_ ?_ ?_ ?_ e
  · intro text
    rfl
  · intro arguments
    simp only [evaluate, if_true]
  · intro name arguments notLiteral ih
    simp only [evaluate, if_neg notLiteral, ih]
    rfl
  · intro argument notArray
    rw [evaluate_argument notArray, evaluate_argument notArray]
    rfl
  · intro name argument notArray notLiteral
    rw [evaluate_argument notArray, evaluate_argument notArray]
    rfl
  · intro fields noArguments noArgument
    rw [evaluate_unread noArguments noArgument, evaluate_unread noArguments noArgument]
    rfl
  · intro items
    rfl
  · intro v _ _ _ _ _
    simp only [evaluate]
  · rfl
  · intro e rest he hrest
    simp only [evaluateAll, he, hrest]

theorem reach_matching (names : List String) (v : Value) :
    (server.matching meetsPattern).reach names v = server.reach names v := by
  induction names generalizing v with
  | nil => cases v <;> rfl
  | cons name names ih =>
    cases v with
    | document fields =>
      simp only [reach]
      cases Document.get? name fields with
      | none => rfl
      | some w => exact ih w
    | _ => rfl

theorem meetsItem_matching {item : Value} (h : item.isPattern = false) :
    (server.matching meetsPattern).meetsItem item = server.meetsItem item := by
  funext v
  cases item with
  | regex pattern options => cases h
  | _ => rfl

theorem meets_matching {name : String} {v : Value}
    (h : (Value.document [(name, v)]).isPatternCondition = false)
    (values : List (Option Value)) :
    (server.matching meetsPattern).meets values name v = server.meets values name v := by
  unfold meets
  split
  · rfl
  · rfl
  · rfl
  · rfl
  · rename_i items
    simp only [Value.isPatternCondition, List.any_eq_false, Bool.not_eq_true] at h
    rw [Bool.eq_iff_iff, List.any_eq_true, List.any_eq_true]
    refine exists_congr fun item => and_congr_right fun hitem => ?_
    rw [meetsItem_matching (h item hitem)]
  · rfl

/-- A condition without patterns is met whatever patterns match. -/
theorem meetsCondition_matching {condition : Value} (h : condition.isPatternCondition = false)
    (values : List (Option Value)) :
    (server.matching meetsPattern).meetsCondition values condition =
      server.meetsCondition values condition := by
  unfold meetsCondition
  split
  · rename_i name v
    simp only [meets_matching h]
    rfl
  · have noPattern : condition.isPattern = false := by
      cases condition with
      | regex pattern options => cases h
      | _ => rfl
    rw [meetsItem_matching noPattern]

/-- A condition on a path is looked at where it is no operator. -/
theorem acceptsPart_matching_of_no_array {name : String} {v : Value}
    (notArray : ∀ queries, v = .array queries → False)
    (h : Document.partReadsPattern name v = false) :
    (server.matching meetsPattern).acceptsPart row name v = server.acceptsPart row name v := by
  unfold acceptsPart
  unfold Document.partReadsPattern at h
  split at h
  · exact absurd rfl (notArray _)
  · split at h
    · simp only [evaluate_matching]
      rfl
    · rename_i notExpr
      simp only [meetsPath, reach_matching, meetsCondition_matching h]

mutual
/-- **What a query accepts does not depend on what patterns match**, if it gives none. -/
theorem accepts_matching : (query : Document) → query.readsPattern = false →
    (server.matching meetsPattern).accepts row query = server.accepts row query
  | [], _ => rfl
  | (name, v) :: rest, h => by
      rw [Document.readsPattern, Bool.or_eq_false_iff] at h
      rw [accepts, accepts, acceptsPart_matching name v h.1, accepts_matching rest h.2]

theorem acceptsPart_matching (name : String) (v : Value)
    (h : Document.partReadsPattern name v = false) :
    (server.matching meetsPattern).acceptsPart row name v = server.acceptsPart row name v := by
  cases v with
  | array queries =>
    unfold acceptsPart
    simp only [Document.partReadsPattern] at h
    split
    · exact acceptsAll_matching queries h
    · exact acceptsAny_matching queries h
    · rw [acceptsAny_matching queries h]
    · rw [evaluate_matching]
      rfl
    · simp only [meetsPath, reach_matching]
      rw [meetsCondition_matching rfl]
  | _ => exact acceptsPart_matching_of_no_array nofun h

theorem acceptsAll_matching : (queries : List Value) →
    Document.anyReadsPattern queries = false →
      (server.matching meetsPattern).acceptsAll row queries = server.acceptsAll row queries
  | [], _ => rfl
  | q :: rest, h => by
      cases q with
      | document query =>
        rw [Document.anyReadsPattern, Bool.or_eq_false_iff] at h
        rw [acceptsAll, acceptsAll, accepts_matching query h.1, acceptsAll_matching rest h.2]
      | _ => simp only [acceptsAll]

theorem acceptsAny_matching : (queries : List Value) →
    Document.anyReadsPattern queries = false →
      (server.matching meetsPattern).acceptsAny row queries = server.acceptsAny row queries
  | [], _ => rfl
  | q :: rest, h => by
      cases q with
      | document query =>
        rw [Document.anyReadsPattern, Bool.or_eq_false_iff] at h
        rw [acceptsAny, acceptsAny, accepts_matching query h.1, acceptsAny_matching rest h.2]
      | _ =>
        simp only [Document.anyReadsPattern] at h
        simpa only [acceptsAny] using acceptsAny_matching rest h
end

end Server

/-! ### Predicates -/

/-- The condition that a comparison puts on a field compares. -/
theorem isPatternCondition_comparisonQuery {op : BinaryOp} {v condition : Value}
    (h : comparisonQuery? op v = some condition) : condition.isPatternCondition = false := by
  obtain ⟨-, form⟩ := comparisonQuery?_cases h
  rcases form with ⟨rfl, rfl, noDocument, noPattern⟩ | ⟨rfl, rfl⟩ | ⟨rfl, rfl⟩ | ⟨rfl, rfl⟩ |
    ⟨rfl, rfl⟩
  · cases condition with
    | document fields => exact (noDocument fields rfl).elim
    | regex pattern options => exact (noPattern pattern options rfl).elim
    | _ => rfl
  all_goals simp [Value.operator, Value.isPatternCondition]

namespace Term

/-- Whether the term tests that a field is in a list with a pattern in it. -/
def searchesPattern : Term → Bool
  | .contained (.field _ _) (.const (.array items) _) => items.any Value.isPattern
  | _ => false

/-- No path below the term is written as an operator is. -/
def NamesNoOperator (t : Term) : Prop :=
  ∀ path codec, .field path codec ∈ t.subterms → hasNoSigil path.dotted

variable {t u : Term} {q : Document}

theorem NamesNoOperator.child (h : t.NamesNoOperator) (hu : u ∈ t.children) :
    u.NamesNoOperator :=
  fun path codec hmem => h path codec (mem_subterms_of_child hu hmem)

/-- A query for a field matches if its condition does. -/
theorem readsPattern_field {path : FieldPath} {codec : Codec} {field : String}
    (names : t.NamesNoOperator) (hmem : .field path codec ∈ t.subterms)
    (hfield : path.query? = some field) (condition : Value) :
    Document.readsPattern [(field, condition)] = condition.isPatternCondition := by
  unfold FieldPath.query? at hfield
  split at hfield
  · cases hfield
    exact Document.readsPattern_path (bne_iff_ne.mp (names path codec hmem)) condition
  · cases hfield

/-- A test matches if and only if it is one of membership in a list with a pattern. -/
theorem readsPattern_test (names : t.NamesNoOperator) (single : t.isJoined = false)
    (h : t.query? = some q) : q.readsPattern = t.searchesPattern := by
  rcases query?_cases single h with
    ⟨op, path, codec, v, field, condition, compares, hfield, hcondition, rfl⟩ |
    ⟨path, codec, field, rfl, -, hfield, rfl⟩ |
    ⟨path, codec, items, codec', field, rfl, hfield, -, rfl⟩
  · have below : .field path codec ∈ t.subterms :=
      mem_subterms_of_child compares.field_mem (mem_subterms_self _)
    rw [readsPattern_field names below hfield, isPatternCondition_comparisonQuery hcondition]
    cases compares <;> rfl
  · exact readsPattern_field names (mem_subterms_self _) hfield _
  · have below : .field path codec ∈
        (Term.contained (.field path codec) (.const (.array items) codec')).subterms := by
      simp [subterms]
    rw [readsPattern_field names below hfield]
    simp [searchesPattern, Value.operator, Value.isPatternCondition]

/-- What a query adds to a chain matches if the query does. -/
theorem anyReadsPattern_queryOperands {op : BinaryOp} (connective : op.isConnective = true)
    (h : t.query? = some q) :
    Document.anyReadsPattern (t.queryOperands op q) = q.readsPattern := by
  rcases queryOperands_query op connective h with single | ⟨queries, rfl, hqueries⟩
  · simp [single, Document.anyReadsPattern]
  · rw [hqueries, Document.readsPattern_connective connective]

/-- **A query matches if and only if it tests membership in a list with a pattern.** -/
theorem readsPattern_query (names : t.NamesNoOperator) (h : t.query? = some q) :
    q.readsPattern = t.leaves.any searchesPattern := by
  induction t using leavesInduction generalizing q with
  | connective op left right joins left_ih right_ih =>
    obtain ⟨l, r, hl, hr, rfl⟩ := query?_connective joins h
    have left_reads := left_ih (names.child (by simp [children])) hl
    have right_reads := right_ih (names.child (by simp [children])) hr
    rw [Document.readsPattern_connective joins, Document.anyReadsPattern_append,
      anyReadsPattern_queryOperands joins hl, anyReadsPattern_queryOperands joins hr,
      left_reads, right_reads, leaves_connective joins, List.any_append]
  | negation operand ih =>
    obtain ⟨query, hquery, rfl⟩ := query?_not h
    rw [Document.readsPattern_nor]
    exact ih (names.child (by simp [children])) hquery
  | single t single =>
    rw [readsPattern_test names single h, leaves_of_single single, List.any_cons,
      List.any_nil, Bool.or_false]

/-- A conjunct that is left an expression matches nothing. -/
theorem readsPattern_conjunct (names : t.NamesNoOperator)
    (h : (match t.query? with
      | some query => Except.ok query
      | none => t.exprQuery) = .ok q) :
    q.readsPattern = (t.query?.isSome && t.leaves.any searchesPattern) := by
  cases hquery : t.query? with
  | some query =>
    rw [hquery] at h
    cases h
    simpa using readsPattern_query names hquery
  | none =>
    rw [hquery] at h
    simp only [exprQuery, bind_eq_ok, pure_eq_ok] at h
    obtain ⟨e, he, rfl⟩ := h
    rw [Document.readsPattern_expr]
    rfl

theorem anyReadsPattern_conjuncts {ts : List Term} {queries : List Document}
    (names : ∀ t ∈ ts, t.NamesNoOperator)
    (h : ts.mapM (fun t => match t.query? with
      | some query => Except.ok query
      | none => t.exprQuery) = .ok queries) :
    Document.anyReadsPattern (queries.map Value.document) =
      ts.any fun t => t.query?.isSome && t.leaves.any searchesPattern := by
  induction ts generalizing queries with
  | nil =>
    cases h
    rfl
  | cons t ts ih =>
    rw [List.mapM_cons] at h
    simp only [bind_eq_ok, pure_eq_ok] at h
    obtain ⟨q, hq, rest, hrest, rfl⟩ := h
    have first := readsPattern_conjunct (names t List.mem_cons_self) hq
    have others := ih (fun u hu => names u (List.mem_cons_of_mem _ hu)) hrest
    rw [List.map_cons, Document.anyReadsPattern, first, others, List.any_cons]

/-- **What a filter matches.** A filter gives a pattern to match if and only if the query
language is used for a test of membership in a list with a pattern; equality with a pattern,
in either order and however it is joined to the rest, is compared or left an expression. A
filter that gives none accepts the same rows whatever patterns match. -/
theorem filterQuery_matches_iff (names : t.NamesNoOperator) (h : t.filterQuery = .ok q) :
    (q.readsPattern = true ↔ ∃ leaf ∈ t.queriedLeaves, leaf.searchesPattern = true) ∧
      ((∀ leaf ∈ t.queriedLeaves, leaf.searchesPattern = false) →
        ∀ (server : Server) meetsPattern row,
          (server.matching meetsPattern).accepts row q = server.accepts row q) := by
  have reads : q.readsPattern = t.queriedLeaves.any searchesPattern := by
    obtain ⟨conjuncts, hconjuncts, form⟩ := filterQuery_cases h
    have all_name := forall_chain_and names fun left right both =>
      ⟨both.child (by simp [children]), both.child (by simp [children])⟩
    rw [queriedLeaves, List.any_flatMap, List.any_filter,
      ← anyReadsPattern_conjuncts all_name hconjuncts]
    rcases form with rfl | rfl
    · simp [Document.anyReadsPattern]
    · exact Document.readsPattern_connective (rfl : BinaryOp.and.isConnective = true) _
  constructor
  · rw [reads, List.any_eq_true]
  · intro none server meetsPattern row
    refine Server.accepts_matching q ?_
    rw [reads, List.any_eq_false]
    simpa using none

end Term

/-! ### Two filters with a pattern -/

/-- Whether the name is not a pattern, written on the left, or the age is in a list. -/
def notThePattern : Term :=
  .unary .not (.binary .and
    (.binary .eq (.const (.regex "^a" "") .dynamic) (.field (.field "name") .string))
    (.contained (.field (.field "age") .int32)
      (.const (.array [.int32 7, .int32 44]) (.arrayOf .int32))))

/-- The filter that it is written as. -/
def notThePatternFilter : Document :=
  [("$nor", .array [.document [("$and", .array [
    .document [("name", .document [("$eq", .regex "^a" "")])],
    .document [("age", .document [("$in", .array [.int32 7, .int32 44])])]])]])]

theorem notThePattern_compares :
    notThePattern.filterQuery = .ok notThePatternFilter ∧
      notThePatternFilter.readsPattern = false ∧
      ∀ (server : Server) meetsPattern row,
        (server.matching meetsPattern).accepts row notThePatternFilter =
          server.accepts row notThePatternFilter := by
  have names : notThePattern.NamesNoOperator := by
    intro path codec h
    simp only [notThePattern, Term.subterms, List.cons_append, List.nil_append, List.mem_cons,
      List.not_mem_nil, reduceCtorEq, false_or, or_false, Term.field.injEq] at h
    rcases h with ⟨rfl, -⟩ | ⟨rfl, -⟩
    · decide
    · decide
  have written : notThePattern.filterQuery = .ok notThePatternFilter := rfl
  have unmatched : ∀ leaf ∈ notThePattern.queriedLeaves, leaf.searchesPattern = false := by
    decide
  exact ⟨written, rfl, (Term.filterQuery_matches_iff names written).2 unmatched⟩

/-- The people whose name is in a list, which holds a pattern. -/
def namedAsListed : Query where
  collection := "people"
  itemType := .document "Person"
  clauses := [
    ⟨"Queryable", "Where", [], [.lambda ["x"] (.call
      (.const (.array [.regex "^a" ""]) (.array .object))
      ⟨"Enumerable", "Contains", [], [.member (.param "x") "Name"]⟩)]⟩]

/-- What it asks of a person. -/
def nameIsListed : Term :=
  .contained (.field (.field "name") .string)
    (.const (.array [.regex "^a" ""]) (.arrayOf .dynamic))

/-- As it is bound, it filters by that. -/
def namedAsListedBound : Pipeline where
  stages := [.filter nameIsListed]
  projector := .root ((people.codec? (.document "Person")).getD .dynamic)

/-- A server that lets the pattern match any text. -/
def Server.matchingTexts : Server :=
  Server.ofRanks.matching fun _ v => match v with
    | some (.string _) => true
    | _ => false

/-- A name is not a pattern, so no name is in the list; but the list is written in the query
language, where the pattern matches. -/
theorem namedAsListed_matches :
    let ann : Value := .document [("name", .string "ann")]
    let written : Document := [("name", .document [("$in", .array [.regex "^a" ""])])]
    ∃ expression, namedAsListed.bound people = (.ok namedAsListedBound, {}) ∧
      nameIsListed.filterQuery = .ok written ∧ nameIsListed.exprQuery = .ok expression ∧
      (namedAsListed.compile people {}).map Command.pipeline =
        .ok [[("$match", .document written)]] ∧
      written.readsPattern = true ∧ expression.readsPattern = false ∧
      Server.matchingTexts.accepts ann written = true ∧
      Server.matchingTexts.accepts ann expression = false := by
  intro ann written
  have bound : namedAsListed.bound people = (.ok namedAsListedBound, {}) := rfl
  have compiled : (namedAsListed.compile people {}).map Command.pipeline =
      .ok [[("$match", .document written)]] :=
    Query.compile_of_no_group bound (by simp [namedAsListedBound, Stage.isGroup]) {}
  exact ⟨_, bound, rfl, rfl, compiled, rfl, rfl, rfl, rfl⟩

end QueryPipeline
