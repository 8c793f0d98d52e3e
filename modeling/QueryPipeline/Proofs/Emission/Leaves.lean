import QueryPipeline.Proofs.Emission.Filter

/-!
The tests of a filter. A predicate joins tests by and, or and not, and a conjunct that has a
written form in the query language has one for each of its tests. The languages join in the
same way, so a filter accepts the right rows if each test that is written in the query
language does.
-/

namespace QueryPipeline

namespace Term

/-- The tests that a predicate joins by and, or and not. -/
def leaves : Term → List Term
  | .binary op left right =>
    if op.isConnective then left.leaves ++ right.leaves else [.binary op left right]
  | .unary .not operand => operand.leaves
  | t => [t]

/-- Whether the term joins others as predicates are joined. -/
def isJoined : Term → Bool
  | .binary op _ _ => op.isConnective
  | .unary .not _ => true
  | _ => false

/-- What is not joined of others is a test itself. -/
theorem leaves_of_single {t : Term} (single : t.isJoined = false) : t.leaves = [t] := by
  cases t with
  | binary op left right =>
    rw [isJoined] at single
    rw [leaves, if_neg (by simp [single])]
  | unary op operand =>
    cases op with
    | not => cases single
    | negate => rfl
  | _ => rfl

theorem leaves_connective {op : BinaryOp} (connective : op.isConnective = true)
    (left right : Term) : (Term.binary op left right).leaves = left.leaves ++ right.leaves := by
  rw [leaves, if_pos connective]

/-- What tests have, and what and, or and not pass on, all predicates have. -/
@[elab_as_elim]
theorem leavesInduction {motive : Term → Prop}
    (connective : ∀ op left right, op.isConnective = true → motive left → motive right →
      motive (.binary op left right))
    (negation : ∀ operand, motive operand → motive (.unary .not operand))
    (single : ∀ t, t.isJoined = false → motive t) : (t : Term) → motive t
  | .binary op left right => by
      by_cases joins : op.isConnective = true
      · exact connective op left right joins
          (leavesInduction connective negation single left)
          (leavesInduction connective negation single right)
      · exact single _ (Bool.eq_false_iff.mpr joins)
  | .unary .not operand =>
      negation operand (leavesInduction connective negation single operand)
  | .const _ _ | .field _ _ | .document _ | .item _ _ _ | .accumulator _ _ _ _ _
  | .unary .negate _ | .cond _ _ _ | .filter _ _ _ | .map _ _ _ | .anyTrue _ | .allTrue _
  | .setOp _ _ | .size _ | .contained _ _ | .elemAt _ _ | .slice _ _ | .reduce _ _ _
  | .sortArray _ _ | .getField _ _ _ | .grouping _ _ _ _ _ => single _ rfl

/-- The tests that a filter writes in the query language: those of the conjuncts that have a
written form in it. -/
def queriedLeaves (t : Term) : List Term :=
  ((t.chain .and).filter fun conjunct => conjunct.query?.isSome).flatMap leaves

variable {server : Server} {row : Value} {t u : Term} {q : Document}

theorem mem_queriedLeaves : u ∈ t.queriedLeaves ↔
    ∃ conjunct ∈ t.chain .and, conjunct.query?.isSome ∧ u ∈ conjunct.leaves := by
  simp [queriedLeaves, and_assoc]

/-- The tests of a predicate are below it. -/
theorem mem_subterms_of_mem_leaves (h : u ∈ t.leaves) : u ∈ t.subterms := by
  induction t using leavesInduction with
  | connective op left right joins left_ih right_ih =>
    rw [leaves_connective joins] at h
    rcases List.mem_append.mp h with h | h
    · exact mem_subterms_of_child (by simp [children]) (left_ih h)
    · exact mem_subterms_of_child (by simp [children]) (right_ih h)
  | negation operand ih => exact mem_subterms_of_child (by simp [children]) (ih h)
  | single t single =>
    rw [leaves_of_single single] at h
    exact List.mem_singleton.mp h ▸ mem_subterms_self _

/-- The conjuncts of a predicate are below it. -/
theorem mem_subterms_of_mem_chain {op : BinaryOp} (h : u ∈ t.chain op) : u ∈ t.subterms := by
  fun_induction chain op t with
  | case1 left right ihleft ihright =>
    rcases List.mem_append.mp h with h | h
    · exact mem_subterms_of_child (by simp [children]) (ihleft h)
    · exact mem_subterms_of_child (by simp [children]) (ihright h)
  | case2 op' left right hne => exact List.mem_singleton.mp h ▸ mem_subterms_self _
  | case3 t hnot => exact List.mem_singleton.mp h ▸ mem_subterms_self _

/-! ### Tests in the query language -/

/-- A comparison of a field with a constant, as it is with the field on the left. -/
inductive Compares : Term → BinaryOp → FieldPath → Codec → Value → Prop
  | fieldFirst {op path codec v codec'} : op.isComparison = true →
      Compares (.binary op (.field path codec) (.const v codec')) op path codec v
  | constFirst {op path codec v codec'} : op.isComparison = true →
      Compares (.binary op (.const v codec') (.field path codec)) op.flip path codec v

/-- Tests are not joined of others. -/
theorem isJoined_of_mem_leaves (h : u ∈ t.leaves) : u.isJoined = false := by
  induction t using leavesInduction with
  | connective op left right joins left_ih right_ih =>
    rw [leaves_connective joins] at h
    exact (List.mem_append.mp h).elim left_ih right_ih
  | negation operand ih => exact ih h
  | single t single =>
    rw [leaves_of_single single] at h
    exact List.mem_singleton.mp h ▸ single

/-- A comparison is written as a condition on its field. -/
theorem comparison?_cases {op : BinaryOp} {left right : Term} (comparison : op.isComparison = true)
    (h : left.comparison? op right = some q) :
    ∃ op' path codec v field condition,
      (Term.binary op left right).Compares op' path codec v ∧ path.query? = some field ∧
        comparisonQuery? op' v = some condition ∧ q = [(field, condition)] := by
  unfold comparison? at h
  split at h
  · simp only [Option.bind_eq_bind, Option.bind_eq_some_iff, Option.pure_def,
      Option.some.injEq] at h
    obtain ⟨field, hfield, condition, hcondition, rfl⟩ := h
    exact ⟨_, _, _, _, field, condition, .fieldFirst comparison, hfield, hcondition, rfl⟩
  · simp only [Option.bind_eq_bind, Option.bind_eq_some_iff, Option.pure_def,
      Option.some.injEq] at h
    obtain ⟨field, hfield, condition, hcondition, rfl⟩ := h
    exact ⟨_, _, _, _, field, condition, .constFirst comparison, hfield, hcondition, rfl⟩
  · cases h

/-- What the query language says of one field: how the field compares with a constant, that
it is true, or that it is in a list. -/
theorem query?_cases (single : t.isJoined = false) (h : t.query? = some q) :
    (∃ op path codec v field condition, t.Compares op path codec v ∧
        path.query? = some field ∧ comparisonQuery? op v = some condition ∧
        q = [(field, condition)]) ∨
      (∃ path codec field, t = .field path codec ∧ codec.isBoolean = true ∧
        path.query? = some field ∧ q = [(field, .bool true)]) ∨
      ∃ path codec items codec' field,
        t = .contained (.field path codec) (.const (.array items) codec') ∧
        path.query? = some field ∧ items.any Value.isNull = false ∧
        q = [(field, .operator "$in" (.array items))] := by
  cases t with
  | binary op left right =>
    have noConnective : ¬ op.isConnective = true := by simpa [isJoined] using single
    rw [query?] at h
    split at h
    · exact .inl (comparison?_cases ‹_› h)
    · cases h
  | field path codec =>
    rw [query?] at h
    split at h
    · rename_i isBoolean
      obtain ⟨field, hfield, rfl⟩ := Option.map_eq_some_iff.mp h
      exact .inr (.inl ⟨path, codec, field, rfl, isBoolean, hfield, rfl⟩)
    · cases h
  | contained value array =>
    unfold query? at h
    split at h
    · contradiction
    · contradiction
    · contradiction
    · rename_i path codec items codec' heq
      obtain ⟨rfl, rfl⟩ := Term.contained.inj heq
      split at h
      · cases h
      · rename_i noNull
        obtain ⟨field, hfield, rfl⟩ := Option.map_eq_some_iff.mp h
        exact .inr (.inr ⟨path, codec, items, codec', field, rfl, hfield, by simpa using noNull,
          rfl⟩)
    · cases h
  | unary op operand =>
    cases op with
    | not => cases single
    | negate => cases h
  | _ => cases h

namespace Compares

variable {op : BinaryOp} {path : FieldPath} {codec : Codec} {v : Value}

theorem field_mem (h : t.Compares op path codec v) : .field path codec ∈ t.children := by
  cases h <;> simp [children]

theorem const_mem (h : t.Compares op path codec v) : ∃ codec', .const v codec' ∈ t.children := by
  cases h <;> simp [children]

/-- A comparison holds as it does with the field on the left. -/
theorem isTrue_meaning (h : t.Compares op path codec v) (lawful : server.Lawful) :
    server.isTrue (t.meaning server row) =
      op.answer (server.order ((Term.field path codec).meaning server row) (some v)) := by
  cases h with
  | fieldFirst comparison =>
    rw [meaning_comparison comparison]
    exact lawful.truth_bool _
  | constFirst comparison =>
    rw [meaning_comparison comparison, ← Server.answer_flip lawful comparison]
    exact lawful.truth_bool _

end Compares

/-! ### Filters -/

/-- The query of a negation. -/
theorem query?_not {operand : Term} (h : (Term.unary .not operand).query? = some q) :
    ∃ query, operand.query? = some query ∧ q = [("$nor", .array [.document query])] := by
  simp only [query?, Option.bind_eq_bind, Option.bind_eq_some_iff, Option.pure_def,
    Option.some.injEq] at h
  obtain ⟨query, hquery, rfl⟩ := h
  exact ⟨query, hquery, rfl⟩

/-- **A query accepts a row as its tests do.** -/
theorem accepts_query_of_leaves (lawful : server.Lawful)
    (tests : ∀ u ∈ t.leaves, ∀ q, u.query? = some q →
      server.accepts row q = server.isTrue (u.meaning server row))
    (h : t.query? = some q) : server.accepts row q = server.isTrue (t.meaning server row) := by
  induction t using leavesInduction generalizing q with
  | connective op left right joins left_ih right_ih =>
    obtain ⟨l, r, hl, hr, rfl⟩ := query?_connective joins h
    rw [leaves_connective joins] at tests
    have left_accepts := left_ih (fun u hu => tests u (List.mem_append_left _ hu)) hl
    have right_accepts := right_ih (fun u hu => tests u (List.mem_append_right _ hu)) hr
    exact accepts_connective lawful joins hl hr left_accepts right_accepts
  | negation operand ih =>
    obtain ⟨query, hquery, rfl⟩ := query?_not h
    rw [Server.accepts_nor, ih tests hquery, meaning]
    exact (lawful.truth_bool _).symm
  | single t single =>
    rw [leaves_of_single single] at tests
    exact tests t List.mem_cons_self q h

/-- An expression in a filter accepts the rows for which it is true. -/
theorem accepts_exprQuery (lawful : server.Lawful) (plain : t.HasPlainPaths)
    (h : t.exprQuery = .ok q) :
    server.accepts row q = server.isTrue (t.meaning server row) := by
  simp only [exprQuery, bind_eq_ok, pure_eq_ok] at h
  obtain ⟨e, he, rfl⟩ := h
  rw [Server.accepts_expr, evaluate_emit lawful t plain he]

/-- A conjunct accepts a row as its tests do, or is an expression. -/
theorem accepts_conjunct_of_leaves (lawful : server.Lawful) (plain : t.HasPlainPaths)
    (tests : t.query?.isSome → ∀ u ∈ t.leaves, ∀ q, u.query? = some q →
      server.accepts row q = server.isTrue (u.meaning server row))
    (h : (match t.query? with
      | some query => Except.ok query
      | none => t.exprQuery) = .ok q) :
    server.accepts row q = server.isTrue (t.meaning server row) := by
  cases hquery : t.query? with
  | some query =>
    rw [hquery] at h tests
    cases h
    exact accepts_query_of_leaves lawful (tests rfl) hquery
  | none =>
    rw [hquery] at h
    exact accepts_exprQuery lawful plain h

/-- **A filter accepts a row as the tests that it writes in the query language do.** -/
theorem accepts_filterQuery_of_leaves (lawful : server.Lawful) (plain : t.HasPlainPaths)
    (tests : ∀ u ∈ t.queriedLeaves, ∀ q, u.query? = some q →
      server.accepts row q = server.isTrue (u.meaning server row))
    (h : t.filterQuery = .ok q) :
    server.accepts row q = server.isTrue (t.meaning server row) := by
  obtain ⟨conjuncts, hconjuncts, form⟩ := filterQuery_cases h
  have accepted : server.acceptsAll row (conjuncts.map Value.document) =
      (t.chain .and).all fun conjunct => server.isTrue (conjunct.meaning server row) := by
    refine acceptsAll_written ?_ hconjuncts
    intro conjunct hconjunct q hq
    have below := mem_subterms_of_mem_chain hconjunct
    refine accepts_conjunct_of_leaves lawful
      (fun path codec hmem => plain path codec (mem_subterms_trans below hmem)) ?_ hq
    intro queried u hu
    exact tests u (mem_queriedLeaves.mpr ⟨conjunct, hconjunct, queried, hu⟩)
  rw [all_chain_and lawful] at accepted
  rcases form with rfl | rfl
  · simpa [Server.acceptsAll] using accepted
  · rw [Server.accepts_and, accepted]

end Term

end QueryPipeline
