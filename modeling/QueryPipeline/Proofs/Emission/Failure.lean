import QueryPipeline.Emission.Stage
import QueryPipeline.Proofs.Emission.Filter
import QueryPipeline.Proofs.Term.Sameness

/-!
Why terms, stages and pipelines cannot be written down. A term fails for a reason of its own
or for that of its first part that fails, so the reason can be told from the parts without
looking at what is written. In particular a predicate fails in the query language as it
fails as an expression: what skips the expression has one.
-/

namespace QueryPipeline

/-! ### Failures -/

section Failures

variable {ε α β : Type}

/-- Why a computation fails, if it does. -/
def failure? : Except ε α → Option ε
  | .ok _ => none
  | .error e => some e

@[simp] theorem failure?_pure (a : α) : failure? (pure a : Except ε α) = none := rfl

@[simp] theorem failure?_ok (a : α) : failure? (.ok a : Except ε α) = none := rfl

@[simp] theorem failure?_error (e : ε) : failure? (.error e : Except ε α) = some e := rfl

/-- Two steps, the second of which fails in the same way whatever the first one gives. -/
theorem failure?_bind {x : Except ε α} {f : α → Except ε β} {o : Option ε}
    (h : ∀ a, x = .ok a → failure? (f a) = o) : failure? (x >>= f) = (failure? x).or o := by
  cases x with
  | error e => rfl
  | ok a => exact h a rfl

/-- What is made of a value in the end does not fail. -/
@[simp] theorem failure?_bind_pure (x : Except ε α) (f : α → β) :
    (failure? do return f (← x)) = failure? x := by
  cases x <;> rfl

@[simp] theorem failure?_map (x : Except ε α) (f : α → β) :
    failure? (f <$> x) = failure? x := by
  cases x <;> rfl

/-- A list of steps fails as the first of them does that fails. -/
theorem failure?_mapM (f : α → Except ε β) (as : List α) :
    failure? (as.mapM f) = as.findSome? fun a => failure? (f a) := by
  induction as with
  | nil => rfl
  | cons a as ih =>
    rw [List.mapM_cons, List.findSome?_cons]
    cases f a with
    | error e => rfl
    | ok b =>
      simp only [failure?_ok]
      rw [← ih]
      cases as.mapM f <;> rfl

end Failures

/-! ### Terms -/

namespace Term

variable {scope : List String} {t u : Term}

/-- Why a term fails whatever its parts are. -/
def ownFailure? (scope : List String) : Term → Option EmitError
  | .field path _ => failure? (path.emit scope)
  | .item _ var _ => failure? ((FieldPath.ofVar var).emit scope)
  | .accumulator _ _ _ output _ => some (.unattachedAccumulator output)
  | .sortArray input keys => failure? (emitItemKeys input keys)
  | .grouping _ _ element _ _ => some (.unresolvedGroup element)
  | _ => none

/-- The variables in scope at each part that is written. -/
def partScopes (scope : List String) : Term → List (List String)
  | .filter _ var _ | .map _ var _ => [scope, var :: scope]
  | .item .. | .accumulator .. | .grouping .. => []
  | t => t.children.map fun _ => scope

theorem failure?_emitAll (ts : List Term) :
    failure? (emitAll scope ts) = ts.findSome? fun t => failure? (t.emit scope) := by
  induction ts with
  | nil => rfl
  | cons t ts ih =>
    rw [emitAll, List.findSome?_cons, ← ih]
    cases t.emit scope with
    | error e => rfl
    | ok v => cases emitAll scope ts <;> rfl

theorem failure?_emitFields (fields : List (String × Term)) :
    failure? (emitFields scope fields) =
      (fields.map Prod.snd).findSome? fun t => failure? (t.emit scope) := by
  induction fields with
  | nil => rfl
  | cons f fields ih =>
    obtain ⟨name, t⟩ := f
    rw [emitFields, List.map_cons, List.findSome?_cons, ← ih]
    cases t.emit scope with
    | error e => rfl
    | ok v => cases emitFields scope fields <;> rfl

/-- Parts that are all written in one scope. -/
theorem findSome?_zip_scope (ts : List Term) :
    ((ts.zip (ts.map fun _ => scope)).findSome? fun p => failure? (p.1.emit p.2)) =
      ts.findSome? fun t => failure? (t.emit scope) := by
  induction ts with
  | nil => rfl
  | cons t ts ih => rw [List.map_cons, List.zip_cons_cons, List.findSome?_cons,
      List.findSome?_cons, ih]

/-- **A term fails for a reason of its own or as its first part does that fails.** -/
theorem failure?_emit (t : Term) :
    failure? (t.emit scope) = (t.ownFailure? scope).or
      ((t.children.zip (t.partScopes scope)).findSome? fun p => failure? (p.1.emit p.2)) := by
  cases t with
  | const => rfl
  | field path c => cases h : path.emit scope <;> simp [emit, ownFailure?, children, h]
  | accumulator | grouping => rfl
  | item array var c =>
    cases h : (FieldPath.ofVar var).emit scope <;> simp [emit, ownFailure?, partScopes, h]
  | document fields =>
    simp only [emit, ownFailure?, children, partScopes, findSome?_zip_scope, Option.none_or]
    rw [failure?_bind_pure, failure?_emitFields]
  | setOp op arguments =>
    simp only [emit, ownFailure?, children, partScopes, findSome?_zip_scope, Option.none_or]
    rw [failure?_bind_pure, failure?_emitAll]
  | unary op operand =>
    simp only [ownFailure?, children, partScopes, findSome?_zip_scope, List.findSome?_cons]
    cases op <;> rw [emit] <;> cases operand.emit scope <;> rfl
  | anyTrue array | allTrue array | size array | slice array bounds | reduce _ array _
  | getField array _ _ =>
    simp only [emit, ownFailure?, children, partScopes, findSome?_zip_scope,
      List.findSome?_cons]
    cases array.emit scope <;> rfl
  | sortArray array keys =>
    simp only [emit, ownFailure?, children, partScopes, findSome?_zip_scope,
      List.findSome?_cons]
    cases emitItemKeys array keys <;> cases array.emit scope <;> rfl
  | binary op left right | contained left right | elemAt left right =>
    simp only [emit, ownFailure?, children, partScopes, findSome?_zip_scope,
      List.findSome?_cons]
    cases left.emit scope <;> cases right.emit scope <;> rfl
  | filter input var body | map input var body =>
    simp only [emit, ownFailure?, children, partScopes, List.zip_cons_cons,
      List.findSome?_cons]
    cases input.emit scope <;> cases body.emit (var :: scope) <;> rfl
  | cond test ifTrue ifFalse =>
    simp only [emit, ownFailure?, children, partScopes, findSome?_zip_scope,
      List.findSome?_cons]
    cases test.emit scope <;> cases ifTrue.emit scope <;> cases ifFalse.emit scope <;> rfl

/-- In every scope the terms both fail or both do not. What a failure is about may differ. -/
def FailsLike (t u : Term) : Prop :=
  ∀ scope, (failure? (t.emit scope)).isSome = (failure? (u.emit scope)).isSome

/-- Parts that fail alike, one by one, fail alike together. -/
theorem isSome_findSome?_of_failsLike {ts us : List Term} (h : List.Forall₂ FailsLike ts us)
    (scopes : List (List String)) :
    ((ts.zip scopes).findSome? fun p => failure? (p.1.emit p.2)).isSome =
      ((us.zip scopes).findSome? fun p => failure? (p.1.emit p.2)).isSome := by
  induction h generalizing scopes with
  | nil => rfl
  | @cons t u _ _ hpart _ ih =>
    cases scopes with
    | nil => rfl
    | cons s scopes =>
      have alike := hpart s
      simp only [List.zip_cons_cons, List.findSome?_cons]
      cases ht : failure? (t.emit s) <;> cases hu : failure? (u.emit s)
      · exact ih scopes
      · simp [ht, hu] at alike
      · simp [ht, hu] at alike
      · rfl

/-- Whether keys can be written does not depend on the array whose items they sort. -/
theorem isSome_failure?_emitItemKeys (input input' : Term) (keys : List ItemKey) :
    (failure? (emitItemKeys input keys)).isSome =
      (failure? (emitItemKeys input' keys)).isSome := by
  unfold emitItemKeys
  split
  · rfl
  · simp only [failure?_bind_pure, failure?_mapM]
    rw [Bool.eq_iff_iff, List.findSome?_isSome_iff, List.findSome?_isSome_iff]
    refine exists_congr fun k => and_congr_right fun _ => ?_
    cases k.path with
    | none => exact Iff.rfl
    | some path => exact Iff.rfl

/-- With other parts, a term still fails of its own if it did, and its parts are written in
the same scopes. -/
theorem failure_withChildren {parts : List Term} (h : parts.length = t.children.length) :
    ((t.withChildren parts).ownFailure? scope).isSome = (t.ownFailure? scope).isSome ∧
      (t.withChildren parts).partScopes scope = t.partScopes scope := by
  constructor
  · unfold withChildren
    split
    case h_17 => exact isSome_failure?_emitItemKeys _ _ _
    all_goals rfl
  · have counted : (parts.map fun _ => scope) = t.children.map fun _ => scope := by
      rw [List.map_const', List.map_const', h]
    cases t with
    | const | field => rfl
    | document fields =>
      rw [← children_withChildren h] at counted
      exact counted
    | setOp => exact counted
    | grouping group key element predicate distinct =>
      cases predicate with
      | none =>
        obtain ⟨_, _, rfl⟩ := List.length_eq_two.mp h
        rfl
      | some predicate =>
        obtain ⟨_, _, _, rfl⟩ := List.length_eq_three.mp h
        rfl
    | item | accumulator | unary | anyTrue | allTrue | size | slice | reduce | sortArray
    | getField =>
      obtain ⟨_, rfl⟩ := List.length_eq_one_iff.mp h
      rfl
    | binary | filter | map | contained | elemAt =>
      obtain ⟨_, _, rfl⟩ := List.length_eq_two.mp h
      rfl
    | cond =>
      obtain ⟨_, _, _, rfl⟩ := List.length_eq_three.mp h
      rfl

/-- Terms of one form fail alike if their parts do. -/
theorem failsLike_withChildren {ps qs : List Term} (hps : ps.length = t.children.length)
    (hqs : qs.length = t.children.length) (parts : List.Forall₂ FailsLike ps qs) :
    (t.withChildren ps).FailsLike (t.withChildren qs) := by
  intro scope
  rw [failure?_emit, failure?_emit, children_withChildren hps, children_withChildren hqs,
    Option.isSome_or, Option.isSome_or, (failure_withChildren hps).1,
    (failure_withChildren hqs).1, (failure_withChildren hps).2, (failure_withChildren hqs).2,
    isSome_findSome?_of_failsLike parts]

/-- Terms that are the same fail alike. -/
theorem failsLike_of_same (h : t.same u = true) : t.FailsLike u := by
  induction t using inductionOn generalizing u with
  | step t ih =>
  rcases same_parts h with ⟨v, w, codec, rfl, rfl, -⟩ | ⟨hu, parts⟩
  · exact fun _ => rfl
  · have hlength := parts.length_eq
    have alike : List.Forall₂ FailsLike t.children u.children :=
      List.forall₂_iff_zip.mpr ⟨hlength, fun hmem =>
        ih _ (List.of_mem_zip hmem).1 ((List.forall₂_iff_zip.mp parts).2 hmem)⟩
    rw [hu]
    conv => enter [1]; rw [← withChildren_children t]
    exact failsLike_withChildren rfl hlength.symm alike

/-! ### Predicates -/

theorem failure?_binary (op : BinaryOp) (left right : Term) :
    failure? ((Term.binary op left right).emit scope) =
      (failure? (left.emit scope)).or (failure? (right.emit scope)) := by
  rw [emit]
  cases left.emit scope <;> cases right.emit scope <;> rfl

/-- A chain fails as the first of its operands does that fails. -/
theorem findSome?_chain {op : BinaryOp} (t : Term) :
    ((t.chain op).findSome? fun u => failure? (u.emit scope)) = failure? (t.emit scope) := by
  by_cases h : ∃ left right, t = .binary op left right
  · obtain ⟨left, right, rfl⟩ := h
    rw [chain, if_pos rfl, List.findSome?_append, findSome?_chain left,
      findSome?_chain right, failure?_binary]
  · have single : t.chain op = [t] := by
      unfold chain
      split
      · rename_i op' left right
        exact if_neg fun same => h ⟨left, right, by rw [same]⟩
      · rfl
    rw [single, List.findSome?_cons]
    cases failure? (t.emit scope) <;> rfl

/-- A field of the row can always be written. -/
theorem failure?_field {path : FieldPath} {codec : Codec} {field : String}
    (h : path.query? = some field) : failure? ((Term.field path codec).emit scope) = none := by
  unfold FieldPath.query? at h
  split at h
  · rename_i isRowField
    obtain ⟨var, names⟩ := path
    cases var with
    | none => rfl
    | some var => cases isRowField
  · cases h

/-- A comparison in the query language compares a field of the row with a constant. -/
theorem failure?_comparison {op op' : BinaryOp} {left right : Term} {q : Document}
    (h : left.comparison? op right = some q) :
    failure? ((Term.binary op' left right).emit scope) = none := by
  rw [failure?_binary]
  unfold comparison? at h
  split at h
  · obtain ⟨field, hfield, -⟩ := Option.bind_eq_some_iff.mp h
    rw [failure?_field hfield]
    rfl
  · obtain ⟨field, hfield, -⟩ := Option.bind_eq_some_iff.mp h
    rw [failure?_field hfield]
    rfl
  · cases h

/-- What has a form in the query language has one as an expression. -/
theorem failure?_of_query? : (t : Term) → {q : Document} → t.query? = some q →
    failure? (t.emit scope) = none
  | .binary op left right, q, h => by
      by_cases comparison : op.isComparison = true
      · rw [query?, if_pos comparison] at h
        exact failure?_comparison h
      · by_cases connective : op.isConnective = true
        · obtain ⟨l, r, hl, hr, rfl⟩ := query?_connective connective h
          rw [failure?_binary, failure?_of_query? left hl, failure?_of_query? right hr]
          rfl
        · rw [query?, if_neg comparison, if_neg connective] at h
          cases h
  | .unary .not operand, q, h => by
      obtain ⟨query, hquery, -⟩ := Option.bind_eq_some_iff.mp h
      rw [emit, failure?_bind_pure, failure?_of_query? operand hquery]
  | .field path codec, q, h => by
      rw [query?] at h
      split at h
      · obtain ⟨field, hfield, -⟩ := Option.map_eq_some_iff.mp h
        exact failure?_field hfield
      · cases h
  | .contained value array, q, h => by
      unfold query? at h
      split at h
      · contradiction
      · contradiction
      · contradiction
      · rename_i path codec items codec' heq
        obtain ⟨rfl, rfl⟩ := Term.contained.inj heq
        split at h
        · cases h
        · obtain ⟨field, hfield, -⟩ := Option.map_eq_some_iff.mp h
          have written : failure? ((Term.field path codec).emit scope) = none :=
            failure?_field hfield
          rw [emit]
          revert written
          cases (Term.field path codec).emit scope with
          | error e =>
            intro failed
            cases failed
          | ok v => exact fun _ => rfl
      · cases h
  | .const _ _, _, h | .document _, _, h | .item _ _ _, _, h
  | .accumulator _ _ _ _ _, _, h | .unary .negate _, _, h | .cond _ _ _, _, h
  | .filter _ _ _, _, h | .map _ _ _, _, h | .anyTrue _, _, h | .allTrue _, _, h
  | .setOp _ _, _, h | .size _, _, h | .elemAt _ _, _, h | .slice _ _, _, h
  | .reduce _ _ _, _, h | .sortArray _ _, _, h | .getField _ _ _, _, h
  | .grouping _ _ _ _ _, _, h => by
      cases h

/-- **A predicate fails in the query language as it does as an expression.** -/
theorem failure?_filterQuery (t : Term) : failure? t.filterQuery = failure? t.exprQuery := by
  have joined : failure? t.filterQuery =
      (t.chain .and).findSome? fun u => failure? (u.emit []) := by
    rw [filterQuery, failure?_bind, failure?_mapM, Option.or_none]
    · refine congrArg (List.findSome? · (t.chain .and)) (funext fun u => ?_)
      cases hquery : u.query? with
      | none => exact failure?_bind_pure _ _
      | some query => exact (failure?_of_query? u hquery).symm
    · intro conjuncts _
      split <;> rfl
  rw [joined, findSome?_chain]
  exact (failure?_bind_pure _ _).symm

end Term

/-! ### Stages -/

/-- A group fails as its key does or as the first of its accumulators that fails. -/
theorem failure?_emitGroup (id : Term) (accumulators : List Accumulator) :
    failure? (emitGroup id accumulators) = (failure? (id.emit [])).or
      (accumulators.findSome? fun a => failure? (a.source.emit [])) := by
  rw [emitGroup, failure?_bind fun _ _ => failure?_bind_pure _ _, failure?_mapM]
  simp only [failure?_bind_pure]

namespace Stage

/-- A stage fails in the same way with the query language and without. -/
theorem failure?_emit (s : Stage) (ql ql' : Bool) :
    failure? (s.emit ql) = failure? (s.emit ql') := by
  cases s with
  | filter predicate =>
    have same (ql : Bool) : failure? ((filter predicate).emit ql) =
        failure? predicate.exprQuery := by
      cases ql with
      | false => exact failure?_bind_pure _ _
      | true => exact (failure?_bind_pure _ _).trans (Term.failure?_filterQuery predicate)
    rw [same, same]
  | _ => rfl

theorem failure?_emitAll (ss : List Stage) (ql : Bool) :
    failure? (emitAll ql ss) = ss.findSome? fun s => failure? (s.emit ql) :=
  failure?_mapM _ _

end Stage

end QueryPipeline
