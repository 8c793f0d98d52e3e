import QueryPipeline.Proofs.Binding.Sigils
import QueryPipeline.Proofs.Emission.Expression
import QueryPipeline.Proofs.Emission.Filter
import QueryPipeline.Proofs.Emission.Occurrences
import QueryPipeline.Proofs.Success
import QueryPipeline.Proofs.Term.References

/-!
Closed pipelines. A path from a variable is written only where a sub-query around it binds the
variable, and constants that could be taken for a path are marked as literal. So whatever is
written for a term without sigils refers to the variables that the term reads and to no others
(`Term.keepsTo_emit`): it is closed where the variables in scope are bound, and a stage without
sigils is closed where none is.
-/

namespace QueryPipeline

variable {rule : List String → String → Prop}

/-! ### Expressions -/

/-- A document has no other fields than those it was made of. -/
theorem Document.mem_of_mem_ofList {fields : Document} {f : String × Value}
    (h : f ∈ Document.ofList fields) : f ∈ fields := by
  have inserted {name : String} {v : Value} {d : Document} {f : String × Value}
      (hf : f ∈ d.insert name v) : f = (name, v) ∨ f ∈ d := by
    induction d with
    | nil => exact .inl (List.mem_singleton.mp hf)
    | cons g rest ih =>
      obtain ⟨k, w⟩ := g
      rw [insert] at hf
      split at hf
      · rename_i same
        rcases List.mem_cons.mp hf with rfl | hf
        · exact .inl (by rw [same])
        · exact .inr (List.mem_cons_of_mem _ hf)
      · rcases List.mem_cons.mp hf with rfl | hf
        · exact .inr List.mem_cons_self
        · exact (ih hf).imp_right (List.mem_cons_of_mem _)
  suffices folded : ∀ (d : Document), f ∈ fields.foldl (fun d f => d.insert f.1 f.2) d →
      f ∈ d ∨ f ∈ fields from (folded [] h).resolve_left List.not_mem_nil
  clear h
  induction fields with
  | nil => exact fun d hf => .inl hf
  | cons g rest ih =>
    intro d hf
    rcases ih _ hf with hf | hf
    · rcases inserted hf with rfl | hf
      · exact .inr List.mem_cons_self
      · exact .inl hf
    · exact .inr (List.mem_cons_of_mem _ hf)

theorem keepsTo_direction {bound : List String} (direction : Direction) :
    direction.emit.KeepsTo rule bound := by
  cases direction <;> exact allKeepTo_nil

/-- The keys of a sorted array are names and directions. -/
theorem keepsTo_emitItemKeys {bound : List String} {input : Term} {keys : List ItemKey}
    {v : Value} (names : ∀ k ∈ keys, ∀ path ∈ k.path, hasNoSigil path)
    (h : emitItemKeys input keys = .ok v) : v.KeepsTo rule bound := by
  unfold emitItemKeys at h
  split at h
  · cases h
    exact keepsTo_direction _
  · simp only [bind_eq_ok, pure_eq_ok] at h
    obtain ⟨fields, hfields, rfl⟩ := h
    refine Value.keepsTo_document fun f hf => ?_
    obtain ⟨k, hmem, hk⟩ := exists_of_mapM_eq_ok hfields f (Document.mem_of_mem_ofList hf)
    split at hk
    · rename_i path hpath
      cases hk
      exact ⟨names k hmem path hpath, keepsTo_direction _⟩
    · cases hk

namespace Term

variable {bound : List String} {v : Value} {t : Term}

/-- Members that are written one by one under their names keep to a rule in a document, if what
each of them is written as does. -/
theorem keepsTo_fields {write : Term → Except EmitError Value}
    {writeAll : List (String × Term) → Except EmitError Document}
    (nil : writeAll [] = .ok [])
    (cons : ∀ name t rest, writeAll ((name, t) :: rest) = do
      let v ← write t
      let fields ← writeAll rest
      return (name, v) :: fields)
    {fields : List (String × Term)} {d : Document} (names : ∀ f ∈ fields, hasNoSigil f.1)
    (kept : ∀ f ∈ fields, ∀ v, write f.2 = .ok v → v.KeepsTo rule bound)
    (h : writeAll fields = .ok d) : ∀ f ∈ d, hasNoSigil f.1 ∧ f.2.KeepsTo rule bound := by
  induction fields generalizing d with
  | nil =>
    cases nil.symm.trans h
    exact fun f hf => by cases hf
  | cons f rest ih =>
    obtain ⟨name, t⟩ := f
    rw [cons] at h
    simp only [bind_eq_ok, pure_eq_ok] at h
    obtain ⟨v, hv, d, hd, rfl⟩ := h
    have hrest := ih (fun f hf => names f (List.mem_cons_of_mem _ hf))
      (fun f hf => kept f (List.mem_cons_of_mem _ hf)) hd
    refine List.forall_mem_cons.mpr ⟨⟨names (name, t) List.mem_cons_self, ?_⟩, hrest⟩
    exact kept (name, t) List.mem_cons_self v hv

theorem keepsTo_emitAll {ts : List Term} {vs : List Value}
    (kept : ∀ t ∈ ts, ∀ v, t.emit bound = .ok v → v.KeepsTo rule bound)
    (h : emitAll bound ts = .ok vs) : ∀ v ∈ vs, v.KeepsTo rule bound := by
  induction ts generalizing vs with
  | nil =>
    cases h
    exact fun v hv => by cases hv
  | cons t ts ih =>
    simp only [emitAll, bind_eq_ok, pure_eq_ok] at h
    obtain ⟨v, hv, vs, hvs, rfl⟩ := h
    refine List.forall_mem_cons.mpr ⟨kept t List.mem_cons_self v hv, ?_⟩
    exact ih (fun t ht => kept t (List.mem_cons_of_mem _ ht)) hvs

/-- What a written term adds to a chain keeps to a rule if the term does. -/
theorem keepsTo_operands {op : BinaryOp} (h : t.emit bound = .ok v)
    (kept : v.KeepsTo rule bound) : ∀ w ∈ t.operands op v, w.KeepsTo rule bound := by
  rcases operands_emit op h with single | ⟨arguments, rfl, hargs⟩
  · rw [single]
    exact fun w hw => List.mem_singleton.mp hw ▸ kept
  · rw [hargs, ← Value.keepsTo_array]
    exact (Value.keepsTo_operator (by cases op <;> decide)).mp kept

theorem keepsTo_binary {op : BinaryOp} {left right : Term}
    (hleft : ∀ l, left.emit bound = .ok l → l.KeepsTo rule bound)
    (hright : ∀ r, right.emit bound = .ok r → r.KeepsTo rule bound)
    (h : (Term.binary op left right).emit bound = .ok v) : v.KeepsTo rule bound := by
  obtain ⟨l, r, hl, hr, rfl⟩ := emit_binary h
  refine Value.keepsTo_operator_array (by cases op <;> decide) ?_
  split
  · rw [List.forall_mem_append]
    exact ⟨keepsTo_operands hl (hleft l hl), keepsTo_operands hr (hright r hr)⟩
  · simp only [List.forall_mem_cons, List.not_mem_nil, false_imp_iff, implies_true, and_true]
    exact ⟨hleft l hl, hright r hr⟩

theorem keepsTo_bounds {bounds : Bounds} (kept : v.KeepsTo rule bound) :
    (bounds.emit v).KeepsTo rule bound := by
  have number (n : Nat) : (emitBound n).KeepsTo rule bound := allKeepTo_nil
  unfold Bounds.emit
  split
  · exact kept
  · exact Value.keepsTo_operator_array (by decide) (by simp [kept, number])
  · exact Value.keepsTo_operator_array (by decide) (by simp [kept, number])

/-- **What a term without sigils is written as refers to what the term reads.** If a rule
allows each variable that the term reads where it is bound, the value keeps to the rule. -/
theorem keepsTo_emit (t : Term) : ∀ {bound : List String} {v : Value}, t.SigilFree →
    t.KeepsTo (fun around var => var ∈ around → rule around var) bound →
      t.emit bound = .ok v → v.KeepsTo rule bound := by
  induction t using inductionOn with
  | step t ih =>
  intro bound v free reads h
  have own : ∀ var ∈ bound, t.ownVar? = some var → rule bound var :=
    fun _ isBound hvar => reads (.self hvar) isBound
  have kept (u : Term) {inside : List String} {w : Value}
      (hpart : (inside, u) ∈ t.readParts bound) (hw : u.emit inside = .ok w) :
      w.KeepsTo rule inside := by
    have hu := mem_children_of_readParts hpart
    exact ih u hu (free.child hu) (reads.part hpart) hw
  cases t with
  | const w c =>
    cases h
    exact Value.keepsTo_emit
  | field path c => exact Value.keepsTo_path free.own.1 own h
  | item array var c => exact Value.keepsTo_path (by simp [FieldPath.ofVar]) own h
  | document fields =>
    simp only [emit, bind_eq_ok, pure_eq_ok] at h
    obtain ⟨d, hd, rfl⟩ := h
    refine Value.keepsTo_document (keepsTo_fields rfl (fun _ _ _ => rfl) free.own ?_ hd)
    exact fun f hf v hv => kept f.2 (List.mem_map_of_mem (List.mem_map_of_mem hf)) hv
  | accumulator | grouping => cases h
  | binary op left right =>
    exact keepsTo_binary (fun _ => kept left (by simp [readParts, children]))
      (fun _ => kept right (by simp [readParts, children])) h
  | unary op operand =>
    have zero : (Value.int32 0).KeepsTo rule bound := allKeepTo_nil
    cases op with
    | not | negate =>
      simp only [emit, bind_eq_ok, pure_eq_ok] at h
      obtain ⟨e, he, rfl⟩ := h
      have hoperand := kept operand (by simp [readParts, children]) he
      exact Value.keepsTo_operator_array (by decide)
        (by simp [hoperand, zero])
  | cond test ifTrue ifFalse =>
    simp only [emit, bind_eq_ok, pure_eq_ok] at h
    obtain ⟨a, ha, b, hb, c, hc, rfl⟩ := h
    have htest := kept test (by simp [readParts, children]) ha
    have htrue := kept ifTrue (by simp [readParts, children]) hb
    have hfalse := kept ifFalse (by simp [readParts, children]) hc
    exact Value.keepsTo_operator_array (by decide)
      (by simp [htest, htrue, hfalse])
  | filter input var condition =>
    simp only [emit, bind_eq_ok, pure_eq_ok] at h
    obtain ⟨a, ha, b, hb, rfl⟩ := h
    exact Value.keepsTo_subquery (.inl rfl) (.inl rfl) free.own
      (kept input (by simp [readParts]) ha) (kept condition (by simp [readParts]) hb)
  | map input var body =>
    simp only [emit, bind_eq_ok, pure_eq_ok] at h
    obtain ⟨a, ha, b, hb, rfl⟩ := h
    exact Value.keepsTo_subquery (.inr rfl) (.inr rfl) free.own
      (kept input (by simp [readParts]) ha) (kept body (by simp [readParts]) hb)
  | anyTrue array | allTrue array =>
    simp only [emit, bind_eq_ok, pure_eq_ok] at h
    obtain ⟨e, he, rfl⟩ := h
    have harray := kept array (by simp [readParts, children]) he
    exact Value.keepsTo_operator_array (by decide) (by simp [harray])
  | setOp op arguments =>
    simp only [emit, bind_eq_ok, pure_eq_ok] at h
    obtain ⟨vs, hvs, rfl⟩ := h
    exact Value.keepsTo_operator_array (by cases op <;> decide)
      (keepsTo_emitAll (fun u hu _ => kept u (List.mem_map_of_mem hu)) hvs)
  | size array =>
    simp only [emit, bind_eq_ok, pure_eq_ok] at h
    obtain ⟨e, he, rfl⟩ := h
    exact (Value.keepsTo_operator (by decide)).mpr
      (kept array (by simp [readParts, children]) he)
  | contained value array =>
    simp only [emit, bind_eq_ok, pure_eq_ok] at h
    obtain ⟨a, ha, b, hb, rfl⟩ := h
    have hvalue := kept value (by simp [readParts, children]) ha
    have harray := kept array (by simp [readParts, children]) hb
    exact Value.keepsTo_operator_array (by decide)
      (by simp [hvalue, harray])
  | elemAt array position =>
    simp only [emit, bind_eq_ok, pure_eq_ok] at h
    obtain ⟨a, ha, b, hb, rfl⟩ := h
    have harray := kept array (by simp [readParts, children]) ha
    have hposition := kept position (by simp [readParts, children]) hb
    exact Value.keepsTo_operator_array (by decide)
      (by simp [harray, hposition])
  | slice array bounds =>
    simp only [emit, bind_eq_ok, pure_eq_ok] at h
    obtain ⟨e, he, rfl⟩ := h
    exact keepsTo_bounds (kept array (by simp [readParts, children]) he)
  | reduce op input c =>
    simp only [emit, bind_eq_ok, pure_eq_ok] at h
    obtain ⟨e, he, rfl⟩ := h
    exact (Value.keepsTo_operator (by cases op <;> decide)).mpr
      (kept input (by simp [readParts, children]) he)
  | sortArray input keys =>
    simp only [emit, bind_eq_ok, pure_eq_ok] at h
    obtain ⟨ks, hks, e, he, rfl⟩ := h
    have hkeys : ks.KeepsTo rule bound := keepsTo_emitItemKeys free.own hks
    have hinput := kept input (by simp [readParts, children]) he
    exact (Value.keepsTo_operator (by decide)).mpr
      (Value.keepsTo_document (by simp [hasNoSigil, hkeys, hinput]))
  | getField input name c =>
    simp only [emit, bind_eq_ok, pure_eq_ok] at h
    obtain ⟨e, he, rfl⟩ := h
    have hinput := kept input (by simp [readParts, children]) he
    have hname : (Value.string name).KeepsTo rule bound :=
      Value.keepsTo_string (textKeepsTo_of_hasNoSigil free.own.1)
    exact (Value.keepsTo_operator (by decide)).mpr
      (Value.keepsTo_document (by simp [hasNoSigil, hname, hinput]))

/-- What a term without sigils is written as is closed where the variables in scope are
bound. -/
theorem closed_emit {t : Term} (free : t.SigilFree) (h : t.emit bound = .ok v) :
    v.KeepsTo IsBound bound :=
  keepsTo_emit t free (fun _ _ _ isBound => isBound) h

end Term

/-! ### Filters -/

namespace Term

theorem hasNoSigil_query {path : FieldPath} {field : String}
    (names : ∀ name ∈ path.segments, hasNoSigil name) (h : path.query? = some field) :
    hasNoSigil field := by
  unfold FieldPath.query? at h
  split at h
  · cases h
    exact FieldPath.hasNoSigil_dotted names
  · cases h

/-- A condition on a field says nothing but the name of the field. -/
theorem closed_fieldQuery {path : FieldPath} {field : String} {condition : Value}
    (names : ∀ name ∈ path.segments, hasNoSigil name) (h : path.query? = some field) :
    AllKeepTo IsBound (Value.queryOccurrences [(field, condition)]) := by
  have named := hasNoSigil_query names h
  have noExpr : field ≠ "$expr" := ne_of_hasNoSigil named (by decide)
  have noOperator : ¬(field = "$and" ∨ field = "$or" ∨ field = "$nor") :=
    not_or.mpr ⟨ne_of_hasNoSigil named (by decide),
      not_or.mpr ⟨ne_of_hasNoSigil named (by decide), ne_of_hasNoSigil named (by decide)⟩⟩
  rw [Value.queryOccurrences, if_neg noExpr, if_neg noOperator, Value.queryOccurrences,
    List.append_nil, allKeepTo_text]
  exact ⟨textKeepsTo_of_hasNoSigil named, allKeepTo_nil⟩

theorem closed_comparison {op : BinaryOp} {left right : Term} {q : Document}
    (hleft : left.SigilFree) (hright : right.SigilFree)
    (h : left.comparison? op right = some q) : AllKeepTo IsBound (Value.queryOccurrences q) := by
  unfold comparison? at h
  split at h
  · simp only [Option.bind_eq_bind, Option.bind_eq_some_iff, Option.pure_def,
      Option.some.injEq] at h
    obtain ⟨field, hfield, condition, -, rfl⟩ := h
    exact closed_fieldQuery hleft.own.1 hfield
  · simp only [Option.bind_eq_bind, Option.bind_eq_some_iff, Option.pure_def,
      Option.some.injEq] at h
    obtain ⟨field, hfield, condition, -, rfl⟩ := h
    exact closed_fieldQuery hright.own.1 hfield
  · cases h

theorem clauseOccurrences_append (vs ws : List Value) :
    Value.clauseOccurrences (vs ++ ws) =
      Value.clauseOccurrences vs ++ Value.clauseOccurrences ws := by
  induction vs with
  | nil => rfl
  | cons v vs ih =>
    cases v <;> simp [Value.clauseOccurrences, ih]

/-- Joined queries are closed if each of them is. -/
theorem closed_logical {name : String} {queries : List Value}
    (h : name = "$and" ∨ name = "$or" ∨ name = "$nor") :
    AllKeepTo IsBound (Value.queryOccurrences [(name, .array queries)]) ↔
      AllKeepTo IsBound (Value.clauseOccurrences queries) := by
  have noExpr : name ≠ "$expr" := by
    rintro rfl
    revert h
    decide
  have closed : TextKeepsTo IsBound [] name := by
    refine textKeepsTo_of_operator ?_
    rcases h with rfl | rfl | rfl
    · decide
    · decide
    · decide
  rw [Value.queryOccurrences, if_neg noExpr, if_pos h, Value.queryOccurrences,
    List.append_nil, Value.logicalOccurrences, allKeepTo_text]
  exact and_iff_right closed

theorem emit_connective {op : BinaryOp} (connective : op.isConnective = true) :
    op.emit = "$and" ∨ op.emit = "$or" ∨ op.emit = "$nor" := by
  cases op with
  | and => exact .inl rfl
  | or => exact .inr (.inl rfl)
  | _ => cases connective

/-- What a query adds to a chain is closed if the query is. -/
theorem closed_queryOperands {op : BinaryOp} (connective : op.isConnective = true)
    {t : Term} {q : Document} (h : t.query? = some q)
    (closed : AllKeepTo IsBound (Value.queryOccurrences q)) :
    AllKeepTo IsBound (Value.clauseOccurrences (t.queryOperands op q)) := by
  rcases queryOperands_query op connective h with single | ⟨queries, rfl, hqueries⟩
  · rw [single, Value.clauseOccurrences, Value.clauseOccurrences, List.append_nil]
    exact closed
  · rw [hqueries]
    exact (closed_logical (emit_connective connective)).mp closed

/-- **A query is closed**: all its texts are names and operands. -/
theorem closed_query (t : Term) : ∀ {q : Document},
    t.SigilFree → t.query? = some q → AllKeepTo IsBound (Value.queryOccurrences q) := by
  induction t using inductionOn with
  | step t ih =>
  intro q free h
  cases t with
  | binary op left right =>
    have hleft := free.child (u := left) (by simp [children])
    have hright := free.child (u := right) (by simp [children])
    by_cases comparison : op.isComparison = true
    · rw [query?, if_pos comparison] at h
      exact closed_comparison hleft hright h
    · by_cases connective : op.isConnective = true
      · obtain ⟨l, r, hl, hr, rfl⟩ := query?_connective connective h
        rw [closed_logical (emit_connective connective), clauseOccurrences_append,
          allKeepTo_append]
        exact ⟨closed_queryOperands connective hl (ih left (by simp [children]) hleft hl),
          closed_queryOperands connective hr (ih right (by simp [children]) hright hr)⟩
      · rw [query?, if_neg comparison, if_neg connective] at h
        cases h
  | unary op operand =>
    cases op with
    | not =>
      simp only [query?, Option.bind_eq_bind, Option.bind_eq_some_iff, Option.pure_def,
        Option.some.injEq] at h
      obtain ⟨query, hquery, rfl⟩ := h
      rw [closed_logical (.inr (.inr rfl)), Value.clauseOccurrences, Value.clauseOccurrences,
        List.append_nil]
      exact ih operand (by simp [children]) (free.child (by simp [children])) hquery
    | negate => cases h
  | field path codec =>
    rw [query?] at h
    split at h
    · obtain ⟨field, hfield, rfl⟩ := Option.map_eq_some_iff.mp h
      exact closed_fieldQuery free.own.1 hfield
    · cases h
  | contained value array =>
    unfold query? at h
    split at h
    · contradiction
    · contradiction
    · contradiction
    · rename_i path codec items codec' heq
      obtain ⟨rfl, rfl⟩ := Term.contained.inj heq
      split at h
      · cases h
      · obtain ⟨field, hfield, rfl⟩ := Option.map_eq_some_iff.mp h
        exact closed_fieldQuery (free.child List.mem_cons_self).own.1 hfield
    · cases h
  | _ => cases h

/-- A predicate that is written as an expression. -/
theorem closed_exprQuery {t : Term} {q : Document} (free : t.SigilFree)
    (h : t.exprQuery = .ok q) : AllKeepTo IsBound (Value.queryOccurrences q) := by
  simp only [exprQuery, bind_eq_ok, pure_eq_ok] at h
  obtain ⟨v, hv, rfl⟩ := h
  rw [Value.queryOccurrences, if_pos rfl, Value.queryOccurrences, List.append_nil,
    allKeepTo_text]
  exact ⟨textKeepsTo_of_operator (by decide), closed_emit free hv⟩

theorem closed_clauses {queries : List Document}
    (closed : ∀ query ∈ queries, AllKeepTo IsBound (Value.queryOccurrences query)) :
    AllKeepTo IsBound (Value.clauseOccurrences (queries.map Value.document)) := by
  induction queries with
  | nil => exact allKeepTo_nil
  | cons query rest ih =>
    rw [List.map_cons, Value.clauseOccurrences, allKeepTo_append]
    exact ⟨closed query List.mem_cons_self,
      ih fun query hquery => closed query (List.mem_cons_of_mem _ hquery)⟩

/-- **A filter is closed.** -/
theorem closed_filterQuery {predicate : Term} {q : Document} (free : predicate.SigilFree)
    (h : predicate.filterQuery = .ok q) : AllKeepTo IsBound (Value.queryOccurrences q) := by
  have conjuncts : ∀ t ∈ predicate.chain .and, t.SigilFree :=
    forall_chain_and free fun left right hand =>
      ⟨hand.child (by simp [children]), hand.child (by simp [children])⟩
  simp only [filterQuery, bind_eq_ok] at h
  obtain ⟨queries, hqueries, h⟩ := h
  have closed : ∀ query ∈ queries, AllKeepTo IsBound (Value.queryOccurrences query) := by
    intro query hquery
    obtain ⟨t, ht, hwritten⟩ := exists_of_mapM_eq_ok hqueries query hquery
    split at hwritten
    · rename_i query' hquery'
      cases hwritten
      exact closed_query t (conjuncts t ht) hquery'
    · exact closed_exprQuery (conjuncts t ht) hwritten
  split at h
  · obtain rfl := pure_eq_ok.mp h
    exact closed _ List.mem_cons_self
  · obtain rfl := pure_eq_ok.mp h
    exact (closed_logical (.inl rfl)).mpr (closed_clauses closed)

/-! ### Projections -/

/-- A projected value is closed. -/
theorem closed_emitProjected (t : Term) : ∀ {v : Value},
    t.SigilFree → t.emitProjected = .ok v → v.KeepsTo IsBound [] := by
  induction t using inductionOn with
  | step t ih =>
  intro v free h
  cases t with
  | const w c =>
    cases h
    exact Value.keepsTo_marked
  | document fields =>
    simp only [emitProjected, bind_eq_ok, pure_eq_ok] at h
    obtain ⟨d, hd, rfl⟩ := h
    refine Value.keepsTo_document (keepsTo_fields rfl (fun _ _ _ => rfl) free.own ?_ hd)
    intro f hf v hv
    have hmem := List.mem_map_of_mem (f := Prod.snd) hf
    exact ih f.2 hmem (free.child hmem) hv
  | _ => exact closed_emit free h

theorem closed_emitProjection {selector : Term} {d : Document} (free : selector.SigilFree)
    (h : selector.emitProjection = .ok d) : (Value.document d).KeepsTo IsBound [] := by
  have projected {fields : Document}
      (closed : ∀ f ∈ fields, hasNoSigil f.1 ∧ f.2.KeepsTo IsBound []) :
      (Value.document (if Document.contains fields "_id" then fields
        else ("_id", .int32 0) :: fields)).KeepsTo IsBound [] := by
    split
    · exact Value.keepsTo_document closed
    · exact Value.keepsTo_document
        (List.forall_mem_cons.mpr ⟨⟨by decide, allKeepTo_nil⟩, closed⟩)
  unfold emitProjection at h
  split at h
  · simp only [bind_eq_ok, pure_eq_ok] at h
    obtain ⟨fields, hfields, rfl⟩ := h
    refine projected (keepsTo_fields rfl (fun _ _ _ => rfl) free.own ?_ hfields)
    intro f hf v hv
    exact closed_emitProjected f.2 (free.child (List.mem_map_of_mem hf)) hv
  · simp only [bind_eq_ok, pure_eq_ok] at h
    obtain ⟨v, hv, fields, rfl, rfl⟩ := h
    have closed := closed_emitProjected _ free hv
    exact projected (List.forall_mem_singleton.mpr
      ⟨(by decide : hasNoSigil valueField = true), closed⟩)

end Term

/-! ### Stages -/

theorem closed_emitGroup {id : Term} {accumulators : List Accumulator} {d : Document}
    (free : (Stage.group id accumulators).SigilFree)
    (h : emitGroup id accumulators = .ok d) : (Value.document d).KeepsTo IsBound [] := by
  simp only [emitGroup, bind_eq_ok, pure_eq_ok] at h
  obtain ⟨key, hkey, values, hvalues, rfl⟩ := h
  have closed : ∀ f ∈ ("_id", key) :: values, hasNoSigil f.1 ∧ f.2.KeepsTo IsBound [] := by
    refine List.forall_mem_cons.mpr ⟨⟨(by decide : hasNoSigil "_id" = true), ?_⟩, ?_⟩
    · exact Term.closed_emit (free.terms id (by simp [Stage.terms])) hkey
    · intro f hf
      obtain ⟨a, ha, hwritten⟩ := exists_of_mapM_eq_ok hvalues f hf
      simp only [bind_eq_ok, pure_eq_ok] at hwritten
      obtain ⟨source, hsource, rfl⟩ := hwritten
      have hterm : a.source ∈ (Stage.group id accumulators).terms :=
        List.mem_cons_of_mem _ (List.mem_map_of_mem ha)
      have hclosed := Term.closed_emit (free.terms _ hterm) hsource
      exact ⟨free.own a ha,
        (Value.keepsTo_operator (by cases a.kind <;> decide)).mpr hclosed⟩
  exact Value.keepsTo_document fun f hf => closed f (Document.mem_of_mem_ofList hf)

theorem closed_emitSortKeys {keys : List RowKey} {d : Document}
    (free : (Stage.sort keys).SigilFree) (h : emitSortKeys keys = .ok d) :
    (Value.document d).KeepsTo IsBound [] := by
  simp only [emitSortKeys, bind_eq_ok, pure_eq_ok] at h
  obtain ⟨fields, hfields, rfl⟩ := h
  refine Value.keepsTo_document fun f hf => ?_
  obtain ⟨k, hmem, hk⟩ := exists_of_mapM_eq_ok hfields f (Document.mem_of_mem_ofList hf)
  split at hk
  · rename_i path codec hkey
    split at hk
    · cases hk
      have names := (free.terms k.key (List.mem_map_of_mem hmem)).own
      rw [hkey] at names
      exact ⟨FieldPath.hasNoSigil_dotted names.1, keepsTo_direction _⟩
    · cases hk
  · cases hk

/-- What is written for a stage under an operator that is no filter. -/
theorem Document.closed_operator {name : String} {v : Value} (operator : name.toList[1]? ≠ some '$')
    (h : name ≠ "$match") (closed : v.KeepsTo IsBound []) :
    AllKeepTo IsBound (Document.occurrences [(name, v)]) := by
  simp only [Document.occurrences, List.flatMap_cons, List.flatMap_nil, List.append_nil,
    if_neg h, allKeepTo_text]
  exact ⟨textKeepsTo_of_operator operator, closed⟩

/-- What a stage without sigils is written as reads variables only where they are bound. -/
theorem Stage.keepsTo_emit {queryLanguage : Bool} {s : Stage} {d : Document}
    (free : s.SigilFree) (h : s.emit queryLanguage = .ok d) :
    AllKeepTo IsBound d.occurrences := by
  cases s with
  | filter predicate =>
    have hpredicate := free.terms predicate (by simp [Stage.terms])
    have filter {query : Document} (closed : AllKeepTo IsBound (Value.queryOccurrences query)) :
        AllKeepTo IsBound (Document.occurrences [("$match", .document query)]) := by
      simp only [Document.occurrences, List.flatMap_cons, List.flatMap_nil, List.append_nil,
        if_true, allKeepTo_text]
      exact ⟨textKeepsTo_of_operator (by decide), closed⟩
    simp only [Stage.emit] at h
    split at h
    all_goals
      simp only [bind_eq_ok, pure_eq_ok] at h
      obtain ⟨query, hquery, rfl⟩ := h
    · exact filter (Term.closed_filterQuery hpredicate hquery)
    · exact filter (Term.closed_exprQuery hpredicate hquery)
  | project selector =>
    simp only [Stage.emit, bind_eq_ok, pure_eq_ok] at h
    obtain ⟨fields, hfields, rfl⟩ := h
    have closed := Term.closed_emitProjection (free.terms selector (by simp [Stage.terms])) hfields
    exact Document.closed_operator (by decide) (by decide) closed
  | group id accumulators =>
    simp only [Stage.emit, bind_eq_ok, pure_eq_ok] at h
    obtain ⟨fields, hfields, rfl⟩ := h
    exact Document.closed_operator (by decide) (by decide) (closed_emitGroup free hfields)
  | sort keys =>
    simp only [Stage.emit, bind_eq_ok, pure_eq_ok] at h
    obtain ⟨fields, hfields, rfl⟩ := h
    exact Document.closed_operator (by decide) (by decide) (closed_emitSortKeys free hfields)
  | skip count | limit count =>
    cases h
    exact Document.closed_operator (by decide) (by decide) allKeepTo_nil
  | unwind path =>
    cases h
    have closed : TextKeepsTo IsBound [] path.text :=
      FieldPath.textKeepsTo_text free.own.1 free.own.2
    exact Document.closed_operator (by decide) (by decide) (Value.keepsTo_string closed)

/-- **A stage without sigils is written closed.** -/
theorem Stage.closed_emit {queryLanguage : Bool} {s : Stage} {d : Document}
    (free : s.SigilFree) (h : s.emit queryLanguage = .ok d) :
    ∀ x ∈ d.occurrences, x.isCarried = false → x.IsClosed :=
  fun x hx plain => Occurrence.keepsTo_isBound.mp (Stage.keepsTo_emit free h x hx plain)

end QueryPipeline
