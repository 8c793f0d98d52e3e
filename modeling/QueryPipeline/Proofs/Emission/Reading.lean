import QueryPipeline.Binding.Argument
import QueryPipeline.Proofs.Emission.Expression
import QueryPipeline.Proofs.Emission.Reader
import QueryPipeline.Proofs.Term.Children

/-!
What a term is written as is read as the term again (`Term.readsAs_emit`). Neither a constant nor
a name is taken for something else, wherever it stands, and nothing of the term is lost but what
`Term.canonical` forgets: how values are stored, and the spellings of one term that are written
alike. A path whose names have points is read as the names between them.
-/

namespace QueryPipeline

/-! ### Names -/

/-- A name that is taken for neither a path nor an operator. -/
def IsPlainName (name : String) : Prop :=
  name ≠ "" ∧ '.' ∉ name.toList ∧ name.toList.head? ≠ some '$'

/-- Whether a character is beyond ASCII. -/
def isWide (c : Char) : Bool := 127 < c.toNat

/-- Whether a name is one that the server takes for variables: a small letter and then
letters, digits and underscores, where characters beyond ASCII count as letters. -/
def isVariableName (name : String) : Bool :=
  match name.toList with
  | [] => false
  | c :: rest =>
    (c.isLower || isWide c) && rest.all fun c => c.isAlphanum || c == '_' || isWide c

/-- The names of variables are plain, and none of them is that of the row. -/
theorem isPlainName_of_isVariableName {name : String} (h : isVariableName name = true) :
    IsPlainName name ∧ name ≠ "ROOT" := by
  refine ⟨⟨?_, ?_, ?_⟩, ?_⟩
  · rintro rfl
    exact absurd h (by decide)
  · unfold isVariableName at h
    cases hchars : name.toList with
    | nil => simp
    | cons c rest =>
      simp only [hchars, Bool.and_eq_true, List.all_eq_true] at h
      intro hmem
      cases hmem with
      | head => exact absurd h.1 (by decide)
      | tail _ hmem => exact absurd (h.2 _ hmem) (by decide)
  · intro hhead
    unfold isVariableName at h
    cases hchars : name.toList with
    | nil => simp [hchars] at hhead
    | cons c rest =>
      obtain rfl : c = '$' := by simpa [hchars] using hhead
      simp only [hchars, Bool.and_eq_true] at h
      exact absurd h.1 (by decide)
  · rintro rfl
    exact absurd h (by decide)

/-! ### What the written form says -/

namespace Term

/-- Adds the operands of a chain of a logical operator to a chain. -/
def append (op : BinaryOp) (t : Term) : Term → Term
  | .binary op' left right =>
    if op' = op then .binary op (append op t left) right
    else .binary op t (.binary op' left right)
  | u => .binary op t u

mutual
/-- A term up to what its written form does not say: values are stored in any way, the
current item is its variable, chains of a logical operator are joined from the left, a
negation is a subtraction, distinct items are a union, and a slice has the bounds that
are written. -/
def canonical : Term → Term
  | .const v _ => .const v .dynamic
  | .field path _ => .field path .dynamic
  | .document fields => .document (canonicalFields fields)
  | .item _ var _ => .field (.ofVar var) .dynamic
  | .accumulator group kind source output _ =>
    .accumulator group kind source.canonical output .dynamic
  | .binary op left right =>
    if op.isConnective then append op left.canonical right.canonical
    else .binary op left.canonical right.canonical
  | .unary .not operand => .unary .not operand.canonical
  | .unary .negate operand => .binary .subtract (.const (.int32 0) .dynamic) operand.canonical
  | .cond test ifTrue ifFalse => .cond test.canonical ifTrue.canonical ifFalse.canonical
  | .filter input var condition => .filter input.canonical var condition.canonical
  | .map input var body => .map input.canonical var body.canonical
  | .anyTrue array => .anyTrue array.canonical
  | .allTrue array => .allTrue array.canonical
  | .setOp op arguments => .setOp op.written (canonicalAll arguments)
  | .size array => .size array.canonical
  | .contained value array => .contained value.canonical array.canonical
  | .elemAt array position => .elemAt array.canonical position.canonical
  | .slice array bounds =>
    match bounds.written? with
    | some bounds => .slice array.canonical bounds
    | none => array.canonical
  | .reduce op input _ => .reduce op input.canonical .dynamic
  | .sortArray input keys => .sortArray input.canonical keys
  | .getField input name _ => .getField input.canonical name .dynamic
  | .grouping group key element none distinct =>
    .grouping group key.canonical element.canonical none distinct
  | .grouping group key element (some predicate) distinct =>
    .grouping group key.canonical element.canonical (some predicate.canonical) distinct

def canonicalAll : List Term → List Term
  | [] => []
  | t :: ts => t.canonical :: canonicalAll ts

def canonicalFields : List (String × Term) → List (String × Term)
  | [] => []
  | (name, t) :: rest => (name, t.canonical) :: canonicalFields rest
end

/-- What is asked of a term itself, apart from its parts: its names are plain, the
variables that it reads are named as variables are, and an array is sorted by a path once
only. -/
def IsClear : Term → Prop
  | .field path _ => path.IsPlain ∧ ∀ var ∈ path.var, isVariableName var
  | .document fields => ∀ f ∈ fields, IsPlainName f.1
  | .item _ var _ => isVariableName var
  | .sortArray _ keys => (keys.map ItemKey.path).Nodup
  | .getField _ name _ => IsPlainName name
  | _ => True

theorem canonicalAll_eq (ts : List Term) : canonicalAll ts = ts.map canonical := by
  induction ts with
  | nil => rfl
  | cons t ts ih => rw [canonicalAll, ih, List.map_cons]

/-! ### Chains -/

theorem append_chain (op : BinaryOp) (t left right : Term) :
    append op t (.binary op left right) = .binary op (append op t left) right := by
  rw [append, if_pos rfl]

/-- What is no chain itself becomes the last operand. -/
theorem append_operand {op : BinaryOp} {w : Term} (t : Term)
    (h : ∀ left right, w ≠ .binary op left right) : append op t w = .binary op t w := by
  unfold append
  split
  · rename_i op' left right
    exact if_neg fun same => h left right (by rw [same])
  · rfl

/-- Chains are joined in any order. -/
theorem append_assoc (op : BinaryOp) (t u : Term) (w : Term) :
    append op (append op t u) w = append op t (append op u w) := by
  by_cases h : ∃ left right, w = .binary op left right
  · obtain ⟨left, right, rfl⟩ := h
    simp only [append_chain]
    rw [append_assoc op t u left]
  · have operand : ∀ left right, w ≠ .binary op left right := fun left right e =>
      h ⟨left, right, e⟩
    rw [append_operand _ operand, append_operand _ operand, append_chain]

/-- Operands that are joined to a chain extend it. -/
theorem foldl_append (op : BinaryOp) (t u : Term) (us : List Term) :
    us.foldl (append op) (append op t u) = append op t (us.foldl (append op) u) := by
  induction us generalizing u with
  | nil => rfl
  | cons w us ih => rw [List.foldl_cons, List.foldl_cons, append_assoc, ih]

theorem canonical_foldl {op : BinaryOp} (connective : op.isConnective) (t : Term)
    (ts : List Term) :
    (ts.foldl (.binary op) t).canonical =
      (ts.map canonical).foldl (append op) t.canonical := by
  induction ts generalizing t with
  | nil => rfl
  | cons u ts ih => simp only [List.foldl_cons, List.map_cons, ih, canonical, if_pos connective]

end Term

/-! ### Points -/

/-- The names that a text has between its points. -/
def splitNames (text : String) : List String := (text.toList.splitOn '.').map String.ofList

theorem splitNames_eq_self {name : String} (h : '.' ∉ name.toList) : splitNames name = [name] := by
  simp [splitNames, List.splitOn_eq_singleton h]

/-- A name with a point is not the first one that is found in it. -/
theorem splitNames_of_point {name : String} (h : '.' ∈ name.toList) :
    ∃ first rest, splitNames name = first :: rest ∧ first ≠ name := by
  obtain ⟨before, behind, hname, noPoint⟩ := List.eq_append_cons_of_mem h
  refine ⟨String.ofList before, (behind.splitOn '.').map String.ofList, ?_, ?_⟩
  · rw [splitNames, hname, List.splitOn_append_cons_self_of_not_mem noPoint, List.map_cons]
  · rintro rfl
    simp at hname

/-- Texts that are joined by points are split into the names of all of them. -/
theorem splitOn_joined {texts : List (List Char)} (h : texts ≠ []) :
    (['.'].intercalate texts).splitOn '.' = texts.flatMap (List.splitOn '.') := by
  induction texts with
  | nil => exact absurd rfl h
  | cons text rest ih =>
    cases rest with
    | nil => simp
    | cons next rest =>
      rw [List.intercalate_cons_cons, List.append_assoc, List.singleton_append,
        List.splitOn_append_cons_self, ih (List.cons_ne_nil next rest)]
      simp only [List.flatMap_cons]

namespace FieldPath

/-- A path with names that have no dollar sign in front, from the row or from a variable that the
server takes. -/
structure IsWritable (p : FieldPath) : Prop where
  names : ∀ name ∈ p.segments, hasNoSigil name = true
  var : ∀ var ∈ p.var, isVariableName var = true

/-- The path that the text of a path is read as. -/
def atPoints (p : FieldPath) : FieldPath := { p with segments := p.segments.flatMap splitNames }

variable {p q : FieldPath}

theorem atPoints_child (name : String) : (p.child name).atPoints =
    { p.atPoints with segments := p.atPoints.segments ++ splitNames name } := by
  simp [atPoints, child]

theorem atPoints_eq_self (h : ∀ name ∈ p.segments, '.' ∉ name.toList) : p.atPoints = p := by
  obtain ⟨var, segments⟩ := p
  have names : segments.flatMap splitNames = segments := by
    induction segments with
    | nil => rfl
    | cons name rest ih =>
      rw [List.flatMap_cons, splitNames_eq_self (h name List.mem_cons_self),
        ih fun other hother => h other (List.mem_cons_of_mem _ hother), List.singleton_append]
  rw [atPoints, names]

theorem splitNames_dotted (h : p.segments ≠ []) :
    splitNames p.dotted = p.atPoints.segments := by
  have joined : p.dotted.toList = ['.'].intercalate (p.segments.map String.toList) :=
    String.toList_intercalate
  rw [splitNames, joined, splitOn_joined (by simpa using h), atPoints, List.flatMap_map,
    List.map_flatMap]
  rfl

/-- The names of a path, joined again, are the text that they were split from. -/
theorem dotted_atPoints : p.atPoints.dotted = p.dotted := by
  by_cases h : p.segments = []
  · simp [dotted, atPoints, h]
  · apply String.toList_inj.mp
    have joined (p : FieldPath) :
        p.dotted.toList = ['.'].intercalate (p.segments.map String.toList) :=
      String.toList_intercalate
    rw [joined, ← splitNames_dotted h, splitNames, List.map_map]
    have split : String.toList ∘ String.ofList = id := by
      funext text
      simp
    rw [split, List.map_id, List.intercalate_splitOn]

theorem atPoints_eq_nil : p.atPoints.segments = [] ↔ p.segments = [] := by
  rw [atPoints]
  cases p.segments with
  | nil => simp
  | cons name rest => simp [splitNames]

/-- The text of a path says no more than the names between its points. -/
theorem text_atPoints : p.atPoints.text = p.text := by
  have written (p : FieldPath) : p.text =
      if p.segments = [] then p.var.elim "$$ROOT" ("$$" ++ ·)
      else p.var.elim "$" (fun var => "$$" ++ var ++ ".") ++ p.dotted := by
    obtain ⟨var, segments⟩ := p
    cases var <;> cases segments <;> rfl
  rw [written, written, dotted_atPoints]
  simp only [atPoints_eq_nil]
  rfl

end FieldPath

/-! ### Texts -/

namespace Term

/-- A text that is no path is read as it stands. -/
theorem ofText_name {name : String} (h : name.toList.head? ≠ some '$') :
    ofText name = .const (.string name) .dynamic := by
  unfold ofText
  split
  all_goals rename_i hchars
  · exact absurd (by rw [hchars]; rfl) h
  · exact absurd (by rw [hchars]; rfl) h
  · rfl

/-- The path of a field is read from after its dollar sign. -/
theorem ofText_field {text : String} {path : List Char} (h : text.toList = '$' :: path)
    (single : path.head? ≠ some '$') :
    ofText text = .field ⟨none, (path.splitOn '.').map String.ofList⟩ .dynamic := by
  unfold ofText
  rw [h]
  split
  · rename_i heq
    obtain rfl := List.cons.inj heq |>.2
    exact absurd rfl single
  · rename_i heq
    obtain rfl := List.cons.inj heq |>.2
    rfl
  · rename_i notPath
    exact absurd rfl (notPath path)

/-- A variable is read from after two dollar signs, with the path that follows it. -/
theorem ofText_var {text var : String} {path : List Char} {names : List String}
    (h : text.toList = '$' :: '$' :: path)
    (split : (path.splitOn '.').map String.ofList = var :: names) (named : var ≠ "ROOT") :
    ofText text = .field ⟨some var, names⟩ .dynamic := by
  simp only [ofText, h, split]

/-- **The text of a path** is read as the names between its points. -/
theorem ofText_atPoints {p : FieldPath} (h : p.IsWritable) :
    ofText p.text = .field p.atPoints .dynamic := by
  obtain ⟨var, names⟩ := p
  cases var with
  | none =>
    by_cases root : names = []
    · subst root
      rfl
    · have chars : (FieldPath.mk none names).text.toList =
          '$' :: (FieldPath.mk none names).dotted.toList := by
        cases names with
        | nil => exact absurd rfl root
        | cons name names => simp [FieldPath.text]
      have single := FieldPath.hasNoSigil_dotted h.names
      rw [ofText_field chars (bne_iff_ne.mp single)]
      exact congrArg (fun names => Term.field ⟨none, names⟩ .dynamic)
        (FieldPath.splitNames_dotted (p := ⟨none, names⟩) root)
  | some var =>
    -- With the variable as its first name, the path is one of a row.
    obtain ⟨⟨-, noPoint, -⟩, notRoot⟩ := isPlainName_of_isVariableName (h.var var rfl)
    have split : splitNames (FieldPath.mk none (var :: names)).dotted =
        var :: names.flatMap splitNames := by
      rw [FieldPath.splitNames_dotted (List.cons_ne_nil _ _), FieldPath.atPoints,
        List.flatMap_cons, splitNames_eq_self noPoint, List.singleton_append]
    have chars : (FieldPath.mk (some var) names).text.toList =
        '$' :: '$' :: (FieldPath.mk none (var :: names)).dotted.toList := by
      cases names with
      | nil => simp [FieldPath.text, FieldPath.dotted]
      | cons name names => simp [FieldPath.text, FieldPath.dotted, String.intercalate_cons_cons]
    exact ofText_var chars split notRoot

/-- **Paths are read as they are written**, where no name has a point. -/
theorem ofText_text {p : FieldPath} (plain : p.IsPlain)
    (named : ∀ var ∈ p.var, isVariableName var = true) :
    ofText p.text = .field p .dynamic := by
  have writable : p.IsWritable :=
    ⟨fun name hname => bne_iff_ne.mpr (plain name hname).2.2, named⟩
  rw [ofText_atPoints writable, FieldPath.atPoints_eq_self fun name hname => (plain name hname).2.1]

end Term

/-! ### Sort keys -/

/-- Inserting a new name adds it at the end. -/
theorem Document.insert_of_notMem {name : String} {v : Value} {d : Document}
    (h : name ∉ d.map Prod.fst) : d.insert name v = d ++ [(name, v)] := by
  induction d with
  | nil => rfl
  | cons f rest ih =>
    obtain ⟨k, w⟩ := f
    rw [List.map_cons, List.mem_cons, not_or] at h
    rw [insert, if_neg (Ne.symm h.1), ih h.2, List.cons_append]

/-- Fields with names of their own make the document that lists them. -/
theorem Document.ofList_of_nodup {fields : Document} (h : (fields.map Prod.fst).Nodup) :
    Document.ofList fields = fields := by
  suffices inserted : ∀ (rest d : Document), ((d ++ rest).map Prod.fst).Nodup →
      rest.foldl (fun d f => d.insert f.1 f.2) d = d ++ rest from inserted fields [] h
  intro rest
  induction rest with
  | nil =>
    intro d _
    exact (List.append_nil d).symm
  | cons f rest ih =>
    intro d hd
    have absent : f.1 ∉ d.map Prod.fst := by
      rw [List.map_append, List.map_cons] at hd
      intro hmem
      exact (List.nodup_append.mp hd).2.2 _ hmem _ List.mem_cons_self rfl
    rw [List.foldl_cons, Document.insert_of_notMem absent, ih _ (by simpa using hd),
      List.append_assoc, List.singleton_append]

theorem Direction.direction?_emit (d : Direction) : d.emit.direction? = some d := by
  cases d <;> rfl

/-- Keys with paths are written under their paths, and read from there. -/
theorem itemKeys_of_written {keys : List ItemKey} {fault : EmitError} {fields : Document}
    (h : keys.mapM (fun k => match k.path with
      | some path => Except.ok (path, k.direction.emit)
      | none => Except.error fault) = .ok fields) :
    (fields.map Prod.fst).map some = keys.map ItemKey.path ∧
      (Value.document fields).itemKeys? = some keys := by
  induction keys generalizing fields with
  | nil =>
    cases h
    exact ⟨rfl, rfl⟩
  | cons k keys ih =>
    rw [List.mapM_cons] at h
    simp only [bind_eq_ok, pure_eq_ok] at h
    obtain ⟨f, hf, rest, hrest, rfl⟩ := h
    obtain ⟨names, read⟩ := ih hrest
    obtain ⟨path, direction⟩ := k
    cases path with
    | none => cases hf
    | some path =>
      cases hf
      refine ⟨by simp [names], ?_⟩
      simp only [Value.itemKeys?] at read
      simp [Value.itemKeys?, read, Direction.direction?_emit]

/-- The keys of a sorted array are read as they are written. -/
theorem itemKeys?_emitItemKeys {input : Term} {keys : List ItemKey} {v : Value}
    (nodup : (keys.map ItemKey.path).Nodup) (h : emitItemKeys input keys = .ok v) :
    v.itemKeys? = some keys := by
  unfold emitItemKeys at h
  split at h
  · rename_i direction
    cases h
    cases direction <;> rfl
  · simp only [bind_eq_ok, pure_eq_ok] at h
    obtain ⟨fields, hfields, rfl⟩ := h
    obtain ⟨names, read⟩ := itemKeys_of_written hfields
    have distinct : (fields.map Prod.fst).Nodup :=
      List.Pairwise.of_map some (fun _ _ different => different ∘ congrArg some)
        (names ▸ nodup)
    rw [Document.ofList_of_nodup distinct]
    exact read

/-! ### Reading -/

/-- Whether an expression is read as a term, up to what written forms do not say. -/
def Value.ReadsAs (v : Value) (t : Term) : Prop :=
  ∃ u, v.read = some u ∧ u.canonical = t.canonical

section Parts

variable {e e' v : Value} {t t' w : Term}

/-- What is read from one part is read as a term, if the part is read as that of the term. -/
theorem Value.ReadsAs.one {f : Term → Term} (h : e.ReadsAs t)
    (hread : v.read = do return f (← e.read))
    (same : ∀ u, u.canonical = t.canonical → (f u).canonical = w.canonical) :
    v.ReadsAs w := by
  obtain ⟨u, hu, hsame⟩ := h
  exact ⟨f u, by simp [hread, hu], same u hsame⟩

theorem Value.ReadsAs.two {f : Term → Term → Term} (h : e.ReadsAs t) (h' : e'.ReadsAs t')
    (hread : v.read = do return f (← e.read) (← e'.read))
    (same : ∀ u u', u.canonical = t.canonical → u'.canonical = t'.canonical →
      (f u u').canonical = w.canonical) : v.ReadsAs w := by
  obtain ⟨u, hu, hsame⟩ := h
  obtain ⟨u', hu', hsame'⟩ := h'
  exact ⟨f u u', by simp [hread, hu, hu'], same u u' hsame hsame'⟩

end Parts

namespace Term

variable {scope : List String} {v : Value} {t : Term}

/-- Terms that are written in a list are read from it. -/
theorem readAll_emitAll {ts : List Term} {vs : List Value}
    (reads : ∀ t ∈ ts, ∀ v, t.emit scope = .ok v → v.ReadsAs t)
    (h : emitAll scope ts = .ok vs) :
    ∃ us, Value.readAll vs = some us ∧ us.map canonical = ts.map canonical := by
  induction ts generalizing vs with
  | nil =>
    cases h
    exact ⟨[], rfl, rfl⟩
  | cons t ts ih =>
    simp only [emitAll, bind_eq_ok, pure_eq_ok] at h
    obtain ⟨v, hv, vs, hvs, rfl⟩ := h
    obtain ⟨u, hu, same⟩ := reads t List.mem_cons_self v hv
    obtain ⟨us, hus, sames⟩ := ih (fun t ht => reads t (List.mem_cons_of_mem _ ht)) hvs
    exact ⟨u :: us, by simp [Value.readAll, hu, hus], by simp [same, sames]⟩

/-- Members that are written in a document are read from it under their names. -/
theorem readFields_emitFields {fields : List (String × Term)} {d : Document}
    (reads : ∀ f ∈ fields, ∀ v, f.2.emit scope = .ok v → v.ReadsAs f.2)
    (h : emitFields scope fields = .ok d) :
    d.map Prod.fst = fields.map Prod.fst ∧
      ∃ us, Value.readFields d = some us ∧
        canonicalFields us = canonicalFields fields := by
  induction fields generalizing d with
  | nil =>
    cases h
    exact ⟨rfl, [], rfl, rfl⟩
  | cons f fields ih =>
    obtain ⟨name, t⟩ := f
    simp only [emitFields, bind_eq_ok, pure_eq_ok] at h
    obtain ⟨v, hv, d, hd, rfl⟩ := h
    obtain ⟨u, hu, same⟩ := reads (name, t) List.mem_cons_self v hv
    obtain ⟨names, us, hus, sames⟩ := ih (fun f hf => reads f (List.mem_cons_of_mem _ hf)) hd
    refine ⟨by simp [names], (name, u) :: us, ?_, ?_⟩
    · simp [Value.readFields, hu, hus]
    · simp [canonicalFields, same, sames]

/-- What a written term adds to a chain is read as operands that join to the term. -/
theorem readAll_operands {op : BinaryOp} (connective : op.isConnective = true)
    (h : t.emit scope = .ok v) (reads : v.ReadsAs t) :
    ∃ u us, Value.readAll (t.operands op v) = some (u :: us) ∧
      (us.map canonical).foldl (append op) u.canonical = t.canonical := by
  obtain ⟨u, hu, same⟩ := reads
  rcases operands_emit op h with single | ⟨arguments, rfl, hargs⟩
  · refine ⟨u, [], ?_, same⟩
    simp [single, Value.readAll, hu]
  · rw [hargs]
    rw [Value.read_binary] at hu
    obtain ⟨us, hus, joined⟩ := Option.bind_eq_some_iff.mp hu
    rw [Keyword.applied?_connective connective] at joined
    cases us with
    | nil => cases joined
    | cons u' us =>
      obtain rfl := Option.some.inj joined
      refine ⟨u', us, hus, ?_⟩
      rw [← canonical_foldl connective, same]

/-- Whether a term and all terms below it are clear. -/
def HasClearNames (t : Term) : Prop := ∀ u ∈ t.subterms, u.IsClear

theorem HasClearNames.child {u : Term} (clear : t.HasClearNames) (h : u ∈ t.children) :
    u.HasClearNames :=
  fun w hw => clear w (mem_subterms_of_child h hw)

theorem HasClearNames.self (clear : t.HasClearNames) : t.IsClear :=
  clear t (mem_subterms_self t)

theorem read_emit_const (v : Value) : v.emit.read = some (.const v .dynamic) := by
  cases v with
  | string | array | document => exact Value.read_marked _
  | _ => rfl

/-- A path is written as its text, wherever its variable is bound. -/
theorem emit_path {path : FieldPath} (h : path.emit scope = .ok v) :
    v = .string path.text := by
  unfold FieldPath.emit at h
  split at h
  · exact (Except.ok.inj h).symm
  · split at h
    · exact (Except.ok.inj h).symm
    · cases h

theorem readsAs_path {path : FieldPath} {t : Term} (plain : path.IsPlain)
    (named : ∀ var ∈ path.var, isVariableName var = true) (h : path.emit scope = .ok v)
    (same : t.canonical = .field path .dynamic) : v.ReadsAs t := by
  rw [emit_path h]
  exact ⟨_, congrArg some (ofText_text plain named), same.symm⟩

/-- A document whose members are read is read, since none of its names is an operator. -/
theorem readsAs_document {fields : List (String × Term)}
    (reads : ∀ f ∈ fields, ∀ v, f.2.emit scope = .ok v → v.ReadsAs f.2)
    (plain : ∀ f ∈ fields, IsPlainName f.1)
    (h : (Term.document fields).emit scope = .ok v) : v.ReadsAs (.document fields) := by
  simp only [emit, bind_eq_ok, pure_eq_ok] at h
  obtain ⟨d, hd, rfl⟩ := h
  obtain ⟨names, us, hus, sames⟩ := readFields_emitFields reads hd
  have unknown : ∀ f ∈ d, Keyword.parse f.1 = none := by
    intro f hf
    have hname : f.1 ∈ fields.map Prod.fst := names ▸ List.mem_map_of_mem hf
    obtain ⟨g, hg, hgf⟩ := List.mem_map.mp hname
    exact Keyword.parse_eq_none (hgf ▸ (plain g hg).2.2)
  exact ⟨.document us, by simp [Value.read_document unknown, hus], by simp [canonical, sames]⟩

/-- The operands of a logical operator join to a chain; any other one has two operands. -/
theorem readsAs_binary {op : BinaryOp} {left right : Term}
    (readsLeft : ∀ l, left.emit scope = .ok l → l.ReadsAs left)
    (readsRight : ∀ r, right.emit scope = .ok r → r.ReadsAs right)
    (h : (Term.binary op left right).emit scope = .ok v) : v.ReadsAs (.binary op left right) := by
  obtain ⟨l, r, hl, hr, rfl⟩ := emit_binary h
  cases connective : op.isConnective with
  | true =>
    obtain ⟨u, us, hus, joinedLeft⟩ := readAll_operands connective hl (readsLeft l hl)
    obtain ⟨w, ws, hws, joinedRight⟩ := readAll_operands connective hr (readsRight r hr)
    refine ⟨(us ++ w :: ws).foldl (.binary op) u, ?_, ?_⟩
    · rw [if_pos rfl, Value.read_binary, Value.readAll_append hus hws]
      exact Keyword.applied?_connective connective _
    · rw [canonical_foldl connective, canonical, if_pos connective, List.map_append,
        List.foldl_append, List.map_cons, List.foldl_cons, joinedLeft, foldl_append,
        joinedRight]
  | false =>
    refine (readsLeft l hl).two (readsRight r hr) (Value.read_operands connective l r) ?_
    intro u w sameLeft sameRight
    simp [canonical, connective, sameLeft, sameRight]

/-- A slice without bounds is written as its array. -/
theorem readsAs_slice {array : Term} {bounds : Bounds}
    (reads : ∀ e, array.emit scope = .ok e → e.ReadsAs array)
    (h : (Term.slice array bounds).emit scope = .ok v) : v.ReadsAs (.slice array bounds) := by
  simp only [emit, bind_eq_ok, pure_eq_ok] at h
  obtain ⟨e, he, rfl⟩ := h
  have hread := Value.read_bounds bounds e
  cases hbounds : bounds.written? with
  | none =>
    obtain ⟨u, hu, same⟩ := reads e he
    exact ⟨u, by simp [hread, hbounds, hu], by simp [canonical, hbounds, same]⟩
  | some written =>
    rw [hbounds] at hread
    refine (reads e he).one hread ?_
    intro u same
    simp [canonical, hbounds, Bounds.written?_of_written hbounds, same]

/-- **What a term is written as is read as the term again.** -/
theorem readsAs_emit (t : Term) : ∀ {scope : List String} {v : Value},
    t.HasClearNames → t.emit scope = .ok v → v.ReadsAs t := by
  induction t using inductionOn with
  | step t ih =>
  intro scope v clear h
  have reads : ∀ u ∈ t.children, ∀ {scope w}, u.emit scope = .ok w → w.ReadsAs u :=
    fun u hu _ _ hw => ih u hu (clear.child hu) hw
  have self := clear.self
  cases t with
  | const w c =>
    cases h
    exact ⟨_, read_emit_const w, rfl⟩
  | field path c => exact readsAs_path self.1 self.2 h rfl
  | item array var c =>
    refine readsAs_path (by simp [FieldPath.IsPlain, FieldPath.ofVar]) ?_ h rfl
    rintro _ ⟨⟩
    exact self
  | accumulator | grouping => cases h
  | document fields =>
    exact readsAs_document (fun f hf _ hw => reads f.2 (List.mem_map_of_mem hf) hw) self h
  | binary op left right =>
    exact readsAs_binary (fun _ hl => reads left (by simp [children]) hl)
      (fun _ hr => reads right (by simp [children]) hr) h
  | slice array bounds =>
    exact readsAs_slice (fun _ he => reads array (by simp [children]) he) h
  | setOp op arguments =>
    simp only [emit, bind_eq_ok, pure_eq_ok] at h
    obtain ⟨vs, hvs, rfl⟩ := h
    obtain ⟨us, hus, sames⟩ := readAll_emitAll (fun u hu w hw => reads u hu hw) hvs
    refine ⟨.setOp op.written us, by simp [hus], ?_⟩
    rw [canonical, canonical, canonicalAll_eq, canonicalAll_eq, sames]
    cases op <;> rfl
  | cond test ifTrue ifFalse =>
    simp only [emit, bind_eq_ok, pure_eq_ok] at h
    obtain ⟨e, he, e', he', e'', he'', rfl⟩ := h
    obtain ⟨u, hu, same⟩ := reads test (by simp [children]) he
    obtain ⟨u', hu', same'⟩ := reads ifTrue (by simp [children]) he'
    obtain ⟨u'', hu'', same''⟩ := reads ifFalse (by simp [children]) he''
    exact ⟨.cond u u' u'', by simp [hu, hu', hu''], by simp [canonical, same, same', same'']⟩
  | unary op operand =>
    have readsOperand := fun {e} (he : operand.emit scope = .ok e) =>
      reads operand (by simp [children]) he
    cases op with
    | not =>
      simp only [emit, bind_eq_ok, pure_eq_ok] at h
      obtain ⟨e, he, rfl⟩ := h
      exact (readsOperand he).one (Value.read_not e) (by simp +contextual [canonical])
    | negate =>
      simp only [emit, bind_eq_ok, pure_eq_ok] at h
      obtain ⟨e, he, rfl⟩ := h
      have hread := @Value.read_operands .subtract rfl (.int32 0) e
      exact (readsOperand he).one hread
        (by simp +contextual [canonical, BinaryOp.isConnective])
  | filter input var condition =>
    simp only [emit, bind_eq_ok, pure_eq_ok] at h
    obtain ⟨e, he, e', he', rfl⟩ := h
    exact (reads input (by simp [children]) he).two (reads condition (by simp [children]) he')
      (Value.read_filter e e' var) (by simp +contextual [canonical])
  | map input var body =>
    simp only [emit, bind_eq_ok, pure_eq_ok] at h
    obtain ⟨e, he, e', he', rfl⟩ := h
    exact (reads input (by simp [children]) he).two (reads body (by simp [children]) he')
      (Value.read_map e e' var) (by simp +contextual [canonical])
  | contained value array =>
    simp only [emit, bind_eq_ok, pure_eq_ok] at h
    obtain ⟨e, he, e', he', rfl⟩ := h
    exact (reads value (by simp [children]) he).two (reads array (by simp [children]) he')
      (Value.read_contained e e') (by simp +contextual [canonical])
  | elemAt array position =>
    simp only [emit, bind_eq_ok, pure_eq_ok] at h
    obtain ⟨e, he, e', he', rfl⟩ := h
    exact (reads array (by simp [children]) he).two (reads position (by simp [children]) he')
      (Value.read_elemAt e e') (by simp +contextual [canonical])
  | anyTrue array =>
    simp only [emit, bind_eq_ok, pure_eq_ok] at h
    obtain ⟨e, he, rfl⟩ := h
    exact (reads array (by simp [children]) he).one (Value.read_anyTrue e)
      (by simp +contextual [canonical])
  | allTrue array =>
    simp only [emit, bind_eq_ok, pure_eq_ok] at h
    obtain ⟨e, he, rfl⟩ := h
    exact (reads array (by simp [children]) he).one (Value.read_allTrue e)
      (by simp +contextual [canonical])
  | size array =>
    simp only [emit, bind_eq_ok, pure_eq_ok] at h
    obtain ⟨e, he, rfl⟩ := h
    exact (reads array (by simp [children]) he).one (Value.read_size e)
      (by simp +contextual [canonical])
  | reduce op input c =>
    simp only [emit, bind_eq_ok, pure_eq_ok] at h
    obtain ⟨e, he, rfl⟩ := h
    exact (reads input (by simp [children]) he).one (Value.read_reduce op e)
      (by simp +contextual [canonical])
  | sortArray input keys =>
    simp only [emit, bind_eq_ok, pure_eq_ok] at h
    obtain ⟨sortBy, hkeys, e, he, rfl⟩ := h
    have hread := Value.read_sortArray e sortBy
    rw [itemKeys?_emitItemKeys self hkeys] at hread
    exact (reads input (by simp [children]) he).one hread (by simp +contextual [canonical])
  | getField input name c =>
    simp only [emit, bind_eq_ok, pure_eq_ok] at h
    obtain ⟨e, he, rfl⟩ := h
    have member : (Value.string name).read = some (.const (.string name) .dynamic) :=
      congrArg some (ofText_name self.2.2)
    exact (reads input (by simp [children]) he).one (Value.read_getField e member)
      (by simp +contextual [canonical])

/-- The items that are not named as the owner is, of an array that is made of what would
be a path and an operator if it were not marked. -/
def otherNames : Term :=
  .filter (.const (.array [.string "$name", .document [("$add", .int32 1)]]) .dynamic) "x"
    (.binary .and
      (.binary .ne (.field (.ofVar "x") .dynamic) (.const (.string "$name") .dynamic))
      (.binary .and (.const (.bool true) .boolean)
        (.binary .ne (.field (.ofVar "x") .dynamic)
          (.getField (.field (.field "owner") .dynamic) "name" .string))))

theorem otherNames_read :
    ∃ v, otherNames.emit [] = .ok v ∧ v.ReadsAs otherNames := by
  have clear : otherNames.HasClearNames := by
    simp [otherNames, HasClearNames, subterms, IsClear, IsPlainName, FieldPath.IsPlain,
      FieldPath.field, FieldPath.ofVar]
    decide
  have written : ∃ v, otherNames.emit [] = .ok v := ⟨_, rfl⟩
  obtain ⟨v, hv⟩ := written
  exact ⟨v, hv, readsAs_emit otherNames clear hv⟩

end Term

end QueryPipeline
