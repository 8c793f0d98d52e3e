import QueryPipeline.Proofs.Semantics.Outline

/-!
What terms read of rows that an unwinding has changed. Each copy of a row has an item where
the row has the array. A path that leads to the array, through it or to a document around it
reads something else from the copy; every other path reads the same, and so does a term that
reads by such paths only.
-/

namespace QueryPipeline

variable {engine : Engine}

/-! ### Values along a path -/

namespace Value

/-- The value that names lead to, from document to document. -/
def at? : List String → Value → Option Value
  | [], v => some v
  | name :: rest, .document fields => (Document.get? name fields).bind (at? rest)
  | _ :: _, _ => none

/-- The value with another one where names lead. -/
def put (w : Value) : List String → Value → Value
  | [], _ => w
  | name :: rest, .document fields =>
      .document (fields.map fun f => if f.1 = name then (f.1, put w rest f.2) else f)
  | _ :: _, v => v

/-- The items of the array that names lead to. -/
def itemsAt (names : List String) (v : Value) : List Value :=
  match v.at? names with
  | some (.array items) => items
  | _ => []

end Value

theorem Document.get?_map {name other : String} {f : Value → Value} (fields : Document) :
    Document.get? other (fields.map fun p => if p.1 = name then (p.1, f p.2) else p) =
      if other = name then (Document.get? other fields).map f
      else Document.get? other fields := by
  have names : ((fun p : String × Value => p.1 == other) ∘
      fun p => if p.1 = name then (p.1, f p.2) else p) = fun p => p.1 == other := by
    funext p
    simp only [Function.comp_apply]
    split <;> rfl
  rw [Document.get?, Document.get?, List.find?_map, names, Option.map_map, Option.map_map]
  cases hfound : fields.find? (fun p => p.1 == other) with
  | none => simp
  | some p =>
    have same : p.1 = other := by simpa using List.find?_some hfound
    by_cases hname : other = name
    · simp [hname, same]
    · simp [hname, same]

/-- Reads names from a value, one after the other. -/
def Engine.readAll (engine : Engine) (names : List String) (v : Option Value) : Option Value :=
  names.foldl (fun v name => engine.read name v) v

/-- Neither of two paths leads through the other. -/
def Apart (names names' : List String) : Prop :=
  ¬ names <+: names' ∧ ¬ names' <+: names

instance (names names' : List String) : Decidable (Apart names names') :=
  inferInstanceAs (Decidable (_ ∧ _))

namespace Value

variable {names names' : List String} {v u : Value}

/-- What names lead to in a document is led to by the rest of them in the field of the first. -/
theorem exists_field {name : String} (h : v.at? (name :: names) = some u) :
    ∃ fields w, v = .document fields ∧ Document.get? name fields = some w ∧
      w.at? names = some u := by
  cases v with
  | document fields =>
    obtain ⟨w, hw, hu⟩ := Option.bind_eq_some_iff.mp h
    exact ⟨fields, w, rfl, hw, hu⟩
  | _ => cases h

/-- The new value is read where it has been put. -/
theorem readAll_put (h : v.at? names = some u) (w : Value) :
    engine.readAll names (some (put w names v)) = some w := by
  induction names generalizing v with
  | nil => rfl
  | cons name rest ih =>
    obtain ⟨fields, next, rfl, hnext, hu⟩ := exists_field h
    have read : engine.read name (some (put w (name :: rest) (.document fields))) =
        some (put w rest next) := by
      rw [put, Engine.read, Document.get?_map, if_pos rfl, hnext]
      rfl
    exact (congrArg (engine.readAll rest) read).trans (ih hu)

/-- Elsewhere, what is read stays the same. -/
theorem readAll_put_of_apart (h : v.at? names = some u) (w : Value)
    (apart : Apart names names') :
    engine.readAll names' (some (put w names v)) = engine.readAll names' (some v) := by
  induction names generalizing v names' with
  | nil => exact absurd (List.nil_prefix) apart.1
  | cons name rest ih =>
    cases names' with
    | nil => exact absurd (List.nil_prefix) apart.2
    | cons other rest' =>
      obtain ⟨fields, next, rfl, hnext, hu⟩ := exists_field h
      have read : engine.read other (some (put w (name :: rest) (.document fields))) =
          if other = name then (Document.get? other fields).map (put w rest)
          else Document.get? other fields := by
        rw [put, Engine.read, Document.get?_map]
      by_cases same : other = name
      · subst same
        rw [if_pos rfl, hnext] at read
        have apart' : Apart rest rest' := by
          simpa only [Apart, List.cons_prefix_cons, true_and] using apart
        calc engine.readAll (other :: rest') (some (put w (other :: rest) (.document fields)))
            = engine.readAll rest' (some (put w rest next)) :=
              congrArg (engine.readAll rest') read
          _ = engine.readAll rest' (some next) := ih hu apart'
          _ = engine.readAll (other :: rest') (some (.document fields)) :=
              congrArg (engine.readAll rest') hnext.symm
      · rw [if_neg same] at read
        exact congrArg (engine.readAll rest') read

end Value

/-! ### Rows that are read alike -/

namespace FieldPath

/-- The path reads the same from two rows. -/
def ReadsAlike (engine : Engine) (row row' : Value) (path : FieldPath) : Prop :=
  engine.readAll path.segments (some row) = engine.readAll path.segments (some row')

end FieldPath

namespace Term

mutual
/-- The paths by which a term reads the row. Accumulators read other rows, and a group is its
key. -/
def rowPaths : Term → List FieldPath
  | .const _ _ | .item _ _ _ | .accumulator _ _ _ _ _ => []
  | .field path _ => if path.var.isNone then [path] else []
  | .document fields => fieldRowPaths fields
  | .binary _ left right => left.rowPaths ++ right.rowPaths
  | .unary _ operand => operand.rowPaths
  | .cond test ifTrue ifFalse => test.rowPaths ++ (ifTrue.rowPaths ++ ifFalse.rowPaths)
  | .filter input _ body | .map input _ body => input.rowPaths ++ body.rowPaths
  | .anyTrue array | .allTrue array | .size array | .slice array _ => array.rowPaths
  | .setOp _ arguments => allRowPaths arguments
  | .contained value array => value.rowPaths ++ array.rowPaths
  | .elemAt array position => array.rowPaths ++ position.rowPaths
  | .reduce _ input _ | .sortArray input _ | .getField input _ _ => input.rowPaths
  | .grouping _ key _ _ _ => key.rowPaths

def allRowPaths : List Term → List FieldPath
  | [] => []
  | t :: ts => t.rowPaths ++ allRowPaths ts

def fieldRowPaths : List (String × Term) → List FieldPath
  | [] => []
  | (_, t) :: rest => t.rowPaths ++ fieldRowPaths rest
end

theorem mem_allRowPaths {ts : List Term} {p : FieldPath} :
    p ∈ allRowPaths ts ↔ ∃ t ∈ ts, p ∈ t.rowPaths := by
  induction ts with
  | nil => simp [allRowPaths]
  | cons t ts ih => simp [allRowPaths, ih]

theorem mem_fieldRowPaths {fields : List (String × Term)} {p : FieldPath} :
    p ∈ fieldRowPaths fields ↔ ∃ f ∈ fields, p ∈ f.2.rowPaths := by
  induction fields with
  | nil => simp [fieldRowPaths]
  | cons f fields ih =>
    obtain ⟨name, t⟩ := f
    simp only [fieldRowPaths, List.mem_append, ih, List.mem_cons, exists_eq_or_imp]

/-- A term reads the same from two rows by all its paths. -/
def ReadsAlike (engine : Engine) (row row' : Value) (t : Term) : Prop :=
  ∀ p ∈ t.rowPaths, p.ReadsAlike engine row row'

variable {row row' : Value}

/-- **A term is evaluated alike for rows from which it reads the same.** -/
theorem eval_of_readsAlike (t : Term) : ∀ vars, t.ReadsAlike engine row row' →
    t.eval engine ⟨row, vars⟩ = t.eval engine ⟨row', vars⟩ := by
  induction t using inductionOn with
  | step t ih =>
    intro vars alike
    cases t with
    | const | item | accumulator | grouping => rfl
    | field path codec =>
      obtain ⟨var, segments⟩ := path
      cases var with
      | none => exact alike _ List.mem_cons_self
      | some x => rfl
    | document fields =>
      have parts : evalFields engine ⟨row, vars⟩ fields =
          evalFields engine ⟨row', vars⟩ fields := by
        rw [evalFields_eq, evalFields_eq]
        refine List.map_congr_left ?_
        intro f hf
        rw [ih f.2 (List.mem_map_of_mem hf) vars
          fun p hp => alike p (mem_fieldRowPaths.mpr ⟨f, hf, hp⟩)]
      simp only [eval, parts]
    | setOp op arguments =>
      have parts : evalAll engine ⟨row, vars⟩ arguments =
          evalAll engine ⟨row', vars⟩ arguments := by
        rw [evalAll_eq, evalAll_eq]
        refine List.map_congr_left ?_
        intro u hu
        exact ih u hu vars fun p hp => alike p (mem_allRowPaths.mpr ⟨u, hu, hp⟩)
      simp only [eval, parts]
    | filter input var body | map input var body =>
      have hinput := ih input (by simp [children]) vars
        fun p hp => alike p (List.mem_append_left _ hp)
      have hbody (v : Value) := ih body (by simp [children]) ((var, v) :: vars)
        fun p hp => alike p (List.mem_append_right _ hp)
      simp only [eval, hinput, Env.bind, hbody]
    | unary | anyTrue | allTrue | size | slice | reduce | sortArray | getField =>
      have part := ih _ (List.mem_singleton_self _) vars alike
      simp only [eval, part]
    | binary _ left right | contained left right | elemAt left right =>
      have hleft := ih left (by simp [children]) vars
        fun p hp => alike p (List.mem_append_left _ hp)
      have hright := ih right (by simp [children]) vars
        fun p hp => alike p (List.mem_append_right _ hp)
      simp only [eval, hleft, hright]
    | cond test ifTrue ifFalse =>
      have htest := ih test (by simp [children]) vars
        fun p hp => alike p (List.mem_append_left _ hp)
      have hyes := ih ifTrue (by simp [children]) vars
        fun p hp => alike p (List.mem_append_right _ (List.mem_append_left _ hp))
      have hno := ih ifFalse (by simp [children]) vars
        fun p hp => alike p (List.mem_append_right _ (List.mem_append_right _ hp))
      simp only [eval, htest, hyes, hno]

/-- A term stands for the same in rows from which it reads the same. -/
theorem datum_of_readsAlike (t : Term) (alike : t.ReadsAlike engine row row') :
    t.datum engine ⟨row, []⟩ = t.datum engine ⟨row', []⟩ := by
  induction t using inductionOn with
  | step t ih =>
    cases hvalue : t.isValue with
    | true =>
      rw [datum_of_isValue hvalue, datum_of_isValue hvalue, eval_of_readsAlike t [] alike]
    | false =>
      cases t with
      | document fields =>
        have parts : fieldData engine ⟨row, []⟩ fields = fieldData engine ⟨row', []⟩ fields := by
          rw [fieldData_eq, fieldData_eq]
          refine List.map_congr_left ?_
          intro f hf
          rw [ih f.2 (List.mem_map_of_mem hf)
            fun p hp => alike p (mem_fieldRowPaths.mpr ⟨f, hf, hp⟩)]
        simp only [datum, parts]
      | grouping stage key element predicate distinct =>
        simp only [datum, ih key (by cases predicate <;> simp [children]) alike]
      | _ => cases hvalue

end Term

/-! ### Unwinding -/

/-- What is relied on of unwinding: a row whose path leads to an array is copied for each item,
with the item where the array was. -/
def Engine.Unwinds (engine : Engine) : Prop :=
  ∀ path row items, path.isRowField = true → Value.at? path.segments row = some (.array items) →
    engine.unwind path row = items.map fun v => Value.put v path.segments row

/-- A term reads the row by paths only that lead neither to an array, nor through it, nor to a
document around it. -/
def Term.Spares (names : List String) (t : Term) : Prop :=
  ∀ p ∈ t.rowPaths, Apart names p.segments

instance (names : List String) (t : Term) : Decidable (t.Spares names) :=
  inferInstanceAs (Decidable (∀ p ∈ t.rowPaths, _))

/-- Such a term stands for the same in each copy of a row. -/
theorem Term.Spares.datum {names : List String} {t : Term} {row u : Value}
    (h : t.Spares names) (found : row.at? names = some u) (w : Value) :
    t.datum engine ⟨Value.put w names row, []⟩ = t.datum engine ⟨row, []⟩ :=
  datum_of_readsAlike t fun p hp => Value.readAll_put_of_apart found w (h p hp)

end QueryPipeline
