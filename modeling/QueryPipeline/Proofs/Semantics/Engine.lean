import QueryPipeline.Stage
import QueryPipeline.Value.Fold

/-!
What pipelines are evaluated with. A value may be missing, as a field that a
document does not have; a missing value is `none`. Documents are read and built
here; what operators give, how rows fall into groups and how they are sorted is
the server's own, and an `Engine` says it.

`Engine.Exact` is all that folding relies on: where an operator on constants has
an exact value, the engine computes that value.
-/

namespace QueryPipeline

/-- The server's own part of evaluation. -/
structure Engine where
  unary : UnaryOp → Option Value → Option Value
  binary : BinaryOp → Option Value → Option Value → Option Value
  /-- Whether a value counts as true. -/
  isTrue : Option Value → Bool
  /-- What reading a name from a value that is no document gives. -/
  readOther : Value → String → Option Value
  setOp : SetOp → List (Option Value) → Option Value
  reduce : ReduceOp → Option Value → Option Value
  sortItems : List ItemKey → List Value → List Value
  /-- The groups of rows by a key: for each group its key and its rows. -/
  groups : Term → List Value → List (Option Value × List Value)
  /-- The value of an accumulator over the rows of a group. -/
  accumulate : AccumulatorKind → Term → List Value → Option Value
  sortRows : List RowKey → List Value → List Value
  unwind : FieldPath → Value → List Value

/-- The engine agrees with the exact values of operators on constants, and
counts truth values as themselves. -/
structure Engine.Exact (engine : Engine) : Prop where
  unary {op : UnaryOp} {v w : Value} :
    Value.foldUnary op v = some w → engine.unary op (some v) = some w
  binary {op : BinaryOp} {l r w : Value} :
    Value.foldBinary op l r = some w → engine.binary op (some l) (some r) = some w
  isTrue_bool (b : Bool) : engine.isTrue (some (.bool b)) = b

namespace Engine

/-- An engine that computes exact values and nothing else: rows are never grouped,
sorted or flattened. -/
def folding : Engine where
  unary op v := v.bind (Value.foldUnary op)
  binary op l r := l.bind fun l => r.bind (Value.foldBinary op l)
  isTrue
    | some (.bool b) => b
    | _ => false
  readOther _ _ := none
  setOp _ _ := none
  reduce _ _ := none
  sortItems _ items := items
  groups _ _ := []
  accumulate _ _ _ := none
  sortRows _ rows := rows
  unwind _ row := [row]

theorem exact_folding : folding.Exact where
  unary h := h
  binary h := h
  isTrue_bool _ := rfl

end Engine

/-! ### Arrays -/

namespace Value

/-- A function of an array; no other value has items. -/
def onItems (f : List Value → Value) : Option Value → Option Value
  | some (.array items) => some (f items)
  | _ => none

/-- A number of elements as a value, the greatest 64-bit integer at most. -/
def count (n : Nat) : Value :=
  if n < 2147483648 then .int32 (.ofInt n)
  else .int64 (.ofInt (min n 9223372036854775807 : Nat))

/-- The number of items. -/
def size : Option Value → Option Value := onItems fun items => count items.length

end Value

/-! ### Reading and building documents -/

namespace Document

/-- The value under a name. -/
def get? (name : String) (fields : Document) : Option Value :=
  (fields.find? (·.1 == name)).map Prod.snd

/-- The document of the fields that have a value. -/
def ofPresent (fields : List (String × Option Value)) : Document :=
  fields.filterMap fun f => f.2.map (f.1, ·)

@[simp] theorem ofPresent_nil : ofPresent [] = [] := rfl

@[simp] theorem ofPresent_cons_none (name : String)
    (fields : List (String × Option Value)) :
    ofPresent ((name, none) :: fields) = ofPresent fields := rfl

@[simp] theorem ofPresent_cons_some (name : String) (v : Value)
    (fields : List (String × Option Value)) :
    ofPresent ((name, some v) :: fields) = (name, v) :: ofPresent fields := rfl

/-- A name that no field has is not found. -/
theorem get?_ofPresent_of_notMem {name : String}
    {fields : List (String × Option Value)} (h : name ∉ fields.map Prod.fst) :
    get? name (ofPresent fields) = none := by
  have absent : (ofPresent fields).find? (·.1 == name) = none := by
    rw [List.find?_eq_none]
    intro found hfound
    obtain ⟨f, hf, heq⟩ := List.mem_filterMap.mp hfound
    obtain ⟨v, _, rfl⟩ := Option.map_eq_some_iff.mp heq
    have hne : f.1 ≠ name := fun he => h (he ▸ List.mem_map_of_mem hf)
    simpa using hne
  rw [get?, absent]
  rfl

/-- Where names are distinct, each field is found under its name, and a field
without a value is not found. -/
theorem get?_ofPresent {name : String} {value : Option Value}
    {fields : List (String × Option Value)} (hnodup : (fields.map Prod.fst).Nodup)
    (hmem : (name, value) ∈ fields) : get? name (ofPresent fields) = value := by
  induction fields with
  | nil => cases hmem
  | cons f rest ih =>
    obtain ⟨k, v⟩ := f
    rw [List.map_cons, List.nodup_cons] at hnodup
    rcases List.mem_cons.mp hmem with heq | htail
    · obtain ⟨rfl, rfl⟩ : name = k ∧ value = v := by simpa using heq
      cases value with
      | none => rw [ofPresent_cons_none, get?_ofPresent_of_notMem hnodup.1]
      | some w => simp [get?]
    · have hne : k ≠ name := by
        rintro rfl
        exact hnodup.1 (List.mem_map.mpr ⟨_, htail, rfl⟩)
      cases v with
      | none => rw [ofPresent_cons_none, ih hnodup.2 htail]
      | some w =>
        rw [ofPresent_cons_some, get?, List.find?_cons_of_neg (by simpa using hne)]
        exact ih hnodup.2 htail

end Document

namespace Engine

/-- Reads a name from a value. -/
def read (engine : Engine) (name : String) : Option Value → Option Value
  | some (.document fields) => Document.get? name fields
  | some v => engine.readOther v name
  | none => none

/-- A name is read from the record it was given in. -/
theorem read_ofPresent {engine : Engine} {name : String} {value : Option Value}
    {fields : List (String × Option Value)} (hnodup : (fields.map Prod.fst).Nodup)
    (hmem : (name, value) ∈ fields) :
    engine.read name (some (.document (Document.ofPresent fields))) = value :=
  Document.get?_ofPresent hnodup hmem

end Engine

end QueryPipeline
