import QueryPipeline.Emission.Expression

/-!
A reader of the language of expressions. It looks at the written form alone: a text
after a dollar sign is a path, and after two of them a variable with a path; a document
whose only name is an operator applies the operator; what is marked as literal stands for
itself; any other document has expressions as its members, and anything else is a
constant. An operator with arguments that it does not take is not read.
-/

namespace QueryPipeline

/-- The operators of expressions. -/
inductive Keyword where
  | literal
  | size
  | reduce (op : ReduceOp)
  | binary (op : BinaryOp)
  | not
  | cond
  | anyTrue
  | allTrue
  | setOp (op : SetOp)
  | contained
  | elemAt
  | slice
  | filter
  | map
  | sortArray
  | getField
deriving DecidableEq, Repr

namespace Keyword

/-- The operator of a name. -/
def parse : String → Option Keyword
  | "$literal" => some .literal
  | "$size" => some .size
  | "$sum" => some (.reduce .sum)
  | "$avg" => some (.reduce .avg)
  | "$min" => some (.reduce .min)
  | "$max" => some (.reduce .max)
  | "$add" => some (.binary .add)
  | "$subtract" => some (.binary .subtract)
  | "$multiply" => some (.binary .multiply)
  | "$divide" => some (.binary .divide)
  | "$mod" => some (.binary .modulo)
  | "$eq" => some (.binary .eq)
  | "$ne" => some (.binary .ne)
  | "$lt" => some (.binary .lt)
  | "$lte" => some (.binary .lte)
  | "$gt" => some (.binary .gt)
  | "$gte" => some (.binary .gte)
  | "$and" => some (.binary .and)
  | "$or" => some (.binary .or)
  | "$not" => some .not
  | "$cond" => some .cond
  | "$anyElementTrue" => some .anyTrue
  | "$allElementsTrue" => some .allTrue
  | "$setUnion" => some (.setOp .union)
  | "$setDifference" => some (.setOp .difference)
  | "$setIntersection" => some (.setOp .intersection)
  | "$in" => some .contained
  | "$arrayElemAt" => some .elemAt
  | "$slice" => some .slice
  | "$filter" => some .filter
  | "$map" => some .map
  | "$sortArray" => some .sortArray
  | "$getField" => some .getField
  | _ => none

/-- The operands of a logical operator, joined from the left. -/
def join? (op : BinaryOp) : List Term → Option Term
  | [] => none
  | t :: ts => some (ts.foldl (.binary op) t)

/-- The operator applied to arguments that are told apart by their positions. -/
@[simp] def applied? : Keyword → List Term → Option Term
  | .binary op, arguments =>
    if op.isConnective then join? op arguments
    else
      match arguments with
      | [left, right] => some (.binary op left right)
      | _ => none
  | .not, [operand] => some (.unary .not operand)
  | .cond, [test, ifTrue, ifFalse] => some (.cond test ifTrue ifFalse)
  | .anyTrue, [array] => some (.anyTrue array)
  | .allTrue, [array] => some (.allTrue array)
  | .setOp op, arguments => some (.setOp op arguments)
  | .contained, [value, array] => some (.contained value array)
  | .elemAt, [array, position] => some (.elemAt array position)
  | .slice, [array, .const (.int32 limit) _] =>
    some (.slice array ⟨none, some limit.toNatClampNeg⟩)
  | .slice, [array, .const (.int32 skip) _, .const (.int32 limit) _] =>
    some (.slice array ⟨some skip.toNatClampNeg, some limit.toNatClampNeg⟩)
  | _, _ => none

end Keyword

/-- What a text is read as: a path, or the text itself. -/
def Term.ofText (text : String) : Term :=
  let names (path : List Char) := (path.splitOn '.').map String.ofList
  match text.toList with
  | '$' :: '$' :: path =>
    match names path with
    | "ROOT" :: rest => .field ⟨none, rest⟩ .dynamic
    | var :: rest => .field ⟨some var, rest⟩ .dynamic
    | [] => .const (.string text) .dynamic
  | '$' :: path => .field ⟨none, names path⟩ .dynamic
  | _ => .const (.string text) .dynamic

namespace Value

/-- The direction of a sort key. -/
def direction? : Value → Option Direction
  | .int32 n => if n = 1 then some .ascending else if n = -1 then some .descending else none
  | _ => none

/-- The keys of a sorted array: directions of paths, or one of the items themselves. -/
def itemKeys? : Value → Option (List ItemKey)
  | .document fields => fields.mapM fun (path, v) => v.direction?.map (ItemKey.mk (some path))
  | v => v.direction?.map fun direction => [⟨none, direction⟩]

mutual
/-- The term that an expression is read as. -/
@[simp] def read : Value → Option Term
  | .string text => some (.ofText text)
  | .document [(name, argument)] =>
    match Keyword.parse name with
    | none => do return .document [(name, ← argument.read)]
    | some .literal => some (.const argument .dynamic)
    | some .size => do return .size (← argument.read)
    | some (.reduce op) => do return .reduce op (← argument.read) .dynamic
    | some .filter => do
      let (input, var, condition) ← argument.readScoped "cond"
      return .filter input var condition
    | some .map => do
      let (input, var, body) ← argument.readScoped "in"
      return .map input var body
    | some .sortArray => argument.readSorted
    | some .getField => argument.readMember
    | some keyword => do keyword.applied? (← argument.readArguments)
  | .document fields => do return .document (← readFields fields)
  | v => some (.const v .dynamic)

/-- Arguments that are told apart by their positions. -/
@[simp] def readArguments : Value → Option (List Term)
  | .array arguments => readAll arguments
  | _ => none

/-- An array, the variable of its items, and the part that reads the variable. -/
@[simp] def readScoped (part : String) : Value → Option (Term × String × Term)
  | .document [(name, input), (name', .string var), (name'', body)] =>
    if name = "input" ∧ name' = "as" ∧ name'' = part then do
      return (← input.read, var, ← body.read)
    else none
  | _ => none

/-- An array and the keys it is sorted by. -/
@[simp] def readSorted : Value → Option Term
  | .document [(name, input), (name', keys)] =>
    if name = "input" ∧ name' = "sortBy" then do
      return .sortArray (← input.read) (← keys.itemKeys?)
    else none
  | _ => none

/-- A name, given as an expression, and the document that has it. -/
@[simp] def readMember : Value → Option Term
  | .document [(name, member), (name', input)] =>
    if name = "field" ∧ name' = "input" then do
      match ← member.read with
      | .const (.string member) _ => return .getField (← input.read) member .dynamic
      | _ => none
    else none
  | _ => none

@[simp] def readAll : List Value → Option (List Term)
  | [] => some []
  | v :: vs => do
    let t ← v.read
    let ts ← readAll vs
    return t :: ts

@[simp] def readFields : List (String × Value) → Option (List (String × Term))
  | [] => some []
  | (name, v) :: rest => do
    let t ← v.read
    let fields ← readFields rest
    return (name, t) :: fields
end

end Value

/-! ### What the written form says -/

/-- A set operator as it is written: distinct items are the union of an array with
nothing else. -/
def SetOp.written : SetOp → SetOp
  | .distinct => .union
  | op => op

/-- Bounds as they are written, if there are any. -/
def Bounds.written? (b : Bounds) : Option Bounds :=
  match b.skip, b.limit with
  | none, none => none
  | none, some limit => some ⟨none, some (min limit sliceMax)⟩
  | some skip, limit =>
    some ⟨some (min skip sliceMax), some (min (limit.getD sliceMax) sliceMax)⟩

/-- Written bounds are written as they are. -/
theorem Bounds.written?_of_written {b written : Bounds} (h : b.written? = some written) :
    written.written? = some written := by
  unfold Bounds.written? at h
  split at h
  · cases h
  · obtain rfl := Option.some.inj h
    simp [Bounds.written?]
  · obtain rfl := Option.some.inj h
    simp [Bounds.written?]

/-! ### The names of operators -/

namespace Keyword

@[simp] theorem parse_binary (op : BinaryOp) : parse op.emit = some (.binary op) := by
  cases op <;> rfl

@[simp] theorem parse_reduce (op : ReduceOp) : parse op.emit = some (.reduce op) := by
  cases op <;> rfl

@[simp] theorem parse_setOp (op : SetOp) : parse op.emit = some (.setOp op.written) := by
  cases op <;> rfl

/-- The operators that are not one of several have a name each. -/
@[simp] theorem parse_names :
    parse "$literal" = some .literal ∧ parse "$size" = some .size ∧ parse "$not" = some .not ∧
      parse "$cond" = some .cond ∧ parse "$anyElementTrue" = some .anyTrue ∧
      parse "$allElementsTrue" = some .allTrue ∧ parse "$in" = some .contained ∧
      parse "$arrayElemAt" = some .elemAt ∧ parse "$slice" = some .slice ∧
      parse "$filter" = some .filter ∧ parse "$map" = some .map ∧
      parse "$sortArray" = some .sortArray ∧ parse "$getField" = some .getField :=
  ⟨rfl, rfl, rfl, rfl, rfl, rfl, rfl, rfl, rfl, rfl, rfl, rfl, rfl⟩

/-- Operators start with a dollar sign. -/
theorem parse_eq_none {name : String} (h : name.toList.head? ≠ some '$') :
    parse name = none := by
  unfold parse
  split
  all_goals first | rfl | exact absurd rfl h

/-- The operands of a logical operator are joined, however many there are. -/
theorem applied?_connective {op : BinaryOp} (connective : op.isConnective = true)
    (arguments : List Term) : (binary op).applied? arguments = join? op arguments := by
  simp [connective]

end Keyword

/-! ### What operators are read as -/

namespace Value

theorem readAll_eq (vs : List Value) : readAll vs = vs.mapM read := by
  induction vs with
  | nil => rfl
  | cons v vs ih => rw [readAll, ih, List.mapM_cons]

theorem readAll_append {vs ws : List Value} {ts us : List Term} (hvs : readAll vs = some ts)
    (hws : readAll ws = some us) : readAll (vs ++ ws) = some (ts ++ us) := by
  rw [readAll_eq] at hvs hws ⊢
  simp [List.mapM_append, hvs, hws]

/-- What is marked as literal stands for itself, whatever it is. -/
@[simp] theorem read_marked (v : Value) : v.marked.read = some (.const v .dynamic) := by
  simp [marked, operator]

@[simp] theorem read_binary (op : BinaryOp) (arguments : List Value) :
    (operator op.emit (.array arguments)).read =
      (readAll arguments).bind (Keyword.binary op).applied? := by
  rw [operator, read, Keyword.parse_binary]
  rfl

/-- An operator that is not logical takes two operands. -/
theorem read_operands {op : BinaryOp} (h : op.isConnective = false) (l r : Value) :
    (operator op.emit (.array [l, r])).read = do
      return .binary op (← l.read) (← r.read) := by
  simp [h, Option.bind_assoc]

@[simp] theorem read_not (e : Value) :
    (operator "$not" (.array [e])).read = do return .unary .not (← e.read) := by
  simp [operator, Option.bind_assoc]

@[simp] theorem read_cond (e e' e'' : Value) :
    (operator "$cond" (.array [e, e', e''])).read = do
      return .cond (← e.read) (← e'.read) (← e''.read) := by
  simp [operator, Option.bind_assoc]

@[simp] theorem read_filter (input condition : Value) (var : String) :
    (operator "$filter"
      (.document [("input", input), ("as", .string var), ("cond", condition)])).read = do
        return .filter (← input.read) var (← condition.read) := by
  simp [operator, Option.bind_assoc]

@[simp] theorem read_map (input body : Value) (var : String) :
    (operator "$map"
      (.document [("input", input), ("as", .string var), ("in", body)])).read = do
        return .map (← input.read) var (← body.read) := by
  simp [operator, Option.bind_assoc]

@[simp] theorem read_anyTrue (e : Value) :
    (operator "$anyElementTrue" (.array [e])).read = do return .anyTrue (← e.read) := by
  simp [operator, Option.bind_assoc]

@[simp] theorem read_allTrue (e : Value) :
    (operator "$allElementsTrue" (.array [e])).read = do return .allTrue (← e.read) := by
  simp [operator, Option.bind_assoc]

@[simp] theorem read_size (e : Value) :
    (operator "$size" e).read = do return .size (← e.read) := by
  simp [operator]

@[simp] theorem read_contained (e e' : Value) :
    (operator "$in" (.array [e, e'])).read = do
      return .contained (← e.read) (← e'.read) := by
  simp [operator, Option.bind_assoc]

@[simp] theorem read_elemAt (e e' : Value) :
    (operator "$arrayElemAt" (.array [e, e'])).read = do
      return .elemAt (← e.read) (← e'.read) := by
  simp [operator, Option.bind_assoc]

@[simp] theorem read_setOp (op : SetOp) (arguments : List Value) :
    (operator op.emit (.array arguments)).read = do
      return .setOp op.written (← readAll arguments) := by
  simp [operator]

/-- A bound is read as the bound that is written, which fits its type. -/
theorem emitBound_fits (n : Nat) :
    ∃ bound : Int32, emitBound n = .int32 bound ∧ bound.toNatClampNeg = min n sliceMax := by
  have fits : min n sliceMax ≤ 2147483647 := Nat.min_le_right _ _
  refine ⟨_, rfl, ?_⟩
  rw [← Int32.toNat_toInt, Int32.toInt_ofInt_of_le (by omega) (by omega), Int.toNat_natCast]

/-- A slice has the bounds that are written; without bounds it is its array. -/
theorem read_bounds (b : Bounds) (e : Value) :
    (b.emit e).read =
      match b.written? with
      | some b => do return .slice (← e.read) b
      | none => e.read := by
  obtain ⟨skip, limit⟩ := b
  cases skip with
  | none =>
    cases limit with
    | none => rfl
    | some limit =>
      obtain ⟨bound, hbound, fits⟩ := emitBound_fits limit
      simp [Bounds.emit, Bounds.written?, hbound, fits, operator, Option.bind_assoc]
  | some skip =>
    obtain ⟨first, hfirst, fitsFirst⟩ := emitBound_fits skip
    obtain ⟨count, hcount, fitsCount⟩ := emitBound_fits (limit.getD sliceMax)
    simp [Bounds.emit, Bounds.written?, hfirst, hcount, fitsFirst, fitsCount, operator,
      Option.bind_assoc]

@[simp] theorem read_reduce (op : ReduceOp) (e : Value) :
    (operator op.emit e).read = do return .reduce op (← e.read) .dynamic := by
  simp [operator]

@[simp] theorem read_sortArray (input keys : Value) :
    (operator "$sortArray" (.document [("input", input), ("sortBy", keys)])).read = do
      return .sortArray (← input.read) (← keys.itemKeys?) := by
  simp [operator]

/-- The name of a member is an expression, too: it must not be read as a path. -/
theorem read_getField {member : Value} {name : String} {c : Codec} (input : Value)
    (h : member.read = some (.const (.string name) c)) :
    (operator "$getField" (.document [("field", member), ("input", input)])).read = do
      return .getField (← input.read) name .dynamic := by
  simp [operator, h]

/-- A document whose names are no operators has expressions as its members. -/
theorem read_document {fields : Document} (h : ∀ f ∈ fields, Keyword.parse f.1 = none) :
    (Value.document fields).read = do return .document (← readFields fields) := by
  match fields with
  | [] => rfl
  | [(name, v)] =>
    simp [h (name, v) List.mem_cons_self, Option.bind_assoc]
  | f :: g :: rest => rfl

end Value

end QueryPipeline
