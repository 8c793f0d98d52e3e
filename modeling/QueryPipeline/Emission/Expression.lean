import QueryPipeline.Emission.Error
import QueryPipeline.Term.Basic

/-!
Terms written as aggregation expressions. A text that starts with a dollar sign
would be read as a path and a document as an operator, so texts, documents and
arrays among the constants are marked as literal.
-/

namespace QueryPipeline

/-- An operator applied to its arguments. -/
def Value.operator (name : String) (arguments : Value) : Value :=
  .document [(name, arguments)]

/-- A value that is read as it stands. -/
def Value.marked (v : Value) : Value := .operator "$literal" v

/-- A constant in an expression. -/
def Value.emit (v : Value) : Value :=
  match v with
  | .string _ | .document _ | .array _ => v.marked
  | _ => v

/-- The operator that a binary operator is written as. -/
def BinaryOp.emit : BinaryOp → String
  | .add => "$add"
  | .subtract => "$subtract"
  | .multiply => "$multiply"
  | .divide => "$divide"
  | .modulo => "$mod"
  | .eq => "$eq"
  | .ne => "$ne"
  | .lt => "$lt"
  | .lte => "$lte"
  | .gt => "$gt"
  | .gte => "$gte"
  | .and => "$and"
  | .or => "$or"

/-- The operator that a set operator is written as. A union with nothing else
leaves each item once. -/
def SetOp.emit : SetOp → String
  | .union | .distinct => "$setUnion"
  | .difference => "$setDifference"
  | .intersection => "$setIntersection"

/-- The operator that a reduction is written as. -/
def ReduceOp.emit : ReduceOp → String
  | .sum => "$sum"
  | .avg => "$avg"
  | .min => "$min"
  | .max => "$max"

/-- The direction of a sort key. -/
def Direction.emit : Direction → Value
  | .ascending => .int32 1
  | .descending => .int32 (-1)

/-- A path, whose variable must be bound around it. -/
def FieldPath.emit (scope : List String) (p : FieldPath) : Except EmitError Value :=
  match p.var with
  | none => .ok (.string p.text)
  | some var =>
    if scope.contains var then .ok (.string p.text) else .error (.unboundVariable var)

/-- The greatest 32-bit integer: slices take no greater bounds. -/
def sliceMax : Nat := 2147483647

/-- A bound of a slice. -/
def emitBound (n : Nat) : Value := .int32 (.ofInt (min n sliceMax : Nat))

/-- A slice of a written array. A limit stands alone if nothing is skipped. -/
def Bounds.emit (b : Bounds) (array : Value) : Value :=
  match b.skip, b.limit with
  | none, none => array
  | none, some limit => .operator "$slice" (.array [array, emitBound limit])
  | some skip, limit =>
    .operator "$slice" (.array [array, emitBound skip, emitBound (limit.getD sliceMax)])

/-- The keys of a sorted array: a direction for the items themselves, or a
direction for each path, in the order in which the paths first appear. The array
is named where they cannot be written. -/
def emitItemKeys (input : Term) (keys : List ItemKey) : Except EmitError Value :=
  match keys with
  | [⟨none, direction⟩] => .ok direction.emit
  | _ => do
    let fields ← keys.mapM fun k =>
      match k.path with
      | some path => .ok (path, k.direction.emit)
      | none => .error (.invalidItemKeys input keys)
    return .document (Document.ofList fields)

namespace Term

/-- The operands that a written term adds to a chain of a logical operator: its
own operands if it is such a chain, else the term itself. -/
def operands (op : BinaryOp) (t : Term) (written : Value) : List Value :=
  match t, written with
  | .binary op' _ _, .document [(_, .array arguments)] =>
    if op' = op then arguments else [written]
  | _, _ => [written]

mutual
/-- The expression that a term is written as, inside sub-queries that bind the
variables in scope. -/
def emit (scope : List String) : Term → Except EmitError Value
  | .const v _ => .ok v.emit
  | .field path _ => path.emit scope
  | .document fields => do return .document (← emitFields scope fields)
  | .item _ var _ => (FieldPath.ofVar var).emit scope
  | .accumulator _ _ _ output _ => .error (.unattachedAccumulator output)
  | .binary op left right => do
    let l ← left.emit scope
    let r ← right.emit scope
    let arguments :=
      if op.isConnective then left.operands op l ++ right.operands op r else [l, r]
    return .operator op.emit (.array arguments)
  | .unary .not operand => do
    return .operator "$not" (.array [← operand.emit scope])
  | .unary .negate operand => do
    return .operator "$subtract" (.array [.int32 0, ← operand.emit scope])
  | .cond test ifTrue ifFalse => do
    let test ← test.emit scope
    let ifTrue ← ifTrue.emit scope
    let ifFalse ← ifFalse.emit scope
    return .operator "$cond" (.array [test, ifTrue, ifFalse])
  | .filter input var condition => do
    let input ← input.emit scope
    let condition ← condition.emit (var :: scope)
    return .operator "$filter"
      (.document [("input", input), ("as", .string var), ("cond", condition)])
  | .map input var body => do
    let input ← input.emit scope
    let body ← body.emit (var :: scope)
    return .operator "$map" (.document [("input", input), ("as", .string var), ("in", body)])
  | .anyTrue array => do
    return .operator "$anyElementTrue" (.array [← array.emit scope])
  | .allTrue array => do
    return .operator "$allElementsTrue" (.array [← array.emit scope])
  | .setOp op arguments => do
    return .operator op.emit (.array (← emitAll scope arguments))
  | .size array => do return .operator "$size" (← array.emit scope)
  | .contained value array => do
    let value ← value.emit scope
    let array ← array.emit scope
    return .operator "$in" (.array [value, array])
  | .elemAt array position => do
    let array ← array.emit scope
    let position ← position.emit scope
    return .operator "$arrayElemAt" (.array [array, position])
  | .slice array bounds => do return bounds.emit (← array.emit scope)
  | .reduce op input _ => do return .operator op.emit (← input.emit scope)
  | .sortArray input keys => do
    let sortBy ← emitItemKeys input keys
    let input ← input.emit scope
    return .operator "$sortArray" (.document [("input", input), ("sortBy", sortBy)])
  | .getField input name _ => do
    let input ← input.emit scope
    return .operator "$getField" (.document [("field", .string name), ("input", input)])
  | .grouping _ _ element _ _ => .error (.unresolvedGroup element)

def emitAll (scope : List String) : List Term → Except EmitError (List Value)
  | [] => .ok []
  | t :: ts => do
    let v ← t.emit scope
    let vs ← emitAll scope ts
    return v :: vs

def emitFields (scope : List String) : List (String × Term) → Except EmitError Document
  | [] => .ok []
  | (name, t) :: rest => do
    let v ← t.emit scope
    let fields ← emitFields scope rest
    return (name, v) :: fields
end

end Term

end QueryPipeline
