import QueryPipeline.Emission.Filter
import QueryPipeline.Pipeline

/-!
Stages written as documents.
-/

namespace QueryPipeline

/-- The greatest 64-bit integer: counts are written no greater. -/
def countMax : Nat := 9223372036854775807

/-- A number of rows. -/
def emitCount (n : Nat) : Value := .int64 (.ofInt (min n countMax : Nat))

/-- The operator that an accumulator is written as. A count adds ones. -/
def AccumulatorKind.emit : AccumulatorKind → String
  | .count | .sum => "$sum"
  | .avg => "$avg"
  | .min => "$min"
  | .max => "$max"
  | .first => "$first"
  | .last => "$last"
  | .push => "$push"
  | .addToSet => "$addToSet"

namespace Term

mutual
/-- A value in a projection. A bare number or truth value would say whether a
field is kept, so every constant is marked as literal; a document inside is a
projection itself. -/
def emitProjected : Term → Except EmitError Value
  | .const v _ => .ok v.marked
  | .document fields => do return .document (← emitProjectedFields fields)
  | t => t.emit []

def emitProjectedFields : List (String × Term) → Except EmitError Document
  | [] => .ok []
  | (name, t) :: rest => do
    let v ← t.emitProjected
    let fields ← emitProjectedFields rest
    return (name, v) :: fields
end

/-- A projection. The identifier, which would be kept otherwise, is left out in
front unless the projection has one. -/
def emitProjection (selector : Term) : Except EmitError Document := do
  let fields ← match selector with
    | .document fields => emitProjectedFields fields
    | _ => do pure [(valueField, ← selector.emitProjected)]
  return if Document.contains fields "_id" then fields else ("_id", .int32 0) :: fields

end Term

/-- The key of a group and the values it computes. -/
def emitGroup (id : Term) (accumulators : List Accumulator) : Except EmitError Document := do
  let key ← id.emit []
  let values ← accumulators.mapM fun a => do
    return (a.output, Value.operator a.kind.emit (← a.source.emit []))
  return Document.ofList (("_id", key) :: values)

/-- The fields that rows are sorted by, in the order in which they first
appear. -/
def emitSortKeys (keys : List RowKey) : Except EmitError Document := do
  let fields ← keys.mapM fun k =>
    match k.key with
    | .field path _ =>
      if path.isRowField then .ok (path.dotted, k.direction.emit)
      else .error (.invalidSortKey k.key)
    | _ => .error (.invalidSortKey k.key)
  return Document.ofList fields

namespace Stage

/-- A stage as a document. With the query language, filters use it where they
can. -/
def emit (queryLanguage : Bool) : Stage → Except EmitError Document
  | .filter predicate => do
    let query ← if queryLanguage then predicate.filterQuery else predicate.exprQuery
    return [("$match", .document query)]
  | .project selector => do return [("$project", .document (← selector.emitProjection))]
  | .group id accumulators => do
    return [("$group", .document (← emitGroup id accumulators))]
  | .sort keys => do return [("$sort", .document (← emitSortKeys keys))]
  | .skip count => .ok [("$skip", emitCount count)]
  | .limit count => .ok [("$limit", emitCount count)]
  | .unwind path => .ok [("$unwind", .string path.text)]

/-- Stages as documents. -/
def emitAll (queryLanguage : Bool) (stages : List Stage) : Except EmitError (List Document) :=
  stages.mapM (·.emit queryLanguage)

end Stage

end QueryPipeline
