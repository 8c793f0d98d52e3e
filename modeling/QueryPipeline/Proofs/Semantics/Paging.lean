import QueryPipeline.Emission.Stage
import QueryPipeline.Value.Fold

/-!
What skips and takes mean: to their author, who applies them to a list one after the
other, and to the server, which reads them as they are written. Rows are paged by stages
with 64-bit counts, the items of an array by slices with 32-bit bounds.
-/

namespace QueryPipeline

/-- A paging operator with its count. -/
inductive Paging where
  | skip (count : Nat)
  | take (count : Nat)
deriving DecidableEq, Repr

namespace Paging

variable {α : Type}

/-- What the operator leaves of a list. -/
def apply (elements : List α) : Paging → List α
  | .skip n => elements.drop n
  | .take n => elements.take n

/-- What operators, one after the other, leave of a list. -/
def applyAll (elements : List α) (steps : List Paging) : List α :=
  steps.foldl apply elements

theorem applyAll_cons (elements : List α) (step : Paging) (steps : List Paging) :
    applyAll elements (step :: steps) = applyAll (step.apply elements) steps := rfl

/-- The count that the arguments of a call give: one constant integer that is not
negative. -/
def count? : List Expr → Option Nat
  | [.const v _] => do
      let (_, n) ← v.integer?
      if n < 0 then none else some n.toNat
  | _ => none

/-- The paging operator that a call is written for, on a queryable or an enumerable
sequence. -/
def ofCall? (call : Call Expr) : Option Paging :=
  if ["Queryable", "Enumerable", "MongoQueryable"].contains call.declaringType then
    match call.name with
    | "Skip" => (count? call.arguments).map .skip
    | "Take" => (count? call.arguments).map .take
    | _ => none
  else none

end Paging

/-- Calls applied to a source, the first one innermost. -/
def Expr.applied (source : Expr) (calls : List (Call Expr)) : Expr :=
  calls.foldl Expr.call source

/-- Whether the term is a slice. -/
def Term.isSlice : Term → Bool
  | .slice _ _ => true
  | _ => false

/-! ### Written stages -/

/-- What the server leaves of rows for a written stage, if the stage pages them. -/
def writtenStage? {α : Type} (rows : List α) : Document → Option (List α)
  | [("$skip", .int64 n)] => if n.toInt < 0 then none else some (rows.drop n.toInt.toNat)
  | [("$limit", .int64 n)] => if n.toInt < 0 then none else some (rows.take n.toInt.toNat)
  | _ => none

/-- What the server leaves of rows for written stages, one after the other. -/
def writtenStages? {α : Type} (rows : List α) (stages : List Document) :
    Option (List α) :=
  stages.foldlM writtenStage? rows

/-! ### Written slices -/

/-- The first items of an array or, for a negative number, the last ones. -/
def sliceFirst (n : Int) (items : List Value) : List Value :=
  if n < 0 then items.drop (items.length - n.natAbs) else items.take n.toNat

/-- Items from a position on, which counts from the end if it is negative. Their number
must be positive. -/
def sliceFrom? (position n : Int) (items : List Value) : Option (List Value) :=
  let start := if position < 0 then items.length - position.natAbs else position.toNat
  if n ≤ 0 then none else some ((items.drop start).take n.toNat)

/-- The items of a written array: a slice of a written array, an array as it stands, or
whatever other expressions give. -/
def writtenItems? (other? : Value → Option (List Value)) : Value → Option (List Value)
  | .document [("$slice", .array [array, .int32 n])] =>
      (writtenItems? other? array).map (sliceFirst n.toInt)
  | .document [("$slice", .array [array, .int32 position, .int32 n])] =>
      (writtenItems? other? array).bind (sliceFrom? position.toInt n.toInt)
  | .document [("$literal", .array items)] => some items
  | e => other? e

end QueryPipeline
