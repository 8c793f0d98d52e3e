import QueryPipeline.Term.Transform

/-!
Stages of an aggregation pipeline. Each stage turns a list of rows into a list
of rows; the order of the stages is the order in which they run.
-/

namespace QueryPipeline

/-- A value that a group computes from its rows. -/
structure Accumulator where
  /-- The position of the group stage. -/
  group : Nat
  kind : AccumulatorKind
  source : Term
  /-- The field of the group's row that holds the value. -/
  output : String
  codec : Codec
deriving Repr

/-- The term that stands for the value until the group computes it. -/
def Accumulator.term (a : Accumulator) : Term :=
  .accumulator a.group a.kind a.source a.output a.codec

/-- A key that rows are sorted by. -/
structure RowKey where
  key : Term
  direction : Direction
deriving Repr

/-- Stages. -/
inductive Stage where
  | filter (predicate : Term)
  | project (selector : Term)
  | group (id : Term) (accumulators : List Accumulator)
  | sort (keys : List RowKey)
  | skip (count : Nat)
  | limit (count : Nat)
  | unwind (path : FieldPath)
deriving Repr

namespace Stage

/-- Whether the stage groups rows. -/
def isGroup : Stage → Bool
  | .group _ _ => true
  | _ => false

/-- Transforms the terms of a stage. Of an accumulator in a group stage only the
source is a term to transform, and the path of an unwinding is none. -/
def transformM {m : Type → Type} [Monad m] (r : Transform m) : Stage → m Stage
  | .filter predicate => do return .filter (← predicate.transformM r)
  | .project selector => do return .project (← selector.transformM r)
  | .group id accumulators => do
      let id ← id.transformM r
      let accumulators ← accumulators.mapM fun a => do
        return { a with source := ← a.source.transformM r }
      return .group id accumulators
  | .sort keys => do
      return .sort (← keys.mapM fun k => do return { k with key := ← k.key.transformM r })
  | .skip count => return .skip count
  | .limit count => return .limit count
  | .unwind path => return .unwind path

end Stage

/-- Reads one path instead of another, wherever a term reads exactly it. -/
def FieldPath.redirect (source target : FieldPath) : Transform Id where
  enter
    | .field path codec => if path = source then some (.field target codec) else none
    | _ => none
  leave t := t

end QueryPipeline
