import QueryPipeline.Term.Basic

/-!
Why a pipeline cannot be written down.
-/

namespace QueryPipeline

/-- The causes for which a term has no written form, with what is to blame. -/
inductive EmitError where
  /-- An accumulator that no group computes. -/
  | unattachedAccumulator (output : String)
  /-- A group that is read as a value, known by what counts as an element of it. -/
  | unresolvedGroup (element : Term)
  /-- A variable that no sub-query around it binds. -/
  | unboundVariable (name : String)
  /-- A key among others that has no path, where the items of an array are sorted. -/
  | invalidItemKeys (input : Term) (keys : List ItemKey)
  /-- A sort key that is not a field. -/
  | invalidSortKey (key : Term)
deriving Repr

/-- What a failure is about where no name tells it. -/
inductive Subject where
  | term (t : Term)
  /-- The items of an array with the keys that they are sorted by. -/
  | itemSort (input : Term) (keys : List ItemKey)
deriving Repr

namespace EmitError

/-- What has failed, without its subject. -/
def message : EmitError → String
  | .unattachedAccumulator output =>
      "accumulator " ++ output ++ " is not attached to a group"
  | .unresolvedGroup _ => "a grouping cannot be emitted as a value"
  | .unboundVariable name =>
      "variable " ++ name ++ " is referenced outside of its sub-query"
  | .invalidItemKeys _ _ | .invalidSortKey _ =>
      "sort key must be a field of the current document"

/-- What the failure is about. -/
def subject? : EmitError → Option Subject
  | .unresolvedGroup element => some (.term element)
  | .invalidItemKeys input keys => some (.itemSort input keys)
  | .invalidSortKey key => some (.term key)
  | .unattachedAccumulator _ | .unboundVariable _ => none

/-- Advice to the author of the query. -/
def advice? : EmitError → Option String
  | .invalidItemKeys _ _ | .invalidSortKey _ =>
      some "Sort by a member of the document, not a computed value."
  | .unattachedAccumulator _ | .unresolvedGroup _ | .unboundVariable _ => none

/-- The number of the failure. -/
def code : EmitError → Nat
  | .unattachedAccumulator _ => 4001
  | .unresolvedGroup _ => 4002
  | .unboundVariable _ => 4003
  | .invalidItemKeys _ _ | .invalidSortKey _ => 4004

end EmitError

end QueryPipeline
