import QueryPipeline.Query.Text

/-!
Why a query cannot be bound.
-/

namespace QueryPipeline

/-- The causes for which binding fails. Expressions are kept as their texts. -/
inductive BindingError where
  /-- A member that is not stored. -/
  | unresolvedMember (member expression : String)
  /-- A method that is no operator with these arguments. -/
  | unsupportedOperator (name declaringType expression : String)
  /-- Operators and arguments that do not fit together. -/
  | unsupportedShape (text : String)
  /-- An array whose items have no known codec. -/
  | unknownItems (text : String)
  /-- A type without a codec. -/
  | unknownType (type : String)
deriving DecidableEq, Repr

namespace BindingError

/-- The failure in full. -/
def message : BindingError → String
  | .unresolvedMember member expression =>
      "member " ++ member ++ " has no serialized representation in " ++ expression
  | .unsupportedOperator name declaringType expression =>
      declaringType ++ "." ++ name ++ " is not supported: " ++ expression
  | .unsupportedShape text => "unsupported query shape: " ++ text
  | .unknownItems text =>
      "the item serializer of array " ++ text ++ " cannot be determined"
  | .unknownType type => "no codec is registered for type " ++ type

/-- A name between grave accents. -/
def marked (name : String) : String := "\x60" ++ name ++ "\x60"

/-- Advice to the author of the query. -/
def advice? : BindingError → Option String
  | .unresolvedMember member _ =>
      some ("Member " ++ marked member ++
        " is not serialized, so it cannot be used in a query.")
  | .unsupportedOperator name declaringType _ =>
      some ("The " ++ marked name ++ " method of " ++ marked declaringType ++
        " cannot be translated.")
  | .unknownType type => some ("Register a class map for " ++ marked type ++ ".")
  | .unsupportedShape _ | .unknownItems _ => none

/-- The number of the failure. -/
def code : BindingError → Nat
  | .unresolvedMember _ _ => 1001
  | .unsupportedOperator _ _ _ => 1002
  | .unsupportedShape _ => 1003
  | .unknownItems _ => 1004
  | .unknownType _ => 1005

end BindingError

end QueryPipeline
