import QueryPipeline.Binding.Error
import QueryPipeline.Terminal

/-!
The sequence operators, and the methods that denote them. A method denotes an
operator by its name, if one of the known types declares it and it has as many
arguments as the operator takes.
-/

namespace QueryPipeline

/-- Operators that reduce a sequence of values to one. -/
inductive Aggregate where
  | count
  | longCount
  | sum
  | average
  | min
  | max
deriving DecidableEq, Repr

/-- Operators that pick one element of a sequence. -/
inductive Pick where
  | first
  | firstOrDefault
  | single
  | singleOrDefault
  | last
  | lastOrDefault
deriving DecidableEq, Repr

/-- Sequence operators. -/
inductive Operator where
  | filter
  | project
  | flatten
  | groupBy
  | distinct
  | sortBy (direction : Direction)
  /-- A further key for the sort right before. -/
  | thenBy (direction : Direction)
  | skip
  | take
  | any
  | all
  | contains
  | aggregate (kind : Aggregate)
  | element (kind : Pick)
  | elementAt
  | elementAtOrDefault
  | union
  | except
  | intersect
  | ofType
  | toList
  | toArray
  | asQueryable
deriving DecidableEq, Repr

namespace Operator

/-- The name of the methods that denote an operator. -/
def name : Operator → String
  | .filter => "Where"
  | .project => "Select"
  | .flatten => "SelectMany"
  | .groupBy => "GroupBy"
  | .distinct => "Distinct"
  | .sortBy .ascending => "OrderBy"
  | .sortBy .descending => "OrderByDescending"
  | .thenBy .ascending => "ThenBy"
  | .thenBy .descending => "ThenByDescending"
  | .skip => "Skip"
  | .take => "Take"
  | .any => "Any"
  | .all => "All"
  | .contains => "Contains"
  | .aggregate .count => "Count"
  | .aggregate .longCount => "LongCount"
  | .aggregate .sum => "Sum"
  | .aggregate .average => "Average"
  | .aggregate .min => "Min"
  | .aggregate .max => "Max"
  | .element .first => "First"
  | .element .firstOrDefault => "FirstOrDefault"
  | .element .single => "Single"
  | .element .singleOrDefault => "SingleOrDefault"
  | .element .last => "Last"
  | .element .lastOrDefault => "LastOrDefault"
  | .elementAt => "ElementAt"
  | .elementAtOrDefault => "ElementAtOrDefault"
  | .union => "Union"
  | .except => "Except"
  | .intersect => "Intersect"
  | .ofType => "OfType"
  | .toList => "ToList"
  | .toArray => "ToArray"
  | .asQueryable => "AsQueryable"

/-- Every operator. -/
def known : List Operator :=
  [.filter, .project, .flatten, .groupBy, .distinct, .sortBy .ascending,
    .sortBy .descending, .thenBy .ascending, .thenBy .descending, .skip, .take, .any, .all,
    .contains, .aggregate .count, .aggregate .longCount, .aggregate .sum,
    .aggregate .average, .aggregate .min, .aggregate .max, .element .first,
    .element .firstOrDefault, .element .single, .element .singleOrDefault, .element .last,
    .element .lastOrDefault, .elementAt, .elementAtOrDefault, .union, .except, .intersect,
    .ofType, .toList, .toArray, .asQueryable]

/-- How many arguments an operator takes. -/
def arities : Operator → List Nat
  | .distinct | .ofType | .toList | .toArray | .asQueryable => [0]
  | .any | .aggregate _ | .element _ => [0, 1]
  | .flatten => [1, 2]
  | .groupBy => [1, 2, 3]
  | _ => [1]

/-- The types that declare an operator. -/
def declaringTypes : Operator → List String
  | .toList | .toArray => ["Enumerable"]
  | .asQueryable => ["Queryable"]
  | _ => ["Queryable", "Enumerable", "MongoQueryable"]

/-- Whether a method denotes the operator. -/
def denotedBy {α : Type} (op : Operator) (call : Call α) : Bool :=
  op.name == call.name && op.declaringTypes.contains call.declaringType &&
    op.arities.contains call.arguments.length

/-- The operator that a call applies. -/
def ofCall (call : Call Expr) : Except BindingError Operator :=
  match known.find? (·.denotedBy call) with
  | some op => .ok op
  | none =>
    .error (.unsupportedOperator call.name call.declaringType (Expr.callText call))

/-- The name of an operator finds it among all. -/
theorem find?_name (op : Operator) : known.find? (·.name == op.name) = some op := by
  cases op with
  | sortBy direction | thenBy direction => cases direction <;> rfl
  | aggregate kind | element kind => cases kind <;> rfl
  | _ => rfl

theorem mem_known (op : Operator) : op ∈ known := List.mem_of_find?_eq_some op.find?_name

/-- Operators have different names. -/
theorem eq_of_name_eq {op op' : Operator} (same : op.name = op'.name) : op = op' := by
  have found := op.find?_name
  rw [same, op'.find?_name] at found
  exact (Option.some.inj found).symm

theorem denotedBy_iff {α : Type} {op : Operator} {call : Call α} :
    op.denotedBy call = true ↔ op.name = call.name ∧
      call.declaringType ∈ op.declaringTypes ∧ call.arguments.length ∈ op.arities := by
  simp [denotedBy, and_assoc]

theorem find?_denotedBy {α : Type} {op : Operator} {call : Call α} :
    known.find? (·.denotedBy call) = some op ↔ op.denotedBy call = true := by
  constructor
  · exact List.find?_some
  · intro denoted
    cases found : known.find? (·.denotedBy call) with
    | none => exact absurd denoted (List.find?_eq_none.mp found op op.mem_known)
    | some op' =>
      have denoted' : op'.denotedBy call = true :=
        List.find?_some (p := fun op : Operator => op.denotedBy call) found
      have named := (denotedBy_iff.mp denoted').1
      rw [eq_of_name_eq (named.trans (denotedBy_iff.mp denoted).1.symm)]

/-- **A call applies the operator that it names**, if one of the operator's types declares it
and it has as many arguments as the operator takes, and no other operator. -/
theorem ofCall_eq_ok_iff {call : Call Expr} {op : Operator} :
    ofCall call = .ok op ↔ op.name = call.name ∧
      call.declaringType ∈ op.declaringTypes ∧ call.arguments.length ∈ op.arities := by
  rw [← denotedBy_iff, ← find?_denotedBy, ofCall]
  cases known.find? (·.denotedBy call) <;> simp

theorem eq_of_ofCall {call : Call Expr} {op : Operator} (h : ofCall call = .ok op)
    (op' : Operator) (named : call.name = op'.name) : op = op' :=
  eq_of_name_eq ((ofCall_eq_ok_iff.mp h).1.trans named)

end Operator

end QueryPipeline
