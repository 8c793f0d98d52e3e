import QueryPipeline.Term.Basic

/-!
Operators that end a query with one value. The pipeline reduces its rows to at
most one; what an empty answer means is up to the reader of the rows.
-/

namespace QueryPipeline

/-- The operators that end a query with one value. -/
inductive TerminalKind where
  | count
  | longCount
  | sum
  | average
  | min
  | max
  | first
  | firstOrDefault
  | last
  | lastOrDefault
  | single
  | singleOrDefault
  | any
  | all
deriving DecidableEq, Repr

namespace TerminalKind

/-- The value of a query without rows. Where there is none, having no rows is
an error. -/
def whenEmpty : TerminalKind → Option Value
  | .count | .sum => some (.int32 0)
  | .longCount => some (.int64 0)
  | .any => some (.bool false)
  | .all => some (.bool true)
  | .firstOrDefault | .lastOrDefault | .singleOrDefault => some .null
  | .average | .min | .max | .first | .last | .single => none

/-- The most rows a valid answer has. The pipeline of a single value reads one
row more, so that a reader sees when there are too many. -/
def rowLimit (_ : TerminalKind) : Nat := 1

/-- How all rows are reduced to one. A single value is not reduced. -/
def accumulator? : TerminalKind → Option AccumulatorKind
  | .count | .longCount => some .count
  | .sum => some .sum
  | .average => some .avg
  | .min | .all => some .min
  | .max | .any => some .max
  | .first | .firstOrDefault => some .first
  | .last | .lastOrDefault => some .last
  | .single | .singleOrDefault => none

end TerminalKind

/-- An operator that ends a query, with the value it reduces. -/
structure Terminal where
  kind : TerminalKind
  source : Term
deriving Repr

end QueryPipeline
