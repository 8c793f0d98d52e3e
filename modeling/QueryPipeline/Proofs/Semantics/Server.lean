import QueryPipeline.Emission.Expression
import QueryPipeline.Proofs.Semantics.Engine

/-!
What the server makes of the two languages that a filter can be written in. An
expression gives a value, which may be missing, and values of all types are ordered: a
missing value first, then null, then the types one after the other. A query is a
condition on the fields of a document: comparisons see values of the type they compare
with only, and each value that a path reaches is looked at on its own.

Only the operators that filters are built from are spelled out. The rest is a
`Server`'s own: how values of one type are ordered, what arrays on a path give,
patterns, and any other operator.
-/

namespace QueryPipeline

/-- The place of a type in the order of types. -/
def Value.bracket : Value → Nat
  | .minKey => 0
  | .undefined => 1
  | .null => 2
  | .int32 _ | .int64 _ | .double _ | .decimal128 _ => 3
  | .string _ | .symbol _ => 4
  | .document _ => 5
  | .array _ => 6
  | .binary _ _ => 7
  | .objectId _ => 8
  | .bool _ => 9
  | .dateTime _ => 10
  | .timestamp _ _ => 11
  | .regex _ _ => 12
  | .code _ => 13
  | .codeWithScope _ _ => 14
  | .maxKey => 15

/-- The server's own part of the two languages. -/
structure Server where
  /-- The order of values of one type. -/
  within : Value → Value → Ordering
  /-- Whether a value counts as true. -/
  truth : Value → Bool
  /-- What an expression reads under a name from the items of an array. -/
  readArray : List Value → String → Option Value
  /-- What a query reaches by names from the items of an array. -/
  reachArray : List String → List Value → List (Option Value)
  /-- Whether a value meets a pattern. -/
  meetsPattern : Value → Option Value → Bool
  /-- Whether values meet any other condition of a query. -/
  meetsOther : String → Value → List (Option Value) → Bool
  /-- The value, for a row, of any other expression. -/
  other : Value → Value → Option Value

/-- The order of values does not depend on the side, and truth values and null count
as what they are. -/
structure Server.Lawful (server : Server) : Prop where
  swap (a b : Value) : (server.within a b).swap = server.within b a
  within_bool (a b : Bool) : server.within (.bool a) (.bool b) = compare a b
  truth_bool (b : Bool) : server.truth (.bool b) = b
  truth_null : server.truth .null = false

namespace Server

variable (server : Server)

/-! ### Values -/

/-- The order of two values: that of their types, then that within the type. -/
def compareValues (a b : Value) : Ordering :=
  (compare a.bracket b.bracket).then (server.within a b)

/-- The order of two values that may be missing. -/
def order : Option Value → Option Value → Ordering
  | none, none => .eq
  | none, some _ => .lt
  | some _, none => .gt
  | some a, some b => server.compareValues a b

/-- Whether a value that may be missing counts as true. -/
def isTrue : Option Value → Bool
  | some v => server.truth v
  | none => false

/-! ### Expressions -/

/-- Reads a name from a value. -/
def read (name : String) : Option Value → Option Value
  | some (.document fields) => Document.get? name fields
  | some (.array items) => server.readArray items name
  | _ => none

/-- Reads names from a value, one after the other. -/
def readAll (names : List String) (v : Option Value) : Option Value :=
  names.foldl (fun v name => server.read name v) v

/-- The comparison that an operator of expressions makes. -/
def comparison? : String → Option (Ordering → Bool)
  | "$eq" => some (· == .eq)
  | "$ne" => some (· != .eq)
  | "$lt" => some (· == .lt)
  | "$lte" => some (· != .gt)
  | "$gt" => some (· == .gt)
  | "$gte" => some (· != .lt)
  | _ => none

/-- The value of a logical operator or a comparison. A test of membership in what is no
array has none. -/
def operator? (name : String) (arguments : List (Option Value)) : Option (Option Value) :=
  match name, arguments with
  | "$and", _ => some (some (.bool (arguments.all server.isTrue)))
  | "$or", _ => some (some (.bool (arguments.any server.isTrue)))
  | "$not", [v] => some (some (.bool !server.isTrue v))
  | "$in", [v, some (.array items)] =>
    some (some (.bool (items.any fun item => server.order v (some item) == .eq)))
  | "$in", [_, _] => some none
  | _, [l, r] => (comparison? name).map fun holds => some (.bool (holds (server.order l r)))
  | _, _ => none

/-- The value of a text in an expression: after a dollar sign, a path from the row. -/
def readText (row : Value) (text : String) : Option Value :=
  match text.toList with
  | '$' :: '$' :: _ => if text = "$$ROOT" then some row else server.other row (.string text)
  | '$' :: path => server.readAll ((path.splitOn '.').map String.ofList) (some row)
  | _ => some (.string text)

mutual
/-- The value of an expression for a row. -/
def evaluate (row : Value) : Value → Option Value
  | .string text => server.readText row text
  | .document [(name, .array arguments)] =>
    if name = "$literal" then some (.array arguments)
    else
      (server.operator? name (evaluateAll row arguments)).getD
        (server.other row (.document [(name, .array arguments)]))
  | .document [(name, argument)] =>
    if name = "$literal" then some argument
    else server.other row (.document [(name, argument)])
  | .document fields => server.other row (.document fields)
  | .array items => server.other row (.array items)
  | v => some v

def evaluateAll (row : Value) : List Value → List (Option Value)
  | [] => []
  | e :: rest => evaluate row e :: evaluateAll row rest
end

theorem evaluateAll_eq (row : Value) (es : List Value) :
    server.evaluateAll row es = es.map (server.evaluate row) := by
  induction es with
  | nil => rfl
  | cons e es ih => rw [evaluateAll, ih, List.map_cons]

/-! ### Queries -/

/-- The values that a path reaches. -/
def reach : List String → Value → List (Option Value)
  | names, .array items => server.reachArray names items
  | [], v => [some v]
  | name :: names, .document fields =>
    match Document.get? name fields with
    | some v => reach names v
    | none => [none]
  | _ :: _, _ => [none]

/-- Whether a value equals the value of a query. A missing value equals null. -/
def equals (v : Value) : Option Value → Bool
  | some w => server.compareValues w v == .eq
  | none => v.isNull

/-- Whether a value is greater than the value of a query, being of its type. -/
def exceeds (v : Value) : Option Value → Bool
  | some w => w.bracket == v.bracket && server.compareValues w v == .gt
  | none => false

/-- Whether a value meets an item of a list: a pattern, or a value to equal. -/
def meetsItem (item : Value) (v : Option Value) : Bool :=
  match item with
  | .regex _ _ => server.meetsPattern item v
  | _ => server.equals item v

/-- Whether the values that a path reaches meet a condition. -/
def meets (values : List (Option Value)) (name : String) (v : Value) : Bool :=
  match name, v with
  | "$eq", _ => values.any (server.equals v)
  | "$ne", _ => !values.any (server.equals v)
  | "$gt", _ => values.any (server.exceeds v)
  | "$gte", _ => values.any fun w => server.exceeds v w || server.equals v w
  | "$in", .array items => items.any fun item => values.any (server.meetsItem item)
  | _, _ => server.meetsOther name v values

/-- Whether the values that a path reaches meet what a query says of the path: a
condition, or a value or pattern by itself. -/
def meetsCondition (values : List (Option Value)) (condition : Value) : Bool :=
  match condition with
  | .document [(name, v)] =>
    if name.toList.head? = some '$' then server.meets values name v
    else values.any (server.equals condition)
  | _ => values.any (server.meetsItem condition)

/-- Whether a row meets what a query says of a path. -/
def meetsPath (row : Value) (path : String) (condition : Value) : Bool :=
  server.meetsCondition
    (server.reach ((path.toList.splitOn '.').map String.ofList) row) condition

mutual
/-- Whether a query accepts a row: all its parts must. -/
def accepts (row : Value) : Document → Bool
  | [] => true
  | (name, v) :: rest => acceptsPart row name v && accepts row rest

/-- Whether a part of a query accepts a row. -/
def acceptsPart (row : Value) (name : String) : Value → Bool
  | .array queries =>
    match name with
    | "$and" => acceptsAll row queries
    | "$or" => acceptsAny row queries
    | "$nor" => !acceptsAny row queries
    | "$expr" => server.isTrue (server.evaluate row (.array queries))
    | _ => server.meetsPath row name (.array queries)
  | v =>
    match name with
    | "$expr" => server.isTrue (server.evaluate row v)
    | _ => server.meetsPath row name v

def acceptsAll (row : Value) : List Value → Bool
  | [] => true
  | .document query :: rest => accepts row query && acceptsAll row rest
  | _ :: _ => false

def acceptsAny (row : Value) : List Value → Bool
  | [] => false
  | .document query :: rest => accepts row query || acceptsAny row rest
  | _ :: rest => acceptsAny row rest
end

end Server

end QueryPipeline
