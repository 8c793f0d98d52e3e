import QueryPipeline.Emission.Expression

/-!
Predicates written in the query language, which can use indexes. The language
says less than expressions do, so every conjunct of a predicate is tried on its
own, and one that has no written form in it is wrapped as an expression.
-/

namespace QueryPipeline

/-- A field of the row, as a path of the query language. -/
def FieldPath.query? (p : FieldPath) : Option String :=
  if p.isRowField then some p.dotted else none

/-- The condition that a comparison puts on a field. The languages disagree on
null: a query for null also finds rows without the field, and queries for
smaller values do not find null. A document is compared as a whole, and a
pattern as a value; neither may stand for itself. -/
def comparisonQuery? (op : BinaryOp) (v : Value) : Option Value :=
  if v.isNull then none
  else
    match op, v with
    | .eq, .document _ | .eq, .regex _ _ => some (.operator "$eq" v)
    | .eq, _ => some v
    | .ne, _ => some (.operator "$ne" v)
    | .gt, _ => some (.operator "$gt" v)
    | .gte, _ => some (.operator "$gte" v)
    | _, _ => none

namespace Term

/-- The terms that a logical operator joins, left to right. -/
def chain (op : BinaryOp) : Term → List Term
  | .binary op' left right =>
    if op' = op then left.chain op ++ right.chain op else [.binary op' left right]
  | t => [t]

/-- A comparison of a field with a constant, the field brought to the left. -/
def comparison? (op : BinaryOp) (left right : Term) : Option Document :=
  match left, right with
  | .field path _, .const v _ => do
    let field ← path.query?
    let condition ← comparisonQuery? op v
    return [(field, condition)]
  | .const v _, .field path _ => do
    let field ← path.query?
    let condition ← comparisonQuery? op.flip v
    return [(field, condition)]
  | _, _ => none

/-- The queries that a query adds to a chain of a logical operator. -/
def queryOperands (op : BinaryOp) (t : Term) (query : Document) : List Value :=
  t.operands op (.document query)

/-- The query that a predicate is written as, if it has a written form in the
query language. -/
def query? : Term → Option Document
  | .binary op left right =>
    if op.isComparison then left.comparison? op right
    else if op.isConnective then do
      let l ← left.query?
      let r ← right.query?
      return [(op.emit, .array (left.queryOperands op l ++ right.queryOperands op r))]
    else none
  | .unary .not operand => do
    let query ← operand.query?
    return [("$nor", .array [.document query])]
  | .field path codec =>
    if codec.isBoolean then path.query?.map fun field => [(field, .bool true)] else none
  | .contained (.field path _) (.const (.array items) _) =>
    if items.any Value.isNull then none
    else path.query?.map fun field => [(field, .operator "$in" (.array items))]
  | _ => none

/-- A predicate as an expression in a filter. -/
def exprQuery (t : Term) : Except EmitError Document := do
  return [("$expr", ← t.emit [])]

/-- The filter that a predicate is written as, conjunct by conjunct. -/
def filterQuery (predicate : Term) : Except EmitError Document := do
  let conjuncts ← (predicate.chain .and).mapM fun t =>
    match t.query? with
    | some query => .ok query
    | none => t.exprQuery
  match conjuncts with
  | [single] => return single
  | _ => return [("$and", .array (conjuncts.map Value.document))]

end Term

end QueryPipeline
