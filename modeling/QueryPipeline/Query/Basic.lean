import QueryPipeline.Value.Basic

/-!
Queries as their author writes them: a collection and a chain of sequence
operators, whose arguments are expressions and lambdas over the elements.
-/

namespace QueryPipeline

/-- The static type of an expression. -/
inductive ValueType where
  | boolean
  | int32
  | int64
  | double
  | decimal128
  | string
  | dateTime
  | objectId
  | object
  | document (name : String)
  | array (item : ValueType)
deriving DecidableEq, Repr

/-- Operators with one operand. -/
inductive UnaryOp where
  | not
  | negate
deriving DecidableEq, Repr

/-- Operators with two operands. -/
inductive BinaryOp where
  | add
  | subtract
  | multiply
  | divide
  | modulo
  | eq
  | ne
  | lt
  | lte
  | gt
  | gte
  | and
  | or
deriving DecidableEq, Repr

namespace BinaryOp

/-- Whether the operator compares its operands. -/
def isComparison : BinaryOp → Bool
  | .eq | .ne | .lt | .lte | .gt | .gte => true
  | _ => false

/-- Whether the operator joins two conditions. -/
def isConnective : BinaryOp → Bool
  | .and | .or => true
  | _ => false

/-- The comparison that gives the same answer with the operands swapped; any
other operator stays as it is. -/
def flip : BinaryOp → BinaryOp
  | .lt => .gt
  | .lte => .gte
  | .gt => .lt
  | .gte => .lte
  | op => op

end BinaryOp

/-- One application of a method, without the sequence it is applied to. The
type that declares the method and its name identify it. -/
structure Call (α : Type) where
  declaringType : String
  name : String
  typeArguments : List ValueType := []
  arguments : List α := []
deriving Repr

/-- The same call with other arguments. -/
def Call.withArguments {α β : Type} (call : Call α) (arguments : List β) : Call β :=
  { call with arguments }

/-- Expressions. `new` may repeat a member name; that is reported when the
query is bound. A lambda has a meaning only as an argument of a call. -/
inductive Expr where
  | const (value : Value) (type : ValueType)
  | param (name : String)
  | member (target : Expr) (name : String)
  | unary (op : UnaryOp) (operand : Expr)
  | binary (op : BinaryOp) (left right : Expr)
  | cond (test ifTrue ifFalse : Expr)
  | new (members : List (String × Expr))
  | index (array position : Expr)
  | call (source : Expr) (call : Call Expr)
  | lambda (parameters : List String) (body : Expr)
deriving Repr

instance : Inhabited Expr := ⟨.param ""⟩

/-- A query: the collection it reads, the type of its documents, and the
operators in the order of their application. -/
structure Query where
  collection : String
  itemType : ValueType
  clauses : List (Call Expr) := []
deriving Repr

end QueryPipeline
