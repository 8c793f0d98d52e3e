import QueryPipeline.Term.Basic
import QueryPipeline.Value.Fold

/-!
Terms built with their constants folded. An operator on constants becomes a
constant where its value is exact, and a condition that is decided becomes the
branch it chooses.
-/

namespace QueryPipeline.Term

/-- The codec of a folded value: truth values and 64-bit integers have their
own, any other value keeps the codec of the left operand. -/
def foldedCodec (v : Value) (left : Codec) : Codec :=
  match v with
  | .bool _ => .boolean
  | .int64 _ => .int64
  | _ => left

/-- A binary operator, folded if both operands are constants. -/
def foldBinary (op : BinaryOp) (left right : Term) : Term :=
  match left, right with
  | .const l codec, .const r _ =>
    match Value.foldBinary op l r with
    | some v => .const v (foldedCodec v codec)
    | none => .binary op left right
  | _, _ => .binary op left right

/-- A unary operator, folded if its operand is a constant. -/
def foldUnary (op : UnaryOp) (operand : Term) : Term :=
  match operand with
  | .const v codec =>
    match Value.foldUnary op v with
    | some v' => .const v' codec
    | none => .unary op operand
  | _ => .unary op operand

/-- A condition, replaced by the chosen branch if the test is a constant. -/
def foldCond (test ifTrue ifFalse : Term) : Term :=
  match test with
  | .const (.bool b) _ => if b then ifTrue else ifFalse
  | _ => .cond test ifTrue ifFalse

end QueryPipeline.Term
