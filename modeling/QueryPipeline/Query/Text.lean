import QueryPipeline.Query.Basic
import QueryPipeline.Text.Quoted
import QueryPipeline.Value.Text

/-!
The text of queries, as reports on queries quote them.
-/

namespace QueryPipeline

/-- The name of a type. -/
def ValueType.text : ValueType → String
  | .boolean => "bool"
  | .int32 => "int"
  | .int64 => "long"
  | .double => "double"
  | .decimal128 => "decimal"
  | .string => "string"
  | .dateTime => "DateTime"
  | .objectId => "ObjectId"
  | .object => "object"
  | .document name => name
  | .array item => item.text ++ "[]"

/-- The sign of an operator with one operand. -/
def UnaryOp.text : UnaryOp → String
  | .not => "!"
  | .negate => "-"

/-- The sign of an operator with two operands. -/
def BinaryOp.text : BinaryOp → String
  | .add => "+"
  | .subtract => "-"
  | .multiply => "*"
  | .divide => "/"
  | .modulo => "%"
  | .eq => "=="
  | .ne => "!="
  | .lt => "<"
  | .lte => "<="
  | .gt => ">"
  | .gte => ">="
  | .and => "&&"
  | .or => "||"

/-! ### Constants -/

/-- Numbers keep to at most 16 digits before the point and four zeros after
it, and a whole number shows that it is no integer. -/
def literalLayout : Decimal.Layout := ⟨some (-4, 15), true⟩

mutual
/-- A constant in a query. Inside an array the same rules hold; any other
value is written as in a document. -/
def Value.literal : Value → String
  | .string s => Text.quoted s
  | .int64 n => toString n.toInt ++ "L"
  | .double d => d.text literalLayout
  | .array items => Value.bracketed (Value.literals items)
  | v => v.text

def Value.literals : List Value → List String
  | [] => []
  | v :: vs => v.literal :: Value.literals vs
end

/-! ### Calls and expressions -/

/-- The declaring type and the name of a method. -/
def Call.method {α : Type} (call : Call α) : String :=
  call.declaringType ++ "." ++ call.name

/-- A call with the texts of its arguments. -/
def Call.textWith {α : Type} (call : Call α) (arguments : List String) : String :=
  let types :=
    if call.typeArguments.isEmpty then ""
    else "<" ++ ", ".intercalate (call.typeArguments.map ValueType.text) ++ ">"
  call.name ++ types ++ "(" ++ ", ".intercalate arguments ++ ")"

/-- A lambda with the text of its body. A single parameter stands without
parentheses. -/
def lambdaText (parameters : List String) (body : String) : String :=
  match parameters with
  | [single] => single ++ " => " ++ body
  | _ => "(" ++ ", ".intercalate parameters ++ ") => " ++ body

mutual
/-- The text of an expression. -/
def Expr.text : Expr → String
  | .const value _ => value.literal
  | .param name => name
  | .member target name => target.text ++ "." ++ name
  | .unary op operand => op.text ++ operand.text
  | .binary op left right =>
      "(" ++ left.text ++ " " ++ op.text ++ " " ++ right.text ++ ")"
  | .cond test ifTrue ifFalse =>
      "(" ++ test.text ++ " ? " ++ ifTrue.text ++ " : " ++ ifFalse.text ++ ")"
  | .new members => "new \x7b " ++ ", ".intercalate (Expr.memberTexts members) ++ " \x7d"
  | .index array position => array.text ++ "[" ++ position.text ++ "]"
  | .call source c => source.text ++ "." ++ Expr.callText c
  | .lambda parameters body => lambdaText parameters body.text

def Expr.memberTexts : List (String × Expr) → List String
  | [] => []
  | (name, e) :: rest => (name ++ " = " ++ e.text) :: Expr.memberTexts rest

def Expr.callText : Call Expr → String
  | ⟨declaringType, name, types, arguments⟩ =>
      Call.textWith (⟨declaringType, name, types, []⟩ : Call Expr) (Expr.texts arguments)

def Expr.texts : List Expr → List String
  | [] => []
  | e :: es => e.text :: Expr.texts es
end

/-- The text of a query: its operators follow the name of the collection. -/
def Query.text (q : Query) : String :=
  q.collection ++ String.join (q.clauses.map fun call => "." ++ Expr.callText call)

end QueryPipeline
