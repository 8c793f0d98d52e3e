import QueryPipeline.Codec.Registry
import QueryPipeline.Proofs.Semantics.Engine
import QueryPipeline.Term.Fold

/-!
What queries mean to their author: the clauses are applied to a list of values, one
after the other. Only the part of the language without sub-queries has a meaning
here: constants, parameters, members, records, operators and conditions in lambdas
that filter, project, skip and take.

A member is read by the element name that the static codec of its target gives. The
static codec of an expression follows from its `Shape`, which is found without any
row: operators on constants are constants, and a record has the shapes of its
members.
-/

namespace QueryPipeline

/-- What is known of a value before any row is read. -/
inductive Shape where
  | constant (v : Value) (codec : Codec)
  | record (members : List (String × Shape))
  /-- A value that a row decides. -/
  | stored (codec : Codec)

namespace Shape

mutual
/-- The static codec. -/
def codec : Shape → Codec
  | .constant _ codec => codec
  | .record members => .document (.ofRecord (memberCodecs members))
  | .stored codec => codec

def memberCodecs : List (String × Shape) → List (String × Codec)
  | [] => []
  | (name, s) :: rest => (name, s.codec) :: memberCodecs rest
end

/-- The static codec of a unary operator that is not folded. -/
def unaryCodec (operand : Codec) : UnaryOp → Codec
  | .not => .boolean
  | .negate => operand

/-- The static codec of a binary operator that is not folded. -/
def binaryCodec (left right : Codec) (op : BinaryOp) : Codec :=
  if op.isComparison || op.isConnective then .boolean
  else if right.isDouble then .double
  else left

/-- A unary operator. -/
def unary (op : UnaryOp) (operand : Shape) : Shape :=
  match operand with
  | .constant v codec =>
    match Value.foldUnary op v with
    | some w => .constant w codec
    | none => .stored (unaryCodec codec op)
  | _ => .stored (unaryCodec operand.codec op)

/-- A binary operator. -/
def binary (op : BinaryOp) (left right : Shape) : Shape :=
  match left, right with
  | .constant l codec, .constant r codec' =>
    match Value.foldBinary op l r with
    | some w => .constant w (Term.foldedCodec w codec)
    | none => .stored (binaryCodec codec codec' op)
  | _, _ => .stored (binaryCodec left.codec right.codec op)

/-- A condition: the branch that is chosen, where the test is decided. Of branches
that a row chooses from the first one gives the codec. -/
def cond (test ifTrue ifFalse : Shape) : Shape :=
  match test with
  | .constant (.bool b) _ => if b then ifTrue else ifFalse
  | _ => .stored ifTrue.codec

/-- How a member is read: as an element of a document, or as the number of items of
an array. -/
inductive Access where
  | element (name : String)
  | size

/-- How a member is read, and the shape it has. A record has its members under their
own names; elsewhere the codec says the element. -/
def member? (registry : Registry) (s : Shape) (name : String) : Option (Access × Shape) :=
  match s with
  | .record members => (members.find? (·.1 == name)).map fun m => (.element name, m.2)
  | _ =>
    if s.codec.isArray && (name == "Length" || name == "Count") then
      some (.size, .stored .int32)
    else (registry.member? s.codec name).map fun m => (.element m.1, .stored m.2)

/-- Reads a member of a value. -/
def Access.read (engine : Engine) : Access → Option Value → Option Value
  | .element name, v => engine.read name v
  | .size, v => Value.size v

end Shape

namespace Expr

mutual
/-- The shape of an expression whose parameters have given shapes. -/
def shape? (registry : Registry) (scope : String → Option Shape) : Expr → Option Shape
  | .const v type => (registry.codec? type).map (.constant v)
  | .param name => scope name
  | .member target name => do
      let s ← target.shape? registry scope
      let m ← s.member? registry name
      return m.2
  | .unary op operand => do return .unary op (← operand.shape? registry scope)
  | .binary op left right => do
      let left ← left.shape? registry scope
      let right ← right.shape? registry scope
      return .binary op left right
  | .cond test ifTrue ifFalse => do
      let test ← test.shape? registry scope
      let ifTrue ← ifTrue.shape? registry scope
      let ifFalse ← ifFalse.shape? registry scope
      return .cond test ifTrue ifFalse
  | .new members => (memberShapes? registry scope members).map .record
  | .index .. | .call .. | .lambda .. => none

def memberShapes? (registry : Registry) (scope : String → Option Shape) :
    List (String × Expr) → Option (List (String × Shape))
  | [] => some []
  | (name, e) :: rest => do
      let s ← e.shape? registry scope
      let shapes ← memberShapes? registry scope rest
      return (name, s) :: shapes
end

mutual
/-- The value of an expression whose parameters have given shapes and values. -/
def value (engine : Engine) (registry : Registry) (scope : String → Option Shape)
    (values : String → Option Value) : Expr → Option Value
  | .const v _ => some v
  | .param name => values name
  | .member target name =>
      match (target.shape? registry scope).bind (·.member? registry name) with
      | some (access, _) => access.read engine (target.value engine registry scope values)
      | none => none
  | .unary op operand => engine.unary op (operand.value engine registry scope values)
  | .binary op left right =>
      engine.binary op (left.value engine registry scope values)
        (right.value engine registry scope values)
  | .cond test ifTrue ifFalse =>
      if engine.isTrue (test.value engine registry scope values) then
        ifTrue.value engine registry scope values
      else ifFalse.value engine registry scope values
  | .new members =>
      some (.document (Document.ofPresent
        (memberValues engine registry scope values members)))
  | .index .. | .call .. | .lambda .. => none

def memberValues (engine : Engine) (registry : Registry) (scope : String → Option Shape)
    (values : String → Option Value) : List (String × Expr) → List (String × Option Value)
  | [] => []
  | (name, e) :: rest =>
      (name, e.value engine registry scope values) ::
        memberValues engine registry scope values rest
end

mutual
/-- Whether an expression has no sub-query, no position and no lambda in it. -/
def isPlain : Expr → Bool
  | .const _ _ | .param _ => true
  | .member target _ => target.isPlain
  | .unary _ operand => operand.isPlain
  | .binary _ left right => left.isPlain && right.isPlain
  | .cond test ifTrue ifFalse => test.isPlain && ifTrue.isPlain && ifFalse.isPlain
  | .new members => allPlain members
  | .index .. | .call .. | .lambda .. => false

def allPlain : List (String × Expr) → Bool
  | [] => true
  | (_, e) :: rest => e.isPlain && allPlain rest
end

end Expr

/-! ### Clauses -/

/-- A clause without sub-queries, its lambda taken apart. -/
inductive Clause where
  | filter (parameter : String) (predicate : Expr)
  | project (parameter : String) (selector : Expr)
  | skip (count : Nat)
  | take (count : Nat)

/-- The values that a sequence has come to, and what is known of all of them. -/
structure Values where
  shape : Shape
  items : List (Option Value)

namespace Clause

/-- The clause that a call is written for. -/
def ofCall? (call : Call Expr) : Option Clause :=
  match call.arguments with
  | [.lambda [parameter] body] =>
    if call.name = "Where" then some (.filter parameter body)
    else if call.name = "Select" then some (.project parameter body)
    else none
  | [.const v _] => do
    let (_, n) ← v.integer?
    if n < 0 then none
    else if call.name = "Skip" then some (.skip n.toNat)
    else if call.name = "Take" then some (.take n.toNat)
    else none
  | _ => none

/-- The number of elements that the clause drops from the front. -/
def skipped : Clause → Nat
  | .skip n => n
  | _ => 0

/-- The only parameter of a lambda. -/
def bindOnly {α : Type} (parameter : String) (a : Option α) (name : String) : Option α :=
  if name = parameter then a else none

/-- The values after a clause. -/
def apply (engine : Engine) (registry : Registry) (vs : Values) :
    Clause → Option Values
  | .filter parameter predicate => do
      let scope := bindOnly parameter (some vs.shape)
      let _ ← predicate.shape? registry scope
      return { vs with
        items := vs.items.filter fun v => engine.isTrue
          (predicate.value engine registry scope (bindOnly parameter v)) }
  | .project parameter selector => do
      let scope := bindOnly parameter (some vs.shape)
      let shape ← selector.shape? registry scope
      return {
        shape
        items := vs.items.map fun v =>
          selector.value engine registry scope (bindOnly parameter v) }
  | .skip n => some { vs with items := vs.items.drop n }
  | .take n => some { vs with items := vs.items.take n }

/-- The values after the clauses of calls, one after the other. -/
def applyAll (engine : Engine) (registry : Registry) (vs : Values)
    (calls : List (Call Expr)) : Option Values :=
  calls.foldlM (fun vs call => do (← ofCall? call).apply engine registry vs) vs

/-- The number of elements that the clauses of calls drop from the front altogether. -/
def totalSkipped : List (Call Expr) → Nat
  | [] => 0
  | call :: rest => (ofCall? call).elim 0 skipped + totalSkipped rest

end Clause

/-- Whether a call filters, projects, skips or takes, without a sub-query in a lambda. -/
def Call.isPlain (call : Call Expr) : Bool :=
  ["Where", "Select", "Skip", "Take"].contains call.name &&
    call.arguments.all fun
      | .lambda _ body => body.isPlain
      | _ => true

/-- Whether all clauses of a query are plain. -/
def Query.isPlain (q : Query) : Bool := q.clauses.all Call.isPlain

/-- The values that a query makes of the documents of its collection. -/
def Query.values? (engine : Engine) (registry : Registry) (q : Query) (rows : List Value) :
    Option (List (Option Value)) := do
  let codec ← registry.codec? q.itemType
  let vs ← Clause.applyAll engine registry ⟨.stored codec, rows.map some⟩ q.clauses
  return vs.items

end QueryPipeline
