import QueryPipeline.Binding.Apply
import QueryPipeline.Binding.Groups
import QueryPipeline.Binding.Items
import QueryPipeline.Binding.Rows

/-!
Binding of expressions and of whole queries. The clauses of a query turn the
rows of its collection step by step; a call inside an expression applies its
operator to the rows of a group or to the items of an array.
-/

namespace QueryPipeline

/-- The term of what an operator made of a sequence. -/
def Applied.term {σ : Type} (ofSequence : σ → Term) : Applied σ Term → Term
  | .sequence s => ofSequence s
  | .terminal t => t

namespace Term

/-- Reads a member of a bound term. A member of a record is the term it was made
with, and a group has its key. Any other member is looked up by the codec: on a
path it is one name more, on a computed value a field is picked. -/
def member (registry : Registry) (target : Term) (name : String) : Option Term :=
  match target with
  | .document fields => (fields.find? (·.1 == name)).map Prod.snd
  | .grouping _ key _ _ _ => if name = "Key" then some key else none
  | _ =>
    if target.codec.isArray && (name == "Length" || name == "Count") then some (.size target)
    else
      (registry.member? target.codec name).map fun (element, codec) =>
        match target with
        | .field path _ => .field (path.child element) codec
        | .item _ var _ => .field ((FieldPath.ofVar var).child element) codec
        | _ => .getField target element codec

/-- Applies an operator to a bound term. The text is that of the expression. -/
def applyOperator (registry : Registry) (source : Term) (op : Operator)
    (call : Call Argument) (text : String) : BindM Term :=
  match source with
  | .grouping stage key element predicate distinct => do
    let g : Group := { stage, key, element, predicate, distinct }
    return (← op.apply registry g call).term Group.term
  | _ =>
    if source.codec.isArray then do
      let s ← BindM.ofExcept (Items.ofTerm source text)
      return (← op.apply registry s call).term Items.windowed
    else .unsupported text

end Term

namespace Expr

mutual
/-- Binds an expression. -/
def bind (registry : Registry) : Expr → BindM Term
  | .const value type =>
    match registry.codec? type with
    | some codec => return .const value codec
    | none => throw (.unknownType type.text)
  | .param name => BindM.lookup name
  | .member target name => do
    let bound ← target.bind registry
    match bound.member registry name with
    | some t => return t
    | none => throw (.unresolvedMember name (Expr.member target name).text)
  | .unary op operand => do return .foldUnary op (← operand.bind registry)
  | .binary op left right => do
    let left ← left.bind registry
    let right ← right.bind registry
    return .foldBinary op left right
  | .cond test ifTrue ifFalse => do
    let test ← test.bind registry
    let ifTrue ← ifTrue.bind registry
    let ifFalse ← ifFalse.bind registry
    return .foldCond test ifTrue ifFalse
  | .new members => do
    return .ofMembers (← bindMembers registry (Expr.new members).text .empty members)
  | .index array position => do
    let bound ← array.bind registry
    if bound.codec.isArray then
      return .elemAt bound (← position.bind registry)
    else .unsupported (Expr.index array position).text
  | .call source c => do
    let op ← BindM.ofExcept (Operator.ofCall c)
    let bound ← source.bind registry
    bound.applyOperator registry op (bindArguments registry c) (Expr.call source c).text
  | .lambda parameters body => .unsupported (Expr.lambda parameters body).text

/-- Binds the members of a record in order. A name that comes again is
reported, with the text of the record, when its own value is bound. -/
def bindMembers (registry : Registry) (text : String) (bound : UniqueMap String Term) :
    List (String × Expr) → BindM (UniqueMap String Term)
  | [] => return bound
  | (name, e) :: rest => do
    let t ← e.bind registry
    match bound.insert name t with
    | .ok bound => bindMembers registry text bound rest
    | .error _ => .unsupported text

/-- A call with the steps that bind its arguments. -/
def bindArguments (registry : Registry) : Call Expr → Call Argument
  | ⟨declaringType, name, types, arguments⟩ =>
    ⟨declaringType, name, types, bindEach registry arguments⟩

def bindEach (registry : Registry) : List Expr → List Argument
  | [] => []
  | .lambda parameters body :: rest =>
    .lambda parameters body (body.bind registry) :: bindEach registry rest
  | e :: rest => .value e (e.bind registry) :: bindEach registry rest
end

end Expr

namespace Query

/-- Applies the clauses of a query to a pipeline in order. The first clause that
ends the sequence must be the last one. -/
def bindClauses (registry : Registry) : Pipeline → List (Call Expr) → BindM Pipeline
  | p, [] => return p
  | p, clause :: rest => do
    let op ← BindM.ofExcept (Operator.ofCall clause)
    match ← op.apply registry p (Expr.bindArguments registry clause) with
    | .sequence p => bindClauses registry p rest
    | .terminal p =>
      match rest with
      | [] => return p
      | next :: _ => .unsupported (Expr.callText next ++ " after " ++ Expr.callText clause)

/-- Binds a query, starting from the documents of its collection. -/
def bind (registry : Registry) (q : Query) : BindM Pipeline :=
  match registry.codec? q.itemType with
  | some codec => bindClauses registry (.ofRoot codec) q.clauses
  | none => throw (.unknownType q.itemType.text)

end Query

end QueryPipeline
