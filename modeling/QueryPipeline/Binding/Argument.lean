import QueryPipeline.Binding.Sequence

/-!
Arguments of calls. An argument comes with the step that binds it, so that an
operator decides when it is bound and what its parameters stand for.
-/

namespace QueryPipeline

/-- An argument: a lambda with the step that binds its body, or another
expression with the step that binds it. -/
inductive Argument where
  | lambda (parameters : List String) (body : Expr) (bindBody : BindM Term)
  | value (e : Expr) (bind : BindM Term)

/-- The variable that reads the values of a parameter. The server takes names
that start with a small letter and go on with letters, digits and underscores;
any other name gets a letter in front and an underscore for each character that
is not allowed. -/
def serverVar (parameter : String) : String :=
  let chars := parameter.toList
  let starts := chars.head?.any Char.isLower
  if starts && chars.all fun c => c.isAlphanum || c == '_' then parameter
  else "v_" ++ String.ofList (chars.map fun c => if c.isAlphanum then c else '_')

namespace Argument

/-- The expression the argument was written as. -/
def expr : Argument → Expr
  | .lambda parameters body _ => .lambda parameters body
  | .value e _ => e

/-- The text of the argument. -/
def text (a : Argument) : String := a.expr.text

/-- The number of parameters, for a lambda. -/
def parameterCount? : Argument → Option Nat
  | .lambda parameters _ _ => some parameters.length
  | .value _ _ => none

/-- Binds the argument as a value. A lambda is none. -/
def bindValue : Argument → BindM Term
  | a@(.lambda _ _ _) => .unsupported a.text
  | .value _ bind => bind

/-- Binds a lambda whose only parameter reads the current element. -/
def bindElement {σ ρ : Type} [Sequence σ ρ] (s : σ) : Argument → BindM Lambda
  | .lambda [parameter] _ bindBody => do
      let var := serverVar parameter
      let body ← BindM.within [(parameter, Sequence.item s var)] bindBody
      return ⟨var, body⟩
  | a => .unsupported a.text

/-- Binds a lambda with two parameters, which stand for two given terms. -/
def bindPair (first second : String → Term) : Argument → BindM Lambda
  | .lambda [a, b] _ bindBody => do
      let body ← BindM.within [(a, first b), (b, second b)] bindBody
      return ⟨b, body⟩
  | a => .unsupported a.text

end Argument

namespace Call

/-- The text of a call. -/
def text (call : Call Argument) : String :=
  Expr.callText (call.withArguments (call.arguments.map Argument.expr))

/-- The argument at a position. -/
def argument (call : Call Argument) (i : Nat) : BindM Argument :=
  match call.arguments[i]? with
  | some a => return a
  | none => .unsupported call.text

/-- The first argument, bound as a lambda over the element. -/
def lambda {σ ρ : Type} [Sequence σ ρ] (call : Call Argument) (s : σ) : BindM Lambda := do
  (← call.argument 0).bindElement s

/-- The first argument, bound as a value. -/
def value (call : Call Argument) : BindM Term := do
  (← call.argument 0).bindValue

/-- The first argument, if there is one, bound as a lambda over the element. -/
def optionalLambda {σ ρ : Type} [Sequence σ ρ] (call : Call Argument) (s : σ) :
    BindM (Option Lambda) :=
  match call.arguments with
  | [] => return none
  | a :: _ => some <$> a.bindElement s

/-- A number of elements: a constant integer that is not negative. -/
def count (call : Call Argument) : BindM Nat := do
  let a ← call.argument 0
  match a with
  | .value (.const (.int32 n) _) _ => ofInt n.toInt
  | .value (.const (.int64 n) _) _ => ofInt n.toInt
  | _ => .unsupported a.text
where
  ofInt (n : Int) : BindM Nat := if n < 0 then .unsupported call.text else return n.toNat

/-- The class that the first type argument names. -/
def classMap (call : Call Argument) (registry : Registry) : BindM ClassMap :=
  match call.typeArguments with
  | .document name :: _ =>
    match registry.class? name with
    | some c => return c
    | none => throw (.unknownType name)
  | _ => .unsupported call.text

end Call

end QueryPipeline
