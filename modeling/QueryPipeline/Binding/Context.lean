import QueryPipeline.Binding.Error
import QueryPipeline.Codec.Registry
import QueryPipeline.Scopes
import QueryPipeline.Term.Fold

/-!
The state of binding: the parameters in scope, with the terms they stand for,
and how many accumulator names were given out. Names are never given out twice,
not even after a failure, and scopes are closed on every way out.
-/

namespace QueryPipeline

/-- What a parameter stands for while the body of its lambda is bound, and how
many accumulator names are in use. -/
structure Context where
  scopes : Scopes String Term := {}
  minted : Nat := 0
deriving Repr

/-- Binding steps: they may fail, and they keep the context when they do. -/
abbrev BindM (α : Type) := ExceptT BindingError (StateM Context) α

/-- The name of an accumulator. -/
def accumulatorName (n : Nat) : String := "__agg" ++ toString n

namespace BindM

variable {α : Type}

/-- A step that does not touch the context. -/
def ofExcept (outcome : Except BindingError α) : BindM α := ExceptT.mk (pure outcome)

/-- Reports operators and arguments that do not fit together. -/
def unsupported (text : String) : BindM α := throw (.unsupportedShape text)

/-- The next unused accumulator name. -/
def mint : BindM String := do
  let context ← get
  set { context with minted := context.minted + 1 }
  return accumulatorName context.minted

/-- Binds in a scope with some parameters more. The scope is closed whether
the step succeeds or fails. -/
def within (frame : List (String × Term)) (step : BindM α) : BindM α := ExceptT.mk do
  modify fun context => { context with scopes := context.scopes.push frame }
  let outcome ← step.run
  modify fun context => { context with scopes := context.scopes.pop }
  return outcome

/-- The term a parameter stands for. -/
def lookup (name : String) : BindM Term := do
  match (← get).scopes.lookup name with
  | some t => return t
  | none => unsupported name

end BindM

end QueryPipeline
