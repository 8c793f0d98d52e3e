import QueryPipeline.Binding.Argument

/-!
What every operator means, whatever the sequence it is applied to. An operator
binds its arguments, lambdas with their parameters reading the elements, and
then turns the sequence into another one or ends it.
-/

namespace QueryPipeline

variable {σ ρ : Type} [Sequence σ ρ]

namespace Operator

/-- Whether a sort that is open for further keys stays open. -/
def keepsSortOpen : Operator → Bool
  | .thenBy _ => true
  | _ => false

/-- The lambda that a flattened sequence is read by: a second lambda is given the
element and the item, and without one the item is the new element. -/
def flattenSelector (collection : Lambda) (outer inner : Term) (call : Call Argument) :
    BindM Lambda :=
  match call.arguments[1]? with
  | some result => result.bindPair (fun _ => outer) (fun _ => inner)
  | none => return ⟨collection.var, inner⟩

/-- Flattening: the items of an array of each element. -/
def flattenStep (s : σ) (call : Call Argument) : BindM σ := do
  let collection ← call.lambda s
  let outer := Sequence.item s collection.var
  let (s, inner) ← BindM.ofExcept (Sequence.unwind s collection.body call.text)
  let selector ← flattenSelector collection outer inner call
  BindM.ofExcept (Sequence.project s selector call.text)

/-- The selectors of a grouping behind its key. Of two arguments the second one
selects elements or, with two parameters, the result; three arguments select
both. Elements are bound at once, the result when there are groups. -/
def groupSelectors (s : σ) (call : Call Argument) : BindM (Option Lambda × Option Argument) :=
  match call.arguments with
  | [_] => return (none, none)
  | [_, second] =>
    if second.parameterCount? = some 2 then return (none, some second)
    else return (some (← second.bindElement s), none)
  | [_, second, third] => return (some (← second.bindElement s), some third)
  | _ => .unsupported call.text

/-- The key of a grouped element. -/
def groupKey : Term → Term
  | .grouping _ key _ _ _ => key
  | t => t

/-- The groups, read by a lambda over their key and their rows. -/
def projectGroups (s : σ) (result : Argument) (site : String) : BindM σ := do
  let selector ← result.bindPair (fun var => groupKey (Sequence.item s var)) (Sequence.item s)
  BindM.ofExcept (Sequence.project s selector site)

/-- Grouping by a key. -/
def groupStep (s : σ) (call : Call Argument) : BindM σ := do
  let key ← call.lambda s
  let (selector, result) ← groupSelectors s call
  let groups ← BindM.ofExcept (Sequence.groupBy s key selector call.text)
  match result with
  | none => return groups
  | some result => projectGroups groups result call.text

/-- The sequence restricted by the first argument, if there is one. -/
def optionalFilter (s : σ) (call : Call Argument) : BindM σ := do
  match ← call.optionalLambda s with
  | some predicate => BindM.ofExcept (Sequence.filter s predicate call.text)
  | none => return s

/-- An operation with a second sequence as sets. -/
def combineStep (s : σ) (op : SetOp) (call : Call Argument) : BindM σ := do
  let other ← call.value
  BindM.ofExcept (Sequence.combine s op other call.text)

/-- The element a number of elements from the front. -/
def elementAtStep (s : σ) (pick : Pick) (call : Call Argument) : BindM ρ := do
  let n ← call.count
  let s ← BindM.ofExcept (Sequence.skip s n call.text)
  Sequence.element s pick call.text

/-- Goes on with a sequence. -/
def next (outcome : Except BindingError σ) : BindM (Applied σ ρ) :=
  .ofExcept (outcome.map .sequence)

/-- Ends the sequence. -/
def done (outcome : Except BindingError ρ) : BindM (Applied σ ρ) :=
  .ofExcept (outcome.map .terminal)

/-- Applies an operator. -/
def apply (registry : Registry) (s : σ) (op : Operator) (call : Call Argument) :
    BindM (Applied σ ρ) := do
  let site := call.text
  let s := if op.keepsSortOpen then s else Sequence.closeSort s
  match op with
  | .filter => next (Sequence.filter s (← call.lambda s) site)
  | .project => next (Sequence.project s (← call.lambda s) site)
  | .flatten => return .sequence (← flattenStep s call)
  | .groupBy => return .sequence (← groupStep s call)
  | .distinct => next (Sequence.distinct s site)
  | .sortBy direction => next (Sequence.sortBy s (← call.lambda s) direction site)
  | .thenBy direction => next (Sequence.thenBy s (← call.lambda s) direction site)
  | .skip => next (Sequence.skip s (← call.count) site)
  | .take => next (Sequence.take s (← call.count) site)
  | .any => done (Sequence.any s (← call.optionalLambda s) site)
  | .all => done (Sequence.all s (← call.lambda s) site)
  | .contains => done (Sequence.contains s (← call.value) site)
  | .aggregate .count => do
    return .terminal (← Sequence.aggregate (← optionalFilter s call) .count none site)
  | .aggregate .longCount => do
    return .terminal (← Sequence.aggregate (← optionalFilter s call) .longCount none site)
  | .aggregate kind => do
    return .terminal (← Sequence.aggregate s kind (← call.optionalLambda s) site)
  | .element pick => return .terminal (← Sequence.element (← optionalFilter s call) pick site)
  | .elementAt => return .terminal (← elementAtStep s .first call)
  | .elementAtOrDefault => return .terminal (← elementAtStep s .firstOrDefault call)
  | .union => return .sequence (← combineStep s .union call)
  | .except => return .sequence (← combineStep s .difference call)
  | .intersect => return .sequence (← combineStep s .intersection call)
  | .ofType => next (Sequence.ofType s (← call.classMap registry) site)
  | .toList | .toArray => Sequence.collect s site
  | .asQueryable => return .sequence s

end Operator

end QueryPipeline
