import QueryPipeline.Binding.Context
import QueryPipeline.Operator

/-!
Sequences that operators are applied to. There are three kinds: the rows of a
pipeline, the items of an array inside a document, and the rows of a group.
Each kind says what it can be turned into; what it cannot do is refused, with
the text of the call that asked for it.
-/

namespace QueryPipeline

/-- The body of a bound lambda, with the variable that reads the element. -/
structure Lambda where
  var : String
  body : Term
deriving Repr

/-- What an operator makes of a sequence: another sequence, or the end. -/
inductive Applied (σ ρ : Type) where
  | sequence (s : σ)
  | terminal (r : ρ)

/-- Refuses an operator. -/
def refuse {α : Type} (site : String) : Except BindingError α :=
  .error (.unsupportedShape site)

/-- The variable that reads the element a membership test looks at. -/
def containedVar : String := "x"

/-- What sequences of type `σ` can be turned into; a query or a sub-query that
ends gives a `ρ`. Texts are those of the call. -/
class Sequence (σ : Type) (ρ : outParam Type) where
  /-- How a lambda with a variable reads the current element. -/
  item : σ → String → Term
  /-- A sort that was open for further keys is closed. -/
  closeSort : σ → σ := id
  /-- Keeps the elements that satisfy a predicate. -/
  filter : σ → Lambda → String → Except BindingError σ := fun _ _ site => refuse site
  /-- Replaces each element by what a selector makes of it. -/
  project : σ → Lambda → String → Except BindingError σ := fun _ _ site => refuse site
  /-- Flattens an array of the current element; also says how the item is read. -/
  unwind : σ → Term → String → Except BindingError (σ × Term) := fun _ _ site => refuse site
  /-- Groups by a key, the elements being what a selector makes of them. -/
  groupBy : σ → Lambda → Option Lambda → String → Except BindingError σ :=
    fun _ _ _ site => refuse site
  /-- Keeps equal elements once. -/
  distinct : σ → String → Except BindingError σ := fun _ site => refuse site
  /-- Sorts by a key. -/
  sortBy : σ → Lambda → Direction → String → Except BindingError σ :=
    fun _ _ _ site => refuse site
  /-- Adds a key to an open sort. -/
  thenBy : σ → Lambda → Direction → String → Except BindingError σ :=
    fun _ _ _ site => refuse site
  /-- Drops elements from the front. -/
  skip : σ → Nat → String → Except BindingError σ := fun _ _ site => refuse site
  /-- Keeps elements at the front. -/
  take : σ → Nat → String → Except BindingError σ := fun _ _ site => refuse site
  /-- Keeps the documents of a class. -/
  ofType : σ → ClassMap → String → Except BindingError σ := fun _ _ site => refuse site
  /-- An operation with a second sequence as sets. -/
  combine : σ → SetOp → Term → String → Except BindingError σ :=
    fun _ _ _ site => refuse site
  /-- Collects the elements; there is nothing to do where they are collected
  anyway. -/
  collect : σ → String → BindM (Applied σ ρ) := fun s _ => return .sequence s
  /-- Whether there is an element, or one that satisfies a predicate. -/
  any : σ → Option Lambda → String → Except BindingError ρ := fun _ _ site => refuse site
  /-- Whether all elements satisfy a predicate. -/
  all : σ → Lambda → String → Except BindingError ρ := fun _ _ site => refuse site
  /-- Membership means that some element is equal, unless there is a direct
  test. -/
  contains : σ → Term → String → Except BindingError ρ := fun s value site =>
    any s (some ⟨containedVar, .foldBinary .eq (item s containedVar) value⟩) site
  /-- Reduces the elements, or what a selector makes of them. -/
  aggregate : σ → Aggregate → Option Lambda → String → BindM ρ :=
    fun _ _ _ site => .unsupported site
  /-- Picks an element. -/
  element : σ → Pick → String → BindM ρ := fun _ _ site => .unsupported site

end QueryPipeline
