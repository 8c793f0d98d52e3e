import QueryPipeline.Term.Basic

/-!
Transformation of terms from the outside in and back. On the way in a term may
be replaced as a whole; if it is not, its parts are transformed from left to
right, and the term made of the results may be replaced on the way out.
-/

namespace QueryPipeline

/-- What to do with each term of a tree. -/
structure Transform (m : Type → Type) where
  /-- A replacement that is not looked into any further. -/
  enter : Term → m (Option Term)
  /-- What becomes of a term whose parts are transformed. -/
  leave : Term → m Term

/-- Replaces a term as a whole, or leaves the term that its transformed parts make. -/
def Transform.around {m : Type → Type} [Monad m] (r : Transform m) (t : Term)
    (transformed : m Term) : m Term := do
  match ← r.enter t with
  | some replacement => return replacement
  | none => r.leave (← transformed)

namespace Term

variable {m : Type → Type} [Monad m]

mutual
/-- Transforms a term and the terms below it. -/
def transformM (r : Transform m) : Term → m Term
  | .const value codec => r.around (.const value codec) (pure (.const value codec))
  | .field path codec => r.around (.field path codec) (pure (.field path codec))
  | .document fields => r.around (.document fields) do
      pure (.document (← transformFieldsM r fields))
  | .item array var codec => r.around (.item array var codec) do
      pure (.item (← array.transformM r) var codec)
  | .accumulator group kind source output codec =>
    r.around (.accumulator group kind source output codec) do
      pure (.accumulator group kind (← source.transformM r) output codec)
  | .binary op left right => r.around (.binary op left right) do
      let left ← left.transformM r
      let right ← right.transformM r
      pure (.binary op left right)
  | .unary op operand => r.around (.unary op operand) do
      pure (.unary op (← operand.transformM r))
  | .cond test ifTrue ifFalse => r.around (.cond test ifTrue ifFalse) do
      let test ← test.transformM r
      let ifTrue ← ifTrue.transformM r
      let ifFalse ← ifFalse.transformM r
      pure (.cond test ifTrue ifFalse)
  | .filter input var condition => r.around (.filter input var condition) do
      let input ← input.transformM r
      let condition ← condition.transformM r
      pure (.filter input var condition)
  | .map input var body => r.around (.map input var body) do
      let input ← input.transformM r
      let body ← body.transformM r
      pure (.map input var body)
  | .anyTrue array => r.around (.anyTrue array) do pure (.anyTrue (← array.transformM r))
  | .allTrue array => r.around (.allTrue array) do pure (.allTrue (← array.transformM r))
  | .setOp op arguments => r.around (.setOp op arguments) do
      pure (.setOp op (← transformAllM r arguments))
  | .size array => r.around (.size array) do pure (.size (← array.transformM r))
  | .contained value array => r.around (.contained value array) do
      let value ← value.transformM r
      let array ← array.transformM r
      pure (.contained value array)
  | .elemAt array position => r.around (.elemAt array position) do
      let array ← array.transformM r
      let position ← position.transformM r
      pure (.elemAt array position)
  | .slice array bounds => r.around (.slice array bounds) do
      pure (.slice (← array.transformM r) bounds)
  | .reduce op input codec => r.around (.reduce op input codec) do
      pure (.reduce op (← input.transformM r) codec)
  | .sortArray input keys => r.around (.sortArray input keys) do
      pure (.sortArray (← input.transformM r) keys)
  | .getField input name codec => r.around (.getField input name codec) do
      pure (.getField (← input.transformM r) name codec)
  | .grouping group key element none distinct =>
    r.around (.grouping group key element none distinct) do
      let key ← key.transformM r
      let element ← element.transformM r
      pure (.grouping group key element none distinct)
  | .grouping group key element (some predicate) distinct =>
    r.around (.grouping group key element (some predicate) distinct) do
      let key ← key.transformM r
      let element ← element.transformM r
      let predicate ← predicate.transformM r
      pure (.grouping group key element (some predicate) distinct)

def transformAllM (r : Transform m) : List Term → m (List Term)
  | [] => return []
  | t :: ts => do
      let t ← t.transformM r
      let ts ← transformAllM r ts
      return t :: ts

def transformFieldsM (r : Transform m) : List (String × Term) → m (List (String × Term))
  | [] => return []
  | (name, t) :: rest => do
      let t ← t.transformM r
      let rest ← transformFieldsM r rest
      return (name, t) :: rest
end

end Term

end QueryPipeline
