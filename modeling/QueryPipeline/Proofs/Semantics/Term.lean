import QueryPipeline.Proofs.Semantics.Engine
import QueryPipeline.Term.Fold

/-!
The values of terms. A term is evaluated for a row and for the variables that the
sub-queries around it bind. Accumulators and groups have no value of their own:
they stand for fields that a group stage has yet to compute.

Folding keeps values: a folded term has the value of the operator it stands for.
-/

namespace QueryPipeline

/-- What a term is evaluated for: the row, and the values of the variables, the
innermost first. -/
structure Env where
  row : Value
  vars : List (String × Value) := []

namespace Env

/-- Binds a variable. -/
def bind (env : Env) (name : String) (v : Value) : Env :=
  { env with vars := (name, v) :: env.vars }

/-- The innermost value of a variable. -/
def var (env : Env) (name : String) : Option Value := Document.get? name env.vars

end Env

/-- The value a path leads to. -/
def FieldPath.eval (engine : Engine) (env : Env) (p : FieldPath) : Option Value :=
  p.segments.foldl (fun v name => engine.read name v)
    (match p.var with
      | none => some env.row
      | some name => env.var name)

theorem FieldPath.eval_child (engine : Engine) (env : Env) (p : FieldPath) (name : String) :
    (p.child name).eval engine env = engine.read name (p.eval engine env) := by
  simp [FieldPath.child, FieldPath.eval, List.foldl_append]

namespace Value

/-- The item at a position, counted from the end if the position is negative. -/
def itemAt (items : List Value) (position : Int) : Option Value :=
  if 0 ≤ position then items[position.toNat]?
  else if -position ≤ items.length then items[(items.length + position).toNat]?
  else none

end Value

/-- The items that bounds leave of an array. -/
def Bounds.slice (b : Bounds) (items : List Value) : List Value :=
  let rest := items.drop (b.skip.getD 0)
  match b.limit with
  | some limit => rest.take limit
  | none => rest

namespace Term

mutual
/-- The value of a term. -/
def eval (engine : Engine) (env : Env) : Term → Option Value
  | .const v _ => some v
  | .field path _ => path.eval engine env
  | .document fields => some (.document (Document.ofPresent (evalFields engine env fields)))
  | .item _ var _ => env.var var
  | .accumulator .. | .grouping .. => none
  | .binary op left right => engine.binary op (left.eval engine env) (right.eval engine env)
  | .unary op operand => engine.unary op (operand.eval engine env)
  | .cond test ifTrue ifFalse =>
      if engine.isTrue (test.eval engine env) then ifTrue.eval engine env
      else ifFalse.eval engine env
  | .filter input var condition =>
      Value.onItems (fun items => .array (items.filter fun v =>
        engine.isTrue (condition.eval engine (env.bind var v)))) (input.eval engine env)
  | .map input var body =>
      Value.onItems (fun items => .array (items.map fun v =>
        (body.eval engine (env.bind var v)).getD .null)) (input.eval engine env)
  | .anyTrue array =>
      Value.onItems (fun items => .bool (items.any fun v => engine.isTrue (some v)))
        (array.eval engine env)
  | .allTrue array =>
      Value.onItems (fun items => .bool (items.all fun v => engine.isTrue (some v)))
        (array.eval engine env)
  | .setOp op arguments => engine.setOp op (evalAll engine env arguments)
  | .size array => Value.size (array.eval engine env)
  | .contained value array =>
      Value.onItems (fun items => .bool (items.any fun v =>
        engine.isTrue (engine.binary .eq (value.eval engine env) (some v))))
        (array.eval engine env)
  | .elemAt array position =>
      match array.eval engine env, (position.eval engine env).bind Value.integer? with
      | some (.array items), some (_, n) => Value.itemAt items n
      | _, _ => none
  | .slice array bounds =>
      Value.onItems (fun items => .array (bounds.slice items)) (array.eval engine env)
  | .reduce op input _ => engine.reduce op (input.eval engine env)
  | .sortArray input keys =>
      Value.onItems (fun items => .array (engine.sortItems keys items))
        (input.eval engine env)
  | .getField input name _ => engine.read name (input.eval engine env)

def evalAll (engine : Engine) (env : Env) : List Term → List (Option Value)
  | [] => []
  | t :: ts => t.eval engine env :: evalAll engine env ts

def evalFields (engine : Engine) (env : Env) :
    List (String × Term) → List (String × Option Value)
  | [] => []
  | (name, t) :: rest => (name, t.eval engine env) :: evalFields engine env rest
end

variable {engine : Engine} {env : Env}

theorem evalFields_eq (fields : List (String × Term)) :
    evalFields engine env fields = fields.map fun f => (f.1, f.2.eval engine env) := by
  induction fields with
  | nil => rfl
  | cons f fields ih => simp [evalFields, ih]

theorem map_fst_evalFields (fields : List (String × Term)) :
    (evalFields engine env fields).map Prod.fst = fields.map Prod.fst := by
  simp [evalFields_eq, Function.comp_def]

/-! ### Folding -/

section Folding

variable (exact : engine.Exact)
include exact

theorem eval_foldUnary (op : UnaryOp) (operand : Term) :
    (foldUnary op operand).eval engine env =
      engine.unary op (operand.eval engine env) := by
  unfold foldUnary
  split
  · rename_i v codec
    split
    · rename_i w folded
      simp [eval, exact.unary folded]
    · simp [eval]
  · simp [eval]

theorem eval_foldBinary (op : BinaryOp) (left right : Term) :
    (foldBinary op left right).eval engine env =
      engine.binary op (left.eval engine env) (right.eval engine env) := by
  unfold foldBinary
  split
  · rename_i l lcodec r rcodec
    split
    · rename_i w folded
      simp [eval, exact.binary folded]
    · simp [eval]
  · simp [eval]

theorem eval_foldCond (test ifTrue ifFalse : Term) :
    (foldCond test ifTrue ifFalse).eval engine env =
      if engine.isTrue (test.eval engine env) then ifTrue.eval engine env
      else ifFalse.eval engine env := by
  unfold foldCond
  split
  · rename_i b codec
    simp only [eval, exact.isTrue_bool]
    split <;> rfl
  · simp [eval]

end Folding

end Term

end QueryPipeline
