import QueryPipeline.Options
import QueryPipeline.Proofs.GroupProjection
import QueryPipeline.Proofs.Semantics.Query

/-!
What queries that end with one value mean to their author, and how the value comes back.
The call that ends a query may narrow the values first, by a predicate or by dropping some
of them; then it counts them, says whether there are any, or picks the first or the last
one.

The server does it with one group of all rows. There is no group of no rows, so nothing
comes back then. `Engine.Reduces` says what the server's own part of it is: how rows are put
into that group, and what its accumulators give for rows that there are.
-/

namespace QueryPipeline

/-! ### Answers -/

/-- A value as its reader takes it: an integer in the width of its codec, and what is
missing as null. -/
def Codec.read : Codec → Option Value → Value
  | _, none => .null
  | .scalar .int64, some (.int32 n) => .int64 n.toInt64
  | _, some v => v

theorem Codec.read_getD (codec : Codec) (v : Option Value) :
    codec.read (some (v.getD .null)) = codec.read v := by
  cases v with
  | none =>
    unfold Codec.read
    split <;> simp_all
  | some v => rfl

/-- Only 64-bit integers are read in another width. -/
theorem Codec.read_some {codec : Codec} (h : codec ≠ .int64) (v : Value) :
    codec.read (some v) = v := by
  unfold Codec.read
  split
  · simp_all
  · exact absurd rfl h
  · simp_all

/-- A number of elements, read as a 64-bit integer. -/
theorem Codec.read_count (n : Nat) :
    Codec.int64.read (some (.count n)) = .int64 (.ofInt (Nat.min n 9223372036854775807 : Nat)) := by
  unfold Value.count
  split
  · rename_i small
    have wide : (Int32.ofInt n).toInt64 = Int64.ofInt n := by
      apply Int64.toInt_inj.mp
      rw [Int32.toInt_toInt64, Int32.toInt_ofInt_of_le (by omega) (by omega),
        Int64.toInt_ofInt_of_le (by omega) (by omega)]
    have least : Nat.min n 9223372036854775807 = n := Nat.min_eq_left (by omega)
    rw [least]
    exact congrArg Value.int64 wide
  · rfl

/-- The answer that a row holds. -/
def DecodedRow.answer? : DecodedRow → Option Value
  | .value codec v => some (codec.read v)
  | _ => none

/-- The answer to a query that ends with a result, if its values have one. -/
def TerminalKind.answer? (kind : TerminalKind) (vs : Values) : Option Value :=
  match kind with
  | .count => some (.count vs.items.length)
  | .longCount => some (.int64 (.ofInt (Nat.min vs.items.length 9223372036854775807 : Nat)))
  | .any => some (.bool !vs.items.isEmpty)
  | .first => vs.items.head?.map vs.shape.codec.read
  | .firstOrDefault => some (vs.items.head?.elim .null vs.shape.codec.read)
  | .last => vs.items.getLast?.map vs.shape.codec.read
  | .lastOrDefault => some (vs.items.getLast?.elim .null vs.shape.codec.read)
  | _ => none

/-! ### Endings -/

/-- How a query ends: its values are narrowed, and what is left is reduced. -/
structure Ending where
  narrowing : Option Clause
  kind : TerminalKind

namespace Ending

/-- The results that a method without arguments, or with a predicate, asks for. -/
def kind? (name : String) : Option TerminalKind :=
  match name with
  | "Count" => some .count
  | "LongCount" => some .longCount
  | "Any" => some .any
  | "First" => some .first
  | "FirstOrDefault" => some .firstOrDefault
  | "Last" => some .last
  | "LastOrDefault" => some .lastOrDefault
  | _ => none

/-- The ending that a call is written for. A value is contained if an equal one is left
when all others are not kept, and the element a number of elements from the front is the
first one when that many are dropped. -/
def ofCall? (call : Call Expr) : Option Ending :=
  match call.arguments with
  | [] => (kind? call.name).map (⟨none, ·⟩)
  | [.lambda [parameter] predicate] =>
      (kind? call.name).map (⟨some (.filter parameter predicate), ·⟩)
  | [.const v type] =>
      if call.name = "Contains" then
        some ⟨some (.filter "x" (.binary .eq (.param "x") (.const v type))), .any⟩
      else do
        let (_, n) ← v.integer?
        if n < 0 then none
        else if call.name = "ElementAt" then some ⟨some (.skip n.toNat), .first⟩
        else if call.name = "ElementAtOrDefault" then
          some ⟨some (.skip n.toNat), .firstOrDefault⟩
        else none
  | _ => none

/-- The values that are left to reduce. -/
def narrow? (engine : Engine) (registry : Registry) (vs : Values) (e : Ending) :
    Option Values :=
  match e.narrowing with
  | some clause => clause.apply engine registry vs
  | none => some vs

/-- The number of elements that narrowing drops from the front. -/
def skipped (e : Ending) : Nat := e.narrowing.elim 0 Clause.skipped

end Ending

/-- Whether the lambdas among the arguments of a call hold no sub-query. -/
def Call.hasPlainBodies (call : Call Expr) : Bool :=
  call.arguments.all fun
    | .lambda _ body => body.isPlain
    | _ => true

/-- The values that clauses leave of the documents of a collection, narrowed by the call that
ends the query. -/
def Query.left? (engine : Engine) (registry : Registry) (q : Query) (clauses : List (Call Expr))
    (ending : Ending) (rows : List Value) : Option Values := do
  let codec ← registry.codec? q.itemType
  let vs ← Clause.applyAll engine registry ⟨.stored codec, rows.map some⟩ clauses
  ending.narrow? engine registry vs

/-! ### Reduction by the server -/

/-- How the server groups all rows under one key, and what it computes for them: it counts
rows by adding ones, and an accumulator that picks a row gives null for a missing value. -/
structure Engine.Reduces (engine : Engine) : Prop where
  groups (rows : List Value) :
    engine.groups (.int32 1) rows = if rows.isEmpty then [] else [(some (.int32 1), rows)]
  count (row : Value) (rows : List Value) :
    engine.accumulate .count (.int32 1) (row :: rows) = some (.count (row :: rows).length)
  max_true (row : Value) (rows : List Value) :
    engine.accumulate .max (.bool true) (row :: rows) = some (.bool true)
  first (t : Term) (row : Value) (rows : List Value) :
    engine.accumulate .first t (row :: rows) = some ((t.valueIn engine row).getD .null)
  last (t : Term) (rows : List Value) (row : Value) :
    engine.accumulate .last t (rows ++ [row]) = some ((t.valueIn engine row).getD .null)

/-! ### An engine that reduces rows -/

namespace Engine

/-- An engine with another way to reduce rows. -/
def withReduction (engine : Engine)
    (groups : Term → List Value → List (Option Value × List Value))
    (accumulate : AccumulatorKind → Term → List Value → Option Value) : Engine :=
  { engine with groups, accumulate }

section Values

variable {engine : Engine} {groups : Term → List Value → List (Option Value × List Value)}
  {accumulate : AccumulatorKind → Term → List Value → Option Value}

mutual
/-- How rows are reduced does not matter for the values of terms. -/
theorem eval_withReduction : (t : Term) → (env : Env) →
    t.eval (engine.withReduction groups accumulate) env = t.eval engine env
  | .const _ _, _ | .field _ _, _ | .item _ _ _, _ | .accumulator _ _ _ _ _, _
  | .grouping _ _ _ _ _, _ => rfl
  | .document fields, env => by
      simp only [Term.eval, evalFields_withReduction fields env]
  | .binary op left right, env => by
      simp only [Term.eval, eval_withReduction left env, eval_withReduction right env]
      rfl
  | .unary op operand, env => by
      simp only [Term.eval, eval_withReduction operand env]
      rfl
  | .cond test ifTrue ifFalse, env => by
      simp only [Term.eval, eval_withReduction test env, eval_withReduction ifTrue env,
        eval_withReduction ifFalse env]
      rfl
  | .filter input var condition, env => by
      simp only [Term.eval, eval_withReduction input env, eval_withReduction condition]
      rfl
  | .map input var body, env => by
      simp only [Term.eval, eval_withReduction input env, eval_withReduction body]
  | .anyTrue array, env | .allTrue array, env => by
      simp only [Term.eval, eval_withReduction array env]
      rfl
  | .setOp op arguments, env => by
      simp only [Term.eval, evalAll_withReduction arguments env]
      rfl
  | .size array, env | .slice array _, env => by
      simp only [Term.eval, eval_withReduction array env]
  | .contained value array, env => by
      simp only [Term.eval, eval_withReduction value env, eval_withReduction array env]
      rfl
  | .elemAt array position, env => by
      simp only [Term.eval, eval_withReduction array env, eval_withReduction position env]
  | .reduce op input _, env => by
      simp only [Term.eval, eval_withReduction input env]
      rfl
  | .sortArray input keys, env => by
      simp only [Term.eval, eval_withReduction input env]
      rfl
  | .getField input name _, env => by
      simp only [Term.eval, eval_withReduction input env]
      rfl

theorem evalAll_withReduction : (ts : List Term) → (env : Env) →
    Term.evalAll (engine.withReduction groups accumulate) env ts = Term.evalAll engine env ts
  | [], _ => rfl
  | t :: ts, env => by
      simp only [Term.evalAll, eval_withReduction t env, evalAll_withReduction ts env]

theorem evalFields_withReduction : (fields : List (String × Term)) → (env : Env) →
    Term.evalFields (engine.withReduction groups accumulate) env fields =
      Term.evalFields engine env fields
  | [], _ => rfl
  | (_, t) :: rest, env => by
      simp only [Term.evalFields, eval_withReduction t env, evalFields_withReduction rest env]
end

end Values

/-- The folding engine, with one group of all rows whatever the key is. -/
def reducing : Engine :=
  folding.withReduction
    (fun id rows => if rows.isEmpty then [] else [(id.valueIn folding .null, rows)])
    (fun kind source rows =>
      match kind with
      | .count => some (.count rows.length)
      | .last => some ((rows.getLast?.bind (source.valueIn folding)).getD .null)
      | _ => some ((rows.head?.bind (source.valueIn folding)).getD .null))

theorem exact_reducing : reducing.Exact := ⟨fun h => h, fun h => h, fun _ => rfl⟩

theorem reduces_reducing : reducing.Reduces where
  groups rows := rfl
  count row rows := rfl
  max_true row rows := rfl
  first t row rows := by
    rw [Term.valueIn, reducing, eval_withReduction]
    rfl
  last t rows row := by
    rw [Term.valueIn, reducing, eval_withReduction]
    simp [withReduction, Term.valueIn]

end Engine

end QueryPipeline
