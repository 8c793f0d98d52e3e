import QueryPipeline.Proofs.Semantics.Ending
import QueryPipeline.Proofs.Semantics.Outline

/-!
What an aggregate of a group means to its author. The elements of the group are a list; each
call of a chain filters or maps the list, and the last call counts what is left, reduces it,
picks an element or collects the elements. A lambda reads the element it is given and the
parameters of the lambdas around the chain.

The server reduces the rows of the group by an accumulator. `Engine.Accumulates` says what
accumulators are relied on for: which values they pass over, and that they keep the order of
rows where it matters.
-/

namespace QueryPipeline

namespace Expr

mutual
/-- Whether an expression has no sub-query in it. -/
def isCallFree : Expr → Bool
  | .const _ _ | .param _ => true
  | .member target _ => target.isCallFree
  | .unary _ operand => operand.isCallFree
  | .binary _ left right => left.isCallFree && right.isCallFree
  | .cond test ifTrue ifFalse =>
      test.isCallFree && ifTrue.isCallFree && ifFalse.isCallFree
  | .new members => allCallFree members
  | .index array position => array.isCallFree && position.isCallFree
  | .call _ _ => false
  | .lambda _ body => body.isCallFree

def allCallFree : List (String × Expr) → Bool
  | [] => true
  | (_, e) :: rest => e.isCallFree && allCallFree rest
end

end Expr

namespace Call

/-- Whether a call filters or maps, without a sub-query in a lambda. -/
def narrowsOrMaps (call : Call Expr) : Bool :=
  ["Where", "Select"].contains call.name && call.arguments.all Expr.isCallFree

/-- Whether a call turns the elements of a group into one value, without a sub-query in a
lambda. -/
def reducesGroup (call : Call Expr) : Bool :=
  ["Count", "LongCount", "Sum", "Average", "Min", "Max", "First", "FirstOrDefault", "Last",
    "LastOrDefault", "ToList", "ToArray"].contains call.name &&
    call.arguments.all Expr.isCallFree

end Call

/-! ### Accumulators -/

/-- What is relied on of the accumulators of a group: each reduces the values that its source
has for the rows. Counts sum their source, sums are not changed by a zero, and averages and
extremes pass over null; the accumulators that pick or collect keep the order of the rows.
A missing value is collected as `missing` says, if at all. -/
structure Engine.Accumulates (engine : Engine)
    (reduce : AccumulatorKind → List (Option Value) → Value) (missing : Option Value) :
    Prop where
  accumulate (kind : AccumulatorKind) (source : Term) (row : Value) (rows : List Value) :
    engine.accumulate kind source (row :: rows) =
      some (reduce kind ((row :: rows).map (source.valueIn engine)))
  isTrue_and (l r : Option Value) :
    engine.isTrue (engine.binary .and l r) = (engine.isTrue l && engine.isTrue r)
  count (vs : List (Option Value)) : reduce .count vs = reduce .sum vs
  sum_ones (n : Nat) : reduce .sum (List.replicate n (some (.int32 1))) = .count n
  sum_zero (us vs : List (Option Value)) :
    reduce .sum (us ++ some (.int32 0) :: vs) = reduce .sum (us ++ vs)
  avg_null (us vs : List (Option Value)) :
    reduce .avg (us ++ some .null :: vs) = reduce .avg (us ++ vs)
  min_null (us vs : List (Option Value)) :
    reduce .min (us ++ some .null :: vs) = reduce .min (us ++ vs)
  max_null (us vs : List (Option Value)) :
    reduce .max (us ++ some .null :: vs) = reduce .max (us ++ vs)
  first (v : Option Value) (vs : List (Option Value)) :
    reduce .first (v :: vs) = v.getD .null
  last (vs : List (Option Value)) (v : Option Value) :
    reduce .last (vs ++ [v]) = v.getD .null
  push (vs : List (Option Value)) :
    reduce .push vs = .array (vs.filterMap (·.or missing))

/-! ### Elements -/

/-- The elements of a group, and what is known of all of them. -/
structure GroupElements where
  outline : Outline
  data : List Datum

/-- Whether the element that a row gives counts. -/
def Group.counts (engine : Engine) (g : Group) (row : Value) : Bool :=
  g.predicate.all fun predicate => engine.isTrue (predicate.valueIn engine row)

/-- The elements that rows of a group give. -/
def Group.elements (engine : Engine) (g : Group) (rows : List Value) : GroupElements where
  outline := g.element.outline
  data := (rows.filter (g.counts engine)).map fun row => g.element.datum engine ⟨row, []⟩

namespace GroupElements

/-- The number of elements. -/
def count (es : GroupElements) : Nat := es.data.length

/-- The elements as they are stored. -/
def values (es : GroupElements) : List (Option Value) := es.data.map Datum.stored

section Chain

variable (engine : Engine) (registry : Registry) (scope : String → Option Outline) (outer : Data)

/-- What a lambda makes of the elements. The parameters around it have outlines, and stand for
data. -/
def map? (es : GroupElements) : Expr → Option GroupElements
  | .lambda [parameter] body => do
      let m ← body.meaning? engine registry (fun _ _ => none)
        (Function.update scope parameter (some es.outline))
      let data ← es.data.mapM fun d => m.datum (Function.update outer parameter (some d))
      return ⟨m.outline, data⟩
  | _ => none

/-- The elements for which a lambda is true. -/
def filter? (es : GroupElements) (predicate : Expr) : Option GroupElements := do
  let answers ← es.map? engine registry scope outer predicate
  return { es with
    data := ((es.data.zip answers.data).filter fun p => engine.isTrue p.2.stored).map Prod.fst }

/-- The elements after a call that filters or maps. -/
def after? (es : GroupElements) (call : Call Expr) : Option GroupElements :=
  match call.name, call.arguments with
  | "Where", [predicate] => es.filter? engine registry scope outer predicate
  | "Select", [selector] => es.map? engine registry scope outer selector
  | _, _ => none

/-- The elements after the calls of a chain. -/
def afterAll? (es : GroupElements) (chain : List (Call Expr)) : Option GroupElements :=
  chain.foldlM (fun es call => es.after? engine registry scope outer call) es

/-- The elements after a step that a lambda is given for, or is not. -/
def optionally? (step : GroupElements → Expr → Option GroupElements) (es : GroupElements) :
    List Expr → Option GroupElements
  | [] => some es
  | [lambda] => step es lambda
  | _ => none

variable (reduce : AccumulatorKind → List (Option Value) → Value) (missing : Option Value)

/-- What a reduction makes of the elements, as the codec of the elements reads it. -/
def reducedBy? (es : GroupElements) (kind : AccumulatorKind) (arguments : List Expr) :
    Option Value := do
  let es ← optionally? (map? engine registry scope outer) es arguments
  return es.outline.codec.read (some (reduce kind es.values))

/-- What a method makes of the elements in the end. -/
def reduced? (es : GroupElements) (method : String) (arguments : List Expr) : Option Value :=
  match method with
  | "Count" => do
      let es ← optionally? (filter? engine registry scope outer) es arguments
      return .count es.count
  | "LongCount" => do
      let es ← optionally? (filter? engine registry scope outer) es arguments
      return .int64 (.ofInt (Nat.min es.count 9223372036854775807 : Nat))
  | "Sum" => es.reducedBy? engine registry scope outer reduce .sum arguments
  | "Average" => do
      let es ← optionally? (map? engine registry scope outer) es arguments
      return reduce .avg es.values
  | "Min" => es.reducedBy? engine registry scope outer reduce .min arguments
  | "Max" => es.reducedBy? engine registry scope outer reduce .max arguments
  | "First" | "FirstOrDefault" => do
      let es ← optionally? (filter? engine registry scope outer) es arguments
      es.values.head?.map es.outline.codec.read
  | "Last" | "LastOrDefault" => do
      let es ← optionally? (filter? engine registry scope outer) es arguments
      es.values.getLast?.map es.outline.codec.read
  | "ToList" | "ToArray" => some (.array (es.values.filterMap (·.or missing)))
  | _ => none

/-- The answer of a chain that the last call ends. -/
def answer? (es : GroupElements) (chain : List (Call Expr)) (last : Call Expr) : Option Value := do
  let left ← es.afterAll? engine registry scope outer chain
  left.reduced? engine registry scope outer reduce missing last.name last.arguments

end Chain

end GroupElements

/-- The value that an accumulator of a group stage has over rows, as its reader takes it. -/
def Term.over? (engine : Engine) (stage : Nat) (rows : List Value) : Term → Option Value
  | .accumulator group kind source _ codec =>
      if group = stage then some (codec.read (engine.accumulate kind source rows)) else none
  | _ => none

/-! ### An engine that totals rows -/

namespace Value

/-- The values that are neither missing nor null. -/
def present : List (Option Value) → List Value :=
  List.filterMap fun
    | some .null => none
    | v => v

/-- The total of the integers among values. -/
def total (vs : List Value) : Int :=
  (vs.filterMap fun v => v.integer?.map Prod.snd).foldr (fun n rest => n + rest) 0

/-- A total as a value, the greatest 64-bit integer at most. -/
def ofTotal (n : Int) : Value :=
  if n < 2147483648 then .int32 (.ofInt n)
  else .int64 (.ofInt (min n 9223372036854775807))

/-- The value that comes before all others in an order, or after them. -/
def extreme (order : Ordering) : List Value → Value
  | [] => .null
  | v :: vs => vs.foldl (fun a b => if b.compare? a = some order then b else a) v

/-- What accumulators make of values. An average is given where it is an integer. -/
def accumulated (kind : AccumulatorKind) (vs : List (Option Value)) : Value :=
  match kind with
  | .count | .sum => ofTotal (total (present vs))
  | .avg =>
      (foldBinary .divide (ofTotal (total (present vs))) (count (present vs).length)).getD .null
  | .min => extreme .lt (present vs)
  | .max => extreme .gt (present vs)
  | .first => vs.head?.join.getD .null
  | .last => vs.getLast?.join.getD .null
  | .push | .addToSet => .array (vs.filterMap id)

theorem present_null (us vs : List (Option Value)) :
    present (us ++ some .null :: vs) = present (us ++ vs) := by
  simp [present, List.filterMap_append]

theorem present_zero (us vs : List (Option Value)) :
    total (present (us ++ some (.int32 0) :: vs)) = total (present (us ++ vs)) := by
  simp [present, total, integer?, List.filterMap_append]

theorem total_ones (n : Nat) : total (present (List.replicate n (some (.int32 1)))) = n := by
  induction n with
  | zero => rfl
  | succ n ih =>
    have one : total (present (some (.int32 1) :: List.replicate n (some (.int32 1)))) =
        1 + total (present (List.replicate n (some (.int32 1)))) := rfl
    rw [List.replicate_succ, one, ih]
    omega

theorem ofTotal_natCast (n : Nat) : ofTotal n = .count n := by
  unfold ofTotal count
  by_cases small : n < 2147483648
  · rw [if_pos small, if_pos (by omega)]
  · rw [if_neg small, if_neg (by omega)]
    congr 2
    omega

end Value

namespace Engine

/-- The folding engine, with accumulators that total, pick and collect values. -/
def totalling : Engine :=
  folding.withReduction (fun _ _ => [])
    fun kind source rows => some (Value.accumulated kind (rows.map (source.valueIn folding)))

theorem exact_totalling : totalling.Exact := ⟨fun h => h, fun h => h, fun _ => rfl⟩

/-- Only truth values are joined to one. -/
theorem isTrue_and_folding (l r : Option Value) :
    folding.isTrue (folding.binary .and l r) = (folding.isTrue l && folding.isTrue r) := by
  cases l with
  | none => rfl
  | some a =>
    cases r with
    | none => exact (Bool.and_false _).symm
    | some b =>
      change folding.isTrue (Value.foldBinary .and a b) = _
      cases a with
      | bool x =>
        cases b with
        | bool y => rfl
        | _ => exact (Bool.and_false _).symm
      | int32 | int64 => cases b <;> rfl
      | _ => rfl

theorem accumulates_totalling : totalling.Accumulates Value.accumulated none where
  accumulate kind source row rows := by
    have same : source.valueIn totalling = source.valueIn folding :=
      funext fun row => eval_withReduction source ⟨row, []⟩
    rw [same]
    rfl
  isTrue_and := isTrue_and_folding
  count _ := rfl
  sum_ones n := by
    rw [Value.accumulated, Value.total_ones, Value.ofTotal_natCast]
  sum_zero us vs := by rw [Value.accumulated, Value.accumulated, Value.present_zero]
  avg_null us vs := by rw [Value.accumulated, Value.accumulated, Value.present_null]
  min_null us vs := by rw [Value.accumulated, Value.accumulated, Value.present_null]
  max_null us vs := by rw [Value.accumulated, Value.accumulated, Value.present_null]
  first v vs := rfl
  last vs v := by simp [Value.accumulated]
  push vs := by simp [Value.accumulated]

end Engine

end QueryPipeline
