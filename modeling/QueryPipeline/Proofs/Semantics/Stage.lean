import QueryPipeline.Pipeline
import QueryPipeline.Proofs.Semantics.Term

/-!
What stages do to rows. A group's row holds the key and one field for each value
that the group computes, and a projected row holds the members of the selector, or
its value under a field of its own.
-/

namespace QueryPipeline

/-- The row of a group. -/
def groupRow (engine : Engine) (accumulators : List Accumulator)
    (group : Option Value × List Value) : Value :=
  .document (Document.ofPresent (("_id", group.1) ::
    accumulators.map fun a => (a.output, engine.accumulate a.kind a.source group.2)))

/-- The value of a term for a row, outside any sub-query. -/
def Term.valueIn (engine : Engine) (t : Term) (row : Value) : Option Value :=
  t.eval engine ⟨row, []⟩

/-- A row as a selector projects it. -/
def projectedRow (engine : Engine) (selector : Term) (row : Value) : Value :=
  match selector with
  | .document fields => .document (Document.ofPresent (Term.evalFields engine ⟨row, []⟩ fields))
  | t => .document (Document.ofPresent [(valueField, t.valueIn engine row)])

namespace Stage

/-- The rows that a stage makes of rows. -/
def run (engine : Engine) : Stage → List Value → List Value
  | .filter predicate, rows =>
      rows.filter fun row => engine.isTrue (predicate.valueIn engine row)
  | .project selector, rows => rows.map (projectedRow engine selector)
  | .group id accumulators, rows =>
      (engine.groups id rows).map (groupRow engine accumulators)
  | .sort keys, rows => engine.sortRows keys rows
  | .skip count, rows => rows.drop count
  | .limit count, rows => rows.take count
  | .unwind path, rows => rows.flatMap (engine.unwind path)

/-- The rows that stages, one after the other, make of rows. -/
def runAll (engine : Engine) (stages : List Stage) (rows : List Value) : List Value :=
  stages.foldl (fun rows s => s.run engine rows) rows

variable {engine : Engine}

@[simp] theorem runAll_nil (rows : List Value) : runAll engine [] rows = rows := rfl

theorem runAll_cons (s : Stage) (stages : List Stage) (rows : List Value) :
    runAll engine (s :: stages) rows = runAll engine stages (s.run engine rows) := rfl

theorem runAll_append (stages more : List Stage) (rows : List Value) :
    runAll engine (stages ++ more) rows = runAll engine more (runAll engine stages rows) :=
  List.foldl_append ..

end Stage

/-! ### Paging -/

/-- The elements that a window leaves. -/
def Window.apply {α : Type} (w : Window) (elements : List α) : List α :=
  match w.limit with
  | some limit => (elements.drop w.skipped).take limit
  | none => elements.drop w.skipped

namespace Window

variable {α : Type} (w : Window) (n : Nat) (elements : List α)

/-- Dropping past the end, and dropping to the end, drop the same. -/
theorem drop_advance (h : elements.length ≤ maxOffset ∨ w.skipped + n ≤ maxOffset) :
    elements.drop (w.advance n) = (elements.drop w.skipped).drop n := by
  rw [List.drop_drop, advance]
  by_cases hle : w.skipped + n ≤ maxOffset
  · rw [Nat.min_eq_left hle]
  · have hlength : elements.length ≤ maxOffset := h.resolve_right hle
    rw [Nat.min_eq_right (by omega), List.drop_eq_nil_of_le hlength,
      List.drop_eq_nil_of_le (by omega)]

/-- Skipping narrows the window as dropping narrows what it leaves, as long as the
offset or the elements can be counted. -/
theorem apply_skip (h : elements.length ≤ maxOffset ∨ w.skipped + n ≤ maxOffset) :
    (w.skip n).apply elements = (w.apply elements).drop n := by
  unfold skip
  cases hlimit : w.limit with
  | none => simp [apply, hlimit, drop_advance w n elements h]
  | some limit =>
    by_cases hle : limit ≤ n
    · have hlength : min limit (elements.length - w.skipped) ≤ n := by omega
      simp [apply, hlimit, hle, hlength]
    · simp [apply, hlimit, hle, drop_advance w n elements h, List.drop_take]

/-- Taking narrows the window as taking narrows what it leaves. -/
theorem apply_take : (w.take n).apply elements = (w.apply elements).take n := by
  cases hlimit : w.limit with
  | none => simp [take, apply, hlimit]
  | some limit => simp [take, apply, hlimit, List.take_take, Nat.min_comm]

/-- A step of a window moves its offset by no more than it skips. -/
theorem skipped_skip_le : (w.skip n).skipped ≤ w.skipped + n := by
  unfold skip
  cases w.limit with
  | none => exact Nat.min_le_left ..
  | some limit =>
    by_cases hle : limit ≤ n
    · simp only [hle, ite_true, advance]
      omega
    · simp only [hle, ite_false, advance]
      omega

end Window

/-- The stages of a window leave what the window leaves. -/
theorem Stage.runAll_bounds (engine : Engine) (w : Window) (rows : List Value) :
    runAll engine w.bounds.stages rows = w.apply rows := by
  unfold Window.bounds Window.isEmpty Window.apply
  cases hlimit : w.limit with
  | none =>
    by_cases hskip : 0 < w.skipped
    · simp [Bounds.stages, hskip, runAll, run]
    · have hzero : w.skipped = 0 := by omega
      simp [Bounds.stages, hzero, runAll]
  | some limit =>
    cases limit with
    | zero => simp [Bounds.stages, runAll, run]
    | succ limit =>
      by_cases hskip : 0 < w.skipped
      · simp [Bounds.stages, hskip, runAll, run]
      · have hzero : w.skipped = 0 := by omega
        simp [Bounds.stages, hzero, runAll, run]

end QueryPipeline
