import QueryPipeline.Accumulation
import QueryPipeline.Binding.Query
import QueryPipeline.Emission.Stage
import QueryPipeline.GroupProjection
import QueryPipeline.Options

/-!
Compilation of a query to a command for the server: its clauses are bound to a
pipeline, accumulators are attached to their groups, the pipeline is finished,
and its stages are written down.
-/

namespace QueryPipeline

/-- Why a query cannot be compiled, by the phase that found it. -/
inductive CompileError where
  | bind (e : BindingError)
  | accumulation (e : AccumulationError)
  | emit (e : EmitError)
deriving Repr

/-- What kind of failure a caller has to deal with. The same query fails the
same way every time. -/
inductive FailureKind where
  | unresolvedField
  | unsupportedOperator
  | unsupportedQueryShape
  | ambiguousArraySerialization
deriving DecidableEq, Repr

namespace CompileError

/-- The kind of the failure. -/
def kind : CompileError → FailureKind
  | .bind (.unresolvedMember _ _) => .unresolvedField
  | .bind (.unsupportedOperator _ _ _) => .unsupportedOperator
  | .bind (.unknownItems _) => .ambiguousArraySerialization
  | _ => .unsupportedQueryShape

/-- What the failure is about where no name tells it. -/
def subject? : CompileError → Option Subject
  | .bind _ => none
  | .accumulation e => e.term?.map .term
  | .emit e => e.subject?

/-- The failure in the words of its phase, without its subject. -/
def detail : CompileError → String
  | .bind e => e.message
  | .accumulation e => e.message
  | .emit e => e.message

/-- The failure, with its phase in front and without its subject. -/
def message : CompileError → String
  | .bind e => "bind error: " ++ e.message
  | .accumulation e => "rewrite error: " ++ e.message
  | .emit e => "codegen error: " ++ e.message

/-- A text about the failure, with its subject as it is written out. -/
def withSubject (write : Subject → String) (e : CompileError) (text : String) : String :=
  match e.subject? with
  | none => text
  | some subject => text ++ ": " ++ write subject

/-- The failure in full, in the words of its phase. -/
def detailInFull (write : Subject → String) (e : CompileError) : String :=
  e.withSubject write e.detail

/-- The failure in full, with its phase in front. -/
def messageInFull (write : Subject → String) (e : CompileError) : String :=
  e.withSubject write e.message

/-- Advice to the author of the query. -/
def advice? : CompileError → Option String
  | .bind e => e.advice?
  | .accumulation e => e.advice?
  | .emit e => e.advice?

/-- The number of the failure. -/
def code : CompileError → Nat
  | .bind e => e.code
  | .accumulation e => e.code
  | .emit e => e.code

end CompileError

/-- All that is needed to run a query and to read its rows. -/
structure Command where
  collection : String
  pipeline : List Document
  output : RowCodec
  result : Option TerminalKind
deriving Repr

/-- A plan, with the merging that the options ask for. -/
def Plan.optimized (p : Plan) (options : Options) : Plan :=
  if options.mergeProjection then p.mergeProjection else p

/-- A bound query and the context that binding ends with. -/
def Query.bound (registry : Registry) (q : Query) : Except BindingError Pipeline × Context :=
  (q.bind registry).run.run {}

/-- Compiles a query. -/
def Query.compile (registry : Registry) (options : Options) (q : Query) :
    Except CompileError Command := do
  let (outcome, context) := q.bound registry
  let bound ← outcome.mapError .bind
  let resolved ← (bound.resolveGroups context.minted).mapError .accumulation
  let plan := resolved.plan.optimized options
  let pipeline ← (Stage.emitAll options.queryLanguage plan.stages).mapError .emit
  return {
    collection := q.collection
    pipeline
    output := plan.output
    result := plan.result }

end QueryPipeline
