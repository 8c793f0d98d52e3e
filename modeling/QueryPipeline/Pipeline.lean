import QueryPipeline.Stage
import QueryPipeline.Terminal

/-!
A pipeline while its query is being bound, and the plan it ends as.

Projections leave no stage while a query is bound: the projector says how the
next operator reads the current row. Paging, too, is held back, so that a run
of skips and takes becomes one skip and one limit; whatever has to see the
paged rows writes it out first.
-/

namespace QueryPipeline

/-- A pipeline under construction. -/
structure Pipeline where
  stages : List Stage := []
  /-- How the current row is read. -/
  projector : Term
  result : Option Terminal := none
  paging : Window := {}
  /-- The last operator sorted, so that a further key may follow. -/
  sortOpen : Bool := false
deriving Repr

/-- A pipeline whose stages are final, with the way to read its rows. -/
structure Plan where
  stages : List Stage
  output : RowCodec
  result : Option TerminalKind
deriving Repr

/-- The stages that bounds stand for. -/
def Bounds.stages (b : Bounds) : List Stage :=
  (b.skip.map Stage.skip).toList ++ (b.limit.map Stage.limit).toList

/-- The field that holds the value of a row that is no document. -/
def valueField : String := "_v"

/-- How the values of a projector are read back: documents as such, any other
value from the field that holds it. -/
def Term.rowCodec (projector : Term) : RowCodec :=
  match projector with
  | .field path codec => if path.isRoot then .rows codec else .value valueField codec
  | .document _ => .rows projector.codec
  | _ => .value valueField projector.codec

namespace Pipeline

/-- The pipeline that reads the documents of a collection. -/
def ofRoot (codec : Codec) : Pipeline := { projector := .root codec }

/-- Adds a stage at the end. -/
def push (p : Pipeline) (s : Stage) : Pipeline := { p with stages := p.stages ++ [s] }

/-- Writes out the paging that was held back. -/
def flush (p : Pipeline) : Pipeline :=
  { p with stages := p.stages ++ p.paging.bounds.stages, paging := {} }

/-- The plan of a pipeline: paging is written out, and a projection follows
unless rows are read as they are. -/
def plan (p : Pipeline) : Plan where
  stages := p.flush.stages ++ (if p.projector.isRoot then [] else [.project p.projector])
  output := p.projector.rowCodec
  result := p.result.map Terminal.kind

end Pipeline

end QueryPipeline
