import QueryPipeline.Binding.Sequence
import QueryPipeline.Pipeline

/-!
The rows of a pipeline as a sequence: operators become stages, or change how
the row is read.
-/

namespace QueryPipeline

/-- The element that tells the classes of a family apart. -/
def discriminatorElement : String := "_t"

/-- The field that holds the key of a group's row. -/
def keyField : String := "_id"

/-- How the rows of a group read the key they were grouped by. The members of a
compound key are read one by one, so that they can be named. -/
def Term.asGroupKey (key : Term) : Term :=
  match key with
  | .document fields =>
    .document (fields.map fun (name, t) =>
      (name, .field ((FieldPath.field keyField).child name) t.codec))
  | _ => .field (.field keyField) key.codec

/-- The result that an aggregate asks for. -/
def Aggregate.terminalKind : Aggregate → TerminalKind
  | .count => .count
  | .longCount => .longCount
  | .sum => .sum
  | .average => .average
  | .min => .min
  | .max => .max

/-- The result that picking an element asks for. -/
def Pick.terminalKind : Pick → TerminalKind
  | .first => .first
  | .firstOrDefault => .firstOrDefault
  | .single => .single
  | .singleOrDefault => .singleOrDefault
  | .last => .last
  | .lastOrDefault => .lastOrDefault

/-- How many rows are enough to pick an element. A single element takes two,
so that a second one is seen; the last one takes all. -/
def Pick.rowsNeeded? : Pick → Option Nat
  | .first | .firstOrDefault => some 1
  | .single | .singleOrDefault => some 2
  | .last | .lastOrDefault => none

namespace Pipeline

/-- Ends the pipeline with a result. -/
def withResult (p : Pipeline) (kind : TerminalKind) (source : Term) : Pipeline :=
  { p with result := some ⟨kind, source⟩ }

/-- Keeps the rows that satisfy a predicate. -/
def filter (p : Pipeline) (predicate : Term) : Pipeline := p.flush.push (.filter predicate)

/-- Groups the rows; also gives the position of the group stage. -/
def openGroup (p : Pipeline) (id : Term) : Pipeline × Nat :=
  (p.flush.push (.group id []), p.flush.stages.length)

/-- Flattens an array field of the row. -/
def unwind (p : Pipeline) (collection : Term) (site : String) :
    Except BindingError (Pipeline × Term) :=
  match collection with
  | .field path codec =>
    if path.isRowField then
      match codec with
      | .array (some item) => .ok (p.flush.push (.unwind path), .field path item)
      | .array none => .error (.unknownItems site)
      | _ => refuse site
    else refuse site
  | _ => refuse site

/-- Groups by a key. Groups are not grouped again. -/
def groupBy (p : Pipeline) (key : Term) (element : Term) (site : String) :
    Except BindingError Pipeline :=
  if key.contains Term.isGrouping || element.contains Term.isGrouping then refuse site
  else
    let (grouped, group) := p.openGroup key
    .ok { grouped with projector := .grouping group key.asGroupKey element none false }

/-- Keeps each value once, by grouping by it. -/
def distinct (p : Pipeline) (site : String) : Except BindingError Pipeline :=
  if p.projector.contains Term.isGrouping then refuse site
  else .ok { (p.openGroup p.projector).1 with projector := p.projector.asGroupKey }

/-- Adds a key to the sort that ends the pipeline, if one does. -/
def extendSort? (p : Pipeline) (key : RowKey) : Option Pipeline :=
  match p.stages.getLast? with
  | some (.sort keys) =>
    some { p with stages := p.stages.dropLast ++ [.sort (keys ++ [key])] }
  | _ => none

/-- Keeps the documents of a class. They are told apart by their mark, so the
class must have one and rows must be read as documents. -/
def ofType (p : Pipeline) (c : ClassMap) (site : String) : Except BindingError Pipeline :=
  match c.discriminator, p.projector with
  | some mark, .field path _ =>
    let isMarked :=
      Term.binary .eq (.field (path.child discriminatorElement) .string) (.string mark)
    .ok { p.filter isMarked with projector := .field path (.document c) }
  | _, _ => refuse site

/-- Ends with whether any row is left. -/
def any (p : Pipeline) : Pipeline :=
  { p with paging := p.paging.take 1 }.withResult .any (.bool true)

/-- Ends with an aggregate. Counting adds ones. -/
def aggregate (p : Pipeline) (kind : Aggregate) (source : Term) : Pipeline :=
  match kind with
  | .count | .longCount => p.withResult kind.terminalKind (.int32 1)
  | _ => p.withResult kind.terminalKind source

/-- Ends with an element. -/
def element (p : Pipeline) (kind : Pick) : Pipeline :=
  let paging := (kind.rowsNeeded?).elim p.paging p.paging.take
  { p with paging }.withResult kind.terminalKind p.projector

end Pipeline

instance : Sequence Pipeline Pipeline where
  item p _ := p.projector
  closeSort p := { p with sortOpen := false }
  filter p predicate _ := .ok (p.filter predicate.body)
  project p selector _ := .ok { p with projector := selector.body }
  unwind := Pipeline.unwind
  groupBy p key element site :=
    p.groupBy key.body ((element.map Lambda.body).getD p.projector) site
  distinct := Pipeline.distinct
  sortBy p key direction _ :=
    .ok { p.flush.push (.sort [⟨key.body, direction⟩]) with sortOpen := true }
  thenBy p key direction site :=
    match p.sortOpen, p.extendSort? ⟨key.body, direction⟩ with
    | true, some extended => .ok extended
    | _, _ => refuse site
  skip p n _ := .ok { p with paging := p.paging.skip n }
  take p n _ := .ok { p with paging := p.paging.take n }
  ofType := Pipeline.ofType
  any p predicate _ := .ok (predicate.elim p fun l => p.filter l.body).any
  all p predicate _ := .ok (p.withResult .all predicate.body)
  aggregate p kind selector _ :=
    return p.aggregate kind ((selector.map Lambda.body).getD p.projector)
  element p kind _ := return p.element kind

end QueryPipeline
