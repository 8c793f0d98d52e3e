import QueryPipeline.Binding.Rows

/-!
Attaching accumulators. Binding leaves accumulators as terms wherever their
values are read. Here each of them becomes a field of its group's row, and its
group stage is told to compute it; equal accumulators of a group are computed
once. A group that is read as a value becomes a record of its key and its
elements, and a result that reduces all rows gets a group of its own.
-/

namespace QueryPipeline

/-- Why accumulators cannot be attached. -/
inductive AccumulationError where
  /-- The filtered elements of a group are read as a value. -/
  | filteredGroup (element : Term)
  /-- An aggregate of a group is taken of the group itself. -/
  | nestedGroup (source : Term)
  /-- An accumulator names a stage that is no group. -/
  | notAGroup (output : String)
  /-- Two values of a record would have one name. -/
  | duplicateField (name : String)
deriving Repr

namespace AccumulationError

/-- What has failed, without its subject. -/
def message : AccumulationError → String
  | .filteredGroup _ => "a grouping filtered by a predicate must be aggregated"
  | .nestedGroup _ => "a grouping cannot be nested inside an aggregate"
  | .notAGroup output => "accumulator refers to a stage that is not a group: " ++ output
  | .duplicateField name => "duplicate output field: " ++ name

/-- What the failure is about: the elements of a group, or the source of an aggregate. -/
def term? : AccumulationError → Option Term
  | .filteredGroup element => some element
  | .nestedGroup source => some source
  | .notAGroup _ | .duplicateField _ => none

/-- Advice to the author of the query. -/
def advice? : AccumulationError → Option String
  | .filteredGroup _ =>
      some "A filtered group must be reduced with Count, Sum, Average, Min or Max."
  | .nestedGroup _ => some "Groups of groups cannot be expressed in one pipeline."
  | .notAGroup _ | .duplicateField _ => none

/-- The number of the failure. -/
def code : AccumulationError → Nat
  | .filteredGroup _ => 2001
  | .nestedGroup _ => 2002
  | .notAGroup _ => 2003
  | .duplicateField _ => 2004

end AccumulationError

/-! ### Groups read as values -/

/-- While groups are turned into records: the number of the next accumulator
name, and the failure met last. -/
structure GroupNaming where
  next : Nat
  fault : Option AccumulationError := none

/-- The record of a group's key and its elements, with a new name for the
accumulator that collects them. A filtered group has no accumulator that would
leave elements out. -/
def groupRecord (stage : Nat) (key element : Term) (predicate : Option Term)
    (distinct : Bool) : StateM GroupNaming Term := do
  if predicate.isSome then
    modify fun s => { s with fault := some (.filteredGroup element) }
    return .grouping stage key element predicate distinct
  else
    let name := accumulatorName (← get).next
    modify fun s => { s with next := s.next + 1 }
    let kind := if distinct then AccumulatorKind.addToSet else .push
    let elements : Term := .accumulator stage kind element name (.arrayOf element.codec)
    match UniqueMap.ofList [("Key", key), ("Elements", elements)] with
    | .ok members => return .ofMembers members
    | .error e =>
      modify fun s => { s with fault := some (.duplicateField e.key) }
      return .const .null .dynamic

/-- Turns the groups of a term into records. Accumulators read the elements of
their group themselves, so nothing below them is touched. -/
def groupsToRecords : Transform (StateM GroupNaming) where
  enter
    | .grouping stage key element predicate distinct =>
      some <$> groupRecord stage key element predicate distinct
    | t@(.accumulator ..) => return some t
    | _ => return none
  leave t := return t

/-! ### Accumulators -/

/-- While accumulators are attached: those found so far, in the order in which
their groups have to compute them, and the failure met last. -/
structure Attachments where
  found : List Accumulator := []
  fault : Option AccumulationError := none

/-- Whether a term aggregates the group of a stage, or reads a group as such. -/
def Term.dependsOnGroup (stage : Nat) : Term → Bool
  | .accumulator group .. => group == stage
  | .grouping .. => true
  | _ => false

/-- Why an accumulator cannot be attached to its group. The positions are those
of the group stages. -/
def Accumulator.fault? (groups : List Nat) (a : Accumulator) : Option AccumulationError :=
  if a.source.contains (Term.dependsOnGroup a.group) then some (.nestedGroup a.source)
  else if groups.contains a.group then none
  else some (.notAGroup a.output)

/-- The field that holds the value of an accumulator: that of an equal one found
before, else its own. -/
def computedField (a : Accumulator) : StateM Attachments Term := do
  let s ← get
  let equal := s.found.find? fun b =>
    b.group == a.group && b.kind == a.kind && b.source.same a.source
  match equal with
  | some b => return .field (.field b.output) a.codec
  | none =>
    set { s with found := s.found ++ [a] }
    return .field (.field a.output) a.codec

/-- Replaces accumulators by the fields that hold their values. One that cannot
be attached stays; otherwise its source is transformed first, since it may read
the values of groups before. -/
def accumulatorsToFields (groups : List Nat) : Transform (StateM Attachments) where
  enter
    | .accumulator group kind source output codec =>
      match Accumulator.fault? groups ⟨group, kind, source, output, codec⟩ with
      | some fault => do
        modify fun s => { s with fault := some fault }
        return some (.accumulator group kind source output codec)
      | none => return none
    | _ => return none
  leave
    | .accumulator group kind source output codec =>
      computedField ⟨group, kind, source, output, codec⟩
    | t => return t

/-- The positions of the group stages. -/
def groupPositions (stages : List Stage) : List Nat :=
  stages.zipIdx.filterMap fun (s, i) => if s.isGroup then some i else none

/-- The stages with the accumulators that each group has to compute, after those
that it computes already. -/
def withAccumulators (stages : List Stage) (found : List Accumulator) : List Stage :=
  stages.zipIdx.map fun (s, i) =>
    match s with
    | .group id accumulators => .group id (accumulators ++ found.filter (·.group == i))
    | s => s

/-! ### Results -/

/-- The field that holds the value of a result. -/
def resultField : String := "__result"

/-- The codec of a result of a source. -/
def Terminal.codec (r : Terminal) : Codec :=
  match r.kind with
  | .count => .int32
  | .longCount => .int64
  | .average => .double
  | .any | .all => .boolean
  | _ => r.source.codec

namespace Pipeline

/-- Reduces all rows to the one that holds the result, by grouping them under
one key. -/
def reduceResult (p : Pipeline) : Pipeline :=
  match p.result with
  | none => p
  | some r =>
    match r.kind.accumulator? with
    | none => p
    | some kind =>
      let accumulator : Accumulator :=
        { group := p.flush.stages.length, kind, source := r.source, output := resultField,
          codec := r.codec }
      { p.flush.push (.group (.int32 1) [accumulator]) with
        projector := .field (.field resultField) r.codec }

/-- Transforms the source of the result. -/
def transformTerminal {m : Type → Type} [Monad m] (transform : Transform m) :
    Option Terminal → m (Option Terminal)
  | none => return none
  | some r => do return some { r with source := ← r.source.transformM transform }

/-- Turns the groups that the projector and the result read into records. The
numbers of accumulator names go on from those that binding gave out. -/
def spellOutGroups (p : Pipeline) (next : Nat) : Except AccumulationError Pipeline :=
  let (transformed, s) := (do
    let projector ← p.projector.transformM groupsToRecords
    let result ← transformTerminal groupsToRecords p.result
    return { p with projector, result }).run { next }
  match s.fault with
  | some fault => .error fault
  | none => .ok transformed

/-- Attaches every accumulator to its group. -/
def collectAccumulators (p : Pipeline) : Except AccumulationError Pipeline :=
  let transform := accumulatorsToFields (groupPositions p.stages)
  let (transformed, s) := (do
    let stages ← p.stages.mapM (Stage.transformM transform)
    let projector ← p.projector.transformM transform
    let result ← transformTerminal transform p.result
    return { p with stages, projector, result }).run {}
  match s.fault with
  | some fault => .error fault
  | none => .ok { transformed with stages := withAccumulators transformed.stages s.found }

/-- Resolves all accumulators and groups of a bound pipeline. -/
def resolveGroups (p : Pipeline) (next : Nat) : Except AccumulationError Pipeline := do
  let p ← p.spellOutGroups next
  let p ← p.collectAccumulators
  return p.reduceResult

end Pipeline

end QueryPipeline
