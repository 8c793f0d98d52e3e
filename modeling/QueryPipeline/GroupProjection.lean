import QueryPipeline.Pipeline

/-!
A projection right behind a group. If it only gives fields of the group's rows
new names, it can go: values that nobody reads are not computed, a value that is
read once is computed under the name of its reader, and the rows are read by
the names that the group's rows have.
-/

namespace QueryPipeline

/-- A member of a projection and the field it reads. -/
structure Reading where
  member : String
  field : String
deriving DecidableEq, Repr

/-- The field that a term reads, if it reads a field of the row as such. -/
def Term.topField? : Term → Option String
  | .field ⟨none, [name]⟩ _ => some name
  | _ => none

/-- What a projection reads, if every member of it reads one field. -/
def readings? (selector : Term) (output : RowCodec) : Option (List Reading) :=
  match selector, output with
  | .document fields, .rows _ =>
    fields.mapM fun (member, t) => t.topField?.map (Reading.mk member)
  | _, .value member _ => selector.topField?.map fun name => [⟨member, name⟩]
  | _, _ => none

/-- The members that read a field. -/
def readersOf (readings : List Reading) (field : String) : List String :=
  (readings.filter (·.field == field)).map Reading.member

/-- Whether a name can be given to a value of a group: it is not in use, and it
is written as a plain field name. -/
def isFreeName (inUse : List String) (name : String) : Bool :=
  !inUse.contains name && name.toList.head? != some '$' && !name.toList.contains '.'

/-- A value and the name it gets. -/
structure Renaming where
  source : String
  target : String
deriving DecidableEq, Repr

/-- Gives each value that has one reader the name of its reader, if it is free.
Names that are given are in use from then on. -/
def renameSingles (readings : List Reading) (inUse : List String) :
    List Accumulator → List Accumulator × List Renaming
  | [] => ([], [])
  | a :: rest =>
    match readersOf readings a.output with
    | [member] =>
      if isFreeName inUse member then
        let (rest, renamings) := renameSingles readings (member :: inUse) rest
        ({ a with output := member } :: rest, ⟨a.output, member⟩ :: renamings)
      else
        let (rest, renamings) := renameSingles readings inUse rest
        (a :: rest, renamings)
    | _ =>
      let (rest, renamings) := renameSingles readings inUse rest
      (a :: rest, renamings)

/-- The values of a group that are read, under their new names. Renamings are
given in the order in which they were made. -/
def mergeReadings (accumulators : List Accumulator) (readings : List Reading) :
    List Accumulator × List Renaming :=
  let kept := accumulators.filter fun a => readings.any (·.field == a.output)
  renameSingles readings (kept.map Accumulator.output ++ ["_id"]) kept

/-- The element that a member is read from: the field it read, under its last
new name. -/
def elementOf (renamings : List Renaming) (r : Reading) : String :=
  ((renamings.reverse.find? (·.source == r.field)).map Renaming.target).getD r.field

/-- The elements of a projection's members, the last reading of a member first. -/
structure Elements where
  entries : List (String × String)

/-- The element of a member. -/
def Elements.find? (e : Elements) (member : String) : Option String :=
  (e.entries.reverse.find? (·.1 == member)).map Prod.snd

/-- The member, read from its element. -/
def Member.readFrom (e : Elements) (m : Member) : Member :=
  match e.find? m.name with
  | some element => .mk m.name element m.type
  | none => m

/-- The output, with every member read from its element. -/
def RowCodec.readFrom (e : Elements) : RowCodec → RowCodec
  | .value field codec => .value ((e.find? field).getD field) codec
  | .rows (.document c) =>
    .rows (.document (.mk c.typeName c.discriminator (c.members.map (·.readFrom e))))
  | output => output

/-- Whether a group's row has a field. -/
def produces (accumulators : List Accumulator) (field : String) : Bool :=
  field == "_id" || accumulators.any (·.output == field)

namespace Plan

/-- Drops a projection that ends the pipeline right behind a group and only
renames what the group computes. -/
def mergeProjection (p : Plan) : Plan :=
  match p.stages.reverse with
  | .project selector :: .group id accumulators :: before =>
    match readings? selector p.output with
    | none => p
    | some readings =>
      if readings.all fun r => produces accumulators r.field then
        let (merged, renamings) := mergeReadings accumulators readings
        let elements : Elements := ⟨readings.map fun r => (r.member, elementOf renamings r)⟩
        { p with
          stages := before.reverse ++ [.group id merged]
          output := p.output.readFrom elements }
      else p
  | _ => p

end Plan

end QueryPipeline
