/-!
References to a value of the current row: the row itself, a field reached by
names from the row, or a value that a surrounding sub-query binds to a
variable, again followed by names.
-/

namespace QueryPipeline

/-- A path of field names, from a variable or, without one, from the row. -/
structure FieldPath where
  var : Option String := none
  segments : List String := []
deriving DecidableEq, Repr

namespace FieldPath

/-- The row itself. -/
def root : FieldPath := {}

/-- A field of the row. -/
def field (name : String) : FieldPath := ⟨none, [name]⟩

/-- The value of a variable. -/
def ofVar (name : String) : FieldPath := ⟨some name, []⟩

/-- One name further. -/
def child (p : FieldPath) (name : String) : FieldPath :=
  { p with segments := p.segments ++ [name] }

/-- Whether the path is the row itself. -/
def isRoot (p : FieldPath) : Bool := p.var.isNone && p.segments.isEmpty

/-- Whether the path leads from the row to one of its fields. -/
def isRowField (p : FieldPath) : Bool := p.var.isNone && !p.segments.isEmpty

/-- The names joined by points. -/
def dotted (p : FieldPath) : String := ".".intercalate p.segments

/-- The path as an aggregation expression writes it. -/
def text (p : FieldPath) : String :=
  match p.var, p.segments with
  | none, [] => "$$ROOT"
  | none, _ => "$" ++ p.dotted
  | some v, [] => "$$" ++ v
  | some v, _ => "$$" ++ v ++ "." ++ p.dotted

end FieldPath

end QueryPipeline
