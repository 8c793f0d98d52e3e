import QueryPipeline.Codec.Basic

/-!
The classes that queries may refer to, and what follows from them: the codec of a
static type, and the element and the codec of a member.
-/

namespace QueryPipeline

/-- The registered classes, the latest first: it counts if a name is
registered again. -/
structure Registry where
  classes : List ClassMap := []
deriving Repr

namespace Registry

instance : Inhabited Registry := ⟨{}⟩

/-- Registers a class under its name. -/
def register (r : Registry) (c : ClassMap) : Registry := ⟨c :: r.classes⟩

/-- The registry that classes make when they are registered in order. -/
def ofList (classes : List ClassMap) : Registry := classes.foldl register {}

/-- The class of a name. -/
def class? (r : Registry) (name : String) : Option ClassMap :=
  r.classes.find? (·.typeName == name)

/-- The codec of a static type. A document of a class that is not registered
has none; an array of such documents has one, with its items unknown. -/
def codec? (r : Registry) : ValueType → Option Codec
  | .boolean => some (.scalar .boolean)
  | .int32 => some (.scalar .int32)
  | .int64 => some (.scalar .int64)
  | .double => some (.scalar .double)
  | .decimal128 => some (.scalar .decimal128)
  | .string => some (.scalar .string)
  | .dateTime => some (.scalar .dateTime)
  | .objectId => some (.scalar .objectId)
  | .object => some .dynamic
  | .document name => (r.class? name).map Codec.document
  | .array item => some (.array (r.codec? item))

/-- The codec of a member, where its type is known. -/
def memberCodec? (r : Registry) : MemberSource → Option Codec
  | .static type => r.codec? type
  | .derived codec => some codec

/-- The element and the codec of a member of a value with a codec. An untyped
value has every member, under its own name. -/
def member? (r : Registry) (codec : Codec) (name : String) : Option (String × Codec) :=
  match codec with
  | .document c => do
      let member ← c.find? name
      let memberCodec ← r.memberCodec? member.type
      return (member.element, memberCodec)
  | .dynamic => some (name, .dynamic)
  | .scalar _ | .array _ => none

end Registry

end QueryPipeline
