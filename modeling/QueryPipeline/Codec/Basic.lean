import QueryPipeline.Query.Basic

/-!
Codecs: how a value of a static type is stored. A scalar is stored as one type
of value; a document has a class map that says under which element name each
member is stored. Binding uses codecs to turn members into field paths and to
say what shape the rows of a pipeline have; no value is encoded here.
-/

namespace QueryPipeline

/-- The stored types of scalars. -/
inductive ScalarType where
  | boolean
  | int32
  | int64
  | double
  | decimal128
  | string
  | dateTime
  | objectId
  | null
deriving DecidableEq, Repr

mutual
/-- How a value is stored. -/
inductive Codec where
  | scalar (type : ScalarType)
  /-- An untyped value; its members are addressed by their names. -/
  | dynamic
  | document (classMap : ClassMap)
  /-- An array; the codec of its items may be unknown. -/
  | array (item : Option Codec)

/-- The members of a class and, for a class of a family that shares a
collection, the mark that tells its documents apart. -/
inductive ClassMap where
  | mk (typeName : String) (discriminator : Option String) (members : List Member)

/-- A member, the element it is stored under, and its type. -/
inductive Member where
  | mk (name element : String) (type : MemberSource)

/-- A member of a registered class has a static type, which is looked up when
the member is read, so that classes may refer to each other. A member that a
projection makes has the codec of its value. -/
inductive MemberSource where
  | static (type : ValueType)
  | derived (codec : Codec)
end

deriving instance Repr for Codec, ClassMap, Member, MemberSource

/-! ### Fields of the records -/

namespace Member

/-- The name the member has in queries. -/
def name : Member → String
  | .mk name _ _ => name

/-- The name the member is stored under. -/
def element : Member → String
  | .mk _ element _ => element

/-- The type of the member. -/
def type : Member → MemberSource
  | .mk _ _ type => type

end Member

namespace ClassMap

/-- The name of the class. -/
def typeName : ClassMap → String
  | .mk typeName _ _ => typeName

/-- The mark of the documents of the class. -/
def discriminator : ClassMap → Option String
  | .mk _ discriminator _ => discriminator

/-- The members in the order of their registration. -/
def members : ClassMap → List Member
  | .mk _ _ members => members

/-- The first member of a name. -/
def find? (c : ClassMap) (name : String) : Option Member :=
  c.members.find? (·.name == name)

/-- The class of the documents that a projection makes: every member is stored
under its own name. -/
def ofRecord (members : List (String × Codec)) : ClassMap :=
  .mk "<anonymous>" none (members.map fun m => .mk m.1 m.1 (.derived m.2))

end ClassMap

/-! ### Equality -/

mutual
/-- Whether two codecs agree in all their parts. -/
def Codec.same : Codec → Codec → Bool
  | .scalar a, .scalar b => a == b
  | .dynamic, .dynamic => true
  | .document a, .document b => a.same b
  | .array none, .array none => true
  | .array (some a), .array (some b) => a.same b
  | _, _ => false
termination_by structural c => c

def ClassMap.same : ClassMap → ClassMap → Bool
  | .mk name mark members, .mk name' mark' members' =>
      name == name' && mark == mark' && Member.sameAll members members'
termination_by structural c => c

def Member.same : Member → Member → Bool
  | .mk name element type, .mk name' element' type' =>
      name == name' && element == element' && type.same type'
termination_by structural m => m

def Member.sameAll : List Member → List Member → Bool
  | [], [] => true
  | m :: rest, m' :: rest' => m.same m' && Member.sameAll rest rest'
  | _, _ => false
termination_by structural members => members

def MemberSource.same : MemberSource → MemberSource → Bool
  | .static a, .static b => a == b
  | .derived a, .derived b => a.same b
  | _, _ => false
termination_by structural s => s
end

mutual
theorem Codec.eq_of_same : ∀ {a b : Codec}, a.same b = true → a = b
  | .scalar _, .scalar _, h => by simpa [Codec.same] using h
  | .dynamic, .dynamic, _ => rfl
  | .document a, .document b, h => by
      rw [ClassMap.eq_of_same (a := a) (b := b) (by simpa [Codec.same] using h)]
  | .array none, .array none, _ => rfl
  | .array (some a), .array (some b), h => by
      rw [Codec.eq_of_same (a := a) (b := b) (by simpa [Codec.same] using h)]
  | .scalar _, .dynamic, h | .scalar _, .document _, h | .scalar _, .array _, h
  | .dynamic, .scalar _, h | .dynamic, .document _, h | .dynamic, .array _, h
  | .document _, .scalar _, h | .document _, .dynamic, h | .document _, .array _, h
  | .array _, .scalar _, h | .array _, .dynamic, h | .array _, .document _, h
  | .array none, .array (some _), h | .array (some _), .array none, h => by
      simp [Codec.same] at h

theorem ClassMap.eq_of_same : ∀ {a b : ClassMap}, a.same b = true → a = b
  | .mk _ _ ms, .mk _ _ ms', h => by
      simp only [ClassMap.same, Bool.and_eq_true, beq_iff_eq] at h
      rw [h.1.1, h.1.2, Member.eq_of_sameAll (a := ms) (b := ms') h.2]

theorem Member.eq_of_same : ∀ {a b : Member}, a.same b = true → a = b
  | .mk _ _ t, .mk _ _ t', h => by
      simp only [Member.same, Bool.and_eq_true, beq_iff_eq] at h
      rw [h.1.1, h.1.2, MemberSource.eq_of_same (a := t) (b := t') h.2]

theorem Member.eq_of_sameAll :
    ∀ {a b : List Member}, Member.sameAll a b = true → a = b
  | [], [], _ => rfl
  | m :: rest, m' :: rest', h => by
      simp only [Member.sameAll, Bool.and_eq_true] at h
      rw [Member.eq_of_same (a := m) (b := m') h.1,
        Member.eq_of_sameAll (a := rest) (b := rest') h.2]
  | [], _ :: _, h | _ :: _, [], h => by simp [Member.sameAll] at h

theorem MemberSource.eq_of_same : ∀ {a b : MemberSource}, a.same b = true → a = b
  | .static _, .static _, h => by simpa [MemberSource.same] using h
  | .derived a, .derived b, h => by
      rw [Codec.eq_of_same (a := a) (b := b) (by simpa [MemberSource.same] using h)]
  | .static _, .derived _, h | .derived _, .static _, h => by
      simp [MemberSource.same] at h
end

mutual
theorem Codec.same_self : ∀ a : Codec, a.same a = true
  | .scalar _ | .dynamic | .array none => by simp [Codec.same]
  | .document c => by simpa [Codec.same] using ClassMap.same_self c
  | .array (some c) => by simpa [Codec.same] using Codec.same_self c

theorem ClassMap.same_self : ∀ a : ClassMap, a.same a = true
  | .mk _ _ ms => by simpa [ClassMap.same] using Member.sameAll_self ms

theorem Member.same_self : ∀ a : Member, a.same a = true
  | .mk _ _ t => by simpa [Member.same] using MemberSource.same_self t

theorem Member.sameAll_self : ∀ a : List Member, Member.sameAll a a = true
  | [] => by simp [Member.sameAll]
  | m :: rest => by
      simpa [Member.sameAll] using ⟨Member.same_self m, Member.sameAll_self rest⟩

theorem MemberSource.same_self : ∀ a : MemberSource, a.same a = true
  | .static _ => by simp [MemberSource.same]
  | .derived c => by simpa [MemberSource.same] using Codec.same_self c
end

instance : DecidableEq Codec := fun a b =>
  decidable_of_iff (a.same b = true) ⟨Codec.eq_of_same, fun h => h ▸ Codec.same_self a⟩

instance : DecidableEq ClassMap := fun a b =>
  decidable_of_iff (a.same b = true) ⟨ClassMap.eq_of_same, fun h => h ▸ ClassMap.same_self a⟩

instance : Inhabited Codec := ⟨.dynamic⟩

/-! ### Questions about a codec -/

namespace Codec

/-- The codec of conditions. -/
abbrev boolean : Codec := .scalar .boolean

/-- The codec of 32-bit integers. -/
abbrev int32 : Codec := .scalar .int32

/-- The codec of 64-bit integers. -/
abbrev int64 : Codec := .scalar .int64

/-- The codec of floating-point numbers. -/
abbrev double : Codec := .scalar .double

/-- The codec of text. -/
abbrev string : Codec := .scalar .string

/-- An array of items with a known codec. -/
abbrev arrayOf (item : Codec) : Codec := .array (some item)

/-- Whether values are stored as arrays. -/
def isArray : Codec → Bool
  | .array _ => true
  | _ => false

/-- Whether values are stored as truth values. -/
def isBoolean : Codec → Bool
  | .scalar .boolean => true
  | _ => false

/-- Whether values are stored as floating-point numbers. -/
def isDouble : Codec → Bool
  | .scalar .double => true
  | _ => false

/-- The codec of the items of an array, where it is known. -/
def item? : Codec → Option Codec
  | .array item => item
  | _ => none

/-- The class of a document. -/
def classMap? : Codec → Option ClassMap
  | .document c => some c
  | _ => none

end Codec

/-- How the rows of a pipeline are read: each row is a whole document, or it
holds one value under a field. -/
inductive RowCodec where
  | rows (codec : Codec)
  | value (field : String) (codec : Codec)
deriving DecidableEq, Repr

end QueryPipeline
