import QueryPipeline.Proofs.Binding.Inheritance
import QueryPipeline.Proofs.Binding.Lambda
import QueryPipeline.Proofs.Emission.Filter

/-!
Documents that are stored as codecs say. A scalar or a document may be missing or null; an
untyped value may be anything at all. What a bound term reads from such a row, member by
member, is stored as its own codec says, and no array is on the way to it, as long as no
member on the way may hold one.
-/

namespace QueryPipeline

/-! ### Types of values -/

/-- The scalar type that a value is of. -/
def Value.scalarType? : Value → Option ScalarType
  | .bool _ => some .boolean
  | .int32 _ => some .int32
  | .int64 _ => some .int64
  | .double _ => some .double
  | .decimal128 _ => some .decimal128
  | .string _ => some .string
  | .dateTime _ => some .dateTime
  | .objectId _ => some .objectId
  | .null => some .null
  | _ => none

/-- A value of a scalar type. -/
def ScalarType.sample : ScalarType → Value
  | .boolean => .bool true
  | .int32 => .int32 0
  | .int64 => .int64 0
  | .double => .double ⟨0⟩
  | .decimal128 => .decimal128 (String.ofList (List.replicate 32 '0'))
  | .string => .string ""
  | .dateTime => .dateTime 0
  | .objectId => .objectId (String.ofList (List.replicate 24 '0'))
  | .null => .null

/-- The place of a scalar type in the order of types. -/
def ScalarType.bracket (type : ScalarType) : Nat := type.sample.bracket

theorem Value.scalarType?_sample (type : ScalarType) : type.sample.scalarType? = some type := by
  cases type <;> rfl

theorem Value.bracket_of_scalarType? {v : Value} {type : ScalarType}
    (h : v.scalarType? = some type) : v.bracket = type.bracket := by
  cases v <;> cases h <;> rfl

/-- The place in the order of types that the values of a codec have, null apart. Arrays and
untyped values have none: what they hold may be of any type. -/
def Codec.bracket? : Codec → Option Nat
  | .scalar type => some type.bracket
  | .document _ => some (Value.document []).bracket
  | .dynamic | .array _ => none

/-! ### Conforming values -/

/-- A value, or none, is stored as a codec says. -/
inductive Registry.Conforms (registry : Registry) : Codec → Option Value → Prop
  | missing {codec} : codec.isArray = false → Conforms registry codec none
  | null {codec} : codec.isArray = false → Conforms registry codec (some .null)
  | dynamic (v) : Conforms registry .dynamic (some v)
  | array {item} (items) : Conforms registry (.array item) (some (.array items))
  | scalar {type v} : v.scalarType? = some type → Conforms registry (.scalar type) (some v)
  | document {c fields} : (∀ name element codec,
      registry.member? (.document c) name = some (element, codec) →
        Conforms registry codec (Document.get? element fields)) →
      Conforms registry (.document c) (some (.document fields))

namespace Registry.Conforms

variable {registry : Registry} {codec : Codec} {v : Value} {b : Nat}

/-- A value has the place that its codec has in the order of types, unless it is null. -/
theorem bracket_eq (h : registry.Conforms codec (some v)) (hb : codec.bracket? = some b) :
    v = .null ∨ v.bracket = b := by
  cases h with
  | null => exact .inl rfl
  | dynamic => cases hb
  | array => cases hb
  | scalar htype =>
    cases hb
    exact .inr (Value.bracket_of_scalarType? htype)
  | document =>
    cases hb
    exact .inr rfl

/-- Only arrays and untyped values may be arrays. -/
theorem isArrayFree (h : registry.Conforms codec (some v)) (typed : codec.bracket?.isSome) :
    v.IsArrayFree [] := by
  cases h with
  | dynamic | array => cases typed
  | null | document => trivial
  | scalar htype =>
    cases v with
    | array items => cases htype
    | _ => trivial

/-- A truth value is a condition. -/
theorem isCondition {x : Option Value} (h : registry.Conforms .boolean x) :
    Term.IsCondition x := by
  cases h with
  | missing => exact .inl rfl
  | null => exact .inr (.inl rfl)
  | scalar htype =>
    cases ‹Value› with
    | bool b => exact .inr (.inr ⟨b, rfl⟩)
    | _ => cases htype

/-- A document conforms to a class if its fields conform to the members. -/
theorem of_members {c : ClassMap} {fields : Document}
    (h : ∀ m ∈ c.members, ∀ codec, registry.memberCodec? m.type = some codec →
      registry.Conforms codec (Document.get? m.element fields)) :
    registry.Conforms (.document c) (some (.document fields)) := by
  refine .document fun name element codec found => ?_
  simp only [member?, ClassMap.find?, Option.bind_eq_bind, Option.bind_eq_some_iff,
    Option.pure_def, Option.some.injEq, Prod.mk.injEq] at found
  obtain ⟨m, hm, codec', hcodec, rfl, rfl⟩ := found
  exact h m (List.mem_of_find?_eq_some hm) codec' hcodec

/-- What is read under the name of a member is stored as the codec of the member says. -/
theorem member {server : Server} {x : Option Value} {name element : String} {codec' : Codec}
    (h : registry.Conforms codec x) (typed : codec.bracket?.isSome)
    (typed' : codec'.bracket?.isSome)
    (found : registry.member? codec name = some (element, codec')) :
    registry.Conforms codec' (server.read element x) := by
  have noArray : codec'.isArray = false := by
    cases codec' with
    | array => cases typed'
    | _ => rfl
  cases h with
  | missing | null => exact .missing noArray
  | dynamic | array => cases typed
  | scalar => cases found
  | document members => exact members name element codec' found

end Registry.Conforms

/-- A path without arrays may be one name longer, if no array is at its end. -/
theorem Value.isArrayFree_append (server : Server) {row : Value} {names : List String}
    {name : String} (h : row.IsArrayFree names)
    (atEnd : ∀ v, server.readAll (names ++ [name]) (some row) = some v → v.IsArrayFree []) :
    row.IsArrayFree (names ++ [name]) := by
  induction names generalizing row with
  | nil =>
    cases row with
    | array items => exact h
    | document fields => exact fun v hv => atEnd v hv
    | _ => trivial
  | cons first names ih =>
    cases row with
    | array items => exact h
    | document fields =>
      intro v hv
      refine ih (h v hv) fun w hw => atEnd w ?_
      rw [List.cons_append, Server.readAll_cons, Server.read, hv]
      exact hw
    | _ => trivial

/-! ### Paths of bound terms -/

namespace Term

variable {registry : Registry} {server : Server} {row : Value}

/-- If the term is a path from the row, it reads a value that is stored as its codec says, and
no array is on the path; of arrays and untyped values nothing is said. -/
def ReadsConforming (registry : Registry) (server : Server) (row : Value) : Term → Prop
  | .field path codec => path.var = none → codec.bracket?.isSome →
    registry.Conforms codec (server.readAll path.segments (some row)) ∧
      row.IsArrayFree path.segments
  | _ => True

theorem inherited_readsConforming (registry : Registry) (server : Server) (row : Value) :
    Inherited registry (ReadsConforming registry server row) where
  other {t} h := by
    cases t with
    | field path codec =>
      intro ofRow
      rw [isGiven, ofRow] at h
      cases h
    | _ => trivial
  record _ := trivial
  slice _ := trivial
  child {path codec name element codec'} ofRow reads found := by
    intro _ typed'
    have typed : codec.bracket?.isSome := by
      cases codec with
      | scalar | array => cases found
      | document => rfl
      | dynamic =>
        cases found
        cases typed'
    obtain ⟨conforms, arrayFree⟩ := reads ofRow typed
    have further : server.readAll (path.child element).segments (some row) =
        server.read element (server.readAll path.segments (some row)) := by
      simp [Server.readAll, FieldPath.child]
    have conforms' : registry.Conforms codec'
        (server.readAll (path.child element).segments (some row)) :=
      further ▸ conforms.member typed typed' found
    refine ⟨conforms', Value.isArrayFree_append server arrayFree ?_⟩
    intro v hv
    exact (hv ▸ conforms' : registry.Conforms codec' (some v)).isArrayFree typed'

/-- **What a predicate reads of a row that conforms to a class conforms to its codec.** -/
theorem readsConforming_of_bound {c : ClassMap}
    (conforms : registry.Conforms (.document c) (some row)) {minted : Nat} {x : String}
    {e : Expr} {t : Term} {c₁ : Context} (bound : (e.bind registry).Yields
      (({ minted } : Context).push x (.root (.document c))) t c₁) :
    t.Everywhere (ReadsConforming registry server row) := by
  have inScope : (({ minted } : Context).push x (.root (.document c))).Every
      (Everywhere (ReadsConforming registry server row)) := by
    refine Context.Every.push nofun ?_
    intro f hf
    obtain rfl := List.mem_singleton.mp hf
    exact everywhere_field fun _ typed => ⟨conforms, conforms.isArrayFree typed⟩
  exact (Expr.bind_keeps
    ((inherited_readsConforming registry server row).invariant fun _ => trivial) e () inScope
    bound).1

end Term

end QueryPipeline
