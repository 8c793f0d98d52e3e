import QueryPipeline.Value.Double

/-!
The values that documents of a store hold. Queries carry such values as
constants, and a pipeline, too, is written down as documents of such values.

A document is a list of named values. `Document.insert` keeps its names
distinct: a name that is taken gets the new value and keeps its place. Two
documents are the same if they give the same names the same values, in any
order; two arrays only if they agree item by item.
-/

namespace QueryPipeline

/-- A value of a document. Object identifiers, decimals and binary data are
never looked into; they are held as hexadecimal digits. Pointers into other
collections are left out: they are deprecated, and no query can make one. -/
inductive Value where
  | null
  | bool (b : Bool)
  | int32 (n : Int32)
  | int64 (n : Int64)
  | double (d : Double)
  | string (s : String)
  | array (items : List Value)
  | document (fields : List (String × Value))
  | objectId (hex : String)
  | dateTime (milliseconds : Int64)
  | decimal128 (hex : String)
  | regex (pattern options : String)
  | timestamp (time increment : UInt32)
  | binary (subtype : UInt8) (hex : String)
  | code (source : String)
  | codeWithScope (source : String) (scope : List (String × Value))
  | symbol (name : String)
  | undefined
  | minKey
  | maxKey
deriving Repr

/-- Named values in order. -/
abbrev Document := List (String × Value)

instance : Inhabited Value := ⟨.null⟩

/-! ### Documents -/

namespace Document

/-- Gives a name a value: in its place if the name is there, else at the end. -/
def insert (name : String) (v : Value) : Document → Document
  | [] => [(name, v)]
  | (k, w) :: rest => if k = name then (k, v) :: rest else (k, w) :: insert name v rest

/-- The document that names and values make when they are inserted in order. -/
def ofList (fields : List (String × Value)) : Document :=
  fields.foldl (fun d f => insert f.1 f.2 d) []

/-- Whether a name has a value. -/
def contains (d : Document) (name : String) : Bool := d.any (·.1 == name)

/-- The names after an insertion: unchanged, or one more at the end. -/
theorem map_fst_insert (name : String) (v : Value) (d : Document) :
    (insert name v d).map Prod.fst =
      if name ∈ d.map Prod.fst then d.map Prod.fst else d.map Prod.fst ++ [name] := by
  induction d with
  | nil => simp [insert]
  | cons f rest ih =>
    obtain ⟨k, w⟩ := f
    by_cases h : k = name
    · simp [insert, h]
    · have h' : name ≠ k := fun e => h e.symm
      simp only [insert, if_neg h, List.map_cons, ih, List.mem_cons, h', false_or]
      split <;> simp

end Document

/-! ### Sameness -/

namespace Value

mutual
/-- Whether two values are the same: of one type, with the same content.
Doubles compare as numbers, so NaN differs from itself. -/
def same : Value → Value → Bool
  | .null, .null => true
  | .bool a, .bool b => a == b
  | .int32 a, .int32 b => a == b
  | .int64 a, .int64 b => a == b
  | .double a, .double b => a.same b
  | .string a, .string b => a == b
  | .array a, .array b => sameItems a b
  | .document a, .document b => a.length == b.length && sameFields a b
  | .objectId a, .objectId b => a == b
  | .dateTime a, .dateTime b => a == b
  | .decimal128 a, .decimal128 b => a == b
  | .regex p o, .regex p' o' => p == p' && o == o'
  | .timestamp t i, .timestamp t' i' => t == t' && i == i'
  | .binary s b, .binary s' b' => s == s' && b == b'
  | .code a, .code b => a == b
  | .codeWithScope c a, .codeWithScope c' b =>
      c == c' && (a.length == b.length && sameFields a b)
  | .symbol a, .symbol b => a == b
  | .undefined, .undefined => true
  | .minKey, .minKey => true
  | .maxKey, .maxKey => true
  | _, _ => false

/-- Item by item, none left over. -/
def sameItems : List Value → List Value → Bool
  | [], [] => true
  | a :: as, b :: bs => a.same b && sameItems as bs
  | _, _ => false

/-- Every field of the first list has the same value in the second. -/
def sameFields : List (String × Value) → List (String × Value) → Bool
  | [], _ => true
  | (k, a) :: as, bs =>
      (match bs.find? (·.1 == k) with
        | some (_, b) => a.same b
        | none => false) && sameFields as bs
end

/-- Whether the value is null. -/
def isNull : Value → Bool
  | .null => true
  | _ => false

end Value

end QueryPipeline
