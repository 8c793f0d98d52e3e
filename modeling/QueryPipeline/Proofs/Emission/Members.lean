import QueryPipeline.Proofs.Binding.Inheritance
import QueryPipeline.Proofs.Emission.Reading
import QueryPipeline.Proofs.Semantics.Term

/-!
Members of documents as they are written. The element of a member is one more name on a path, or
the field that is picked from a computed value. A server splits the text of a path at every point,
but takes the name of a picked field as it stands. So both read the same if and only if the
element has no point in its name (`Registry.member_written`), and two paths are written alike if
and only if the names between their points are the same.
-/

namespace QueryPipeline

/-- **Two paths are written alike** if and only if the names between their points are the same. -/
theorem FieldPath.text_eq_text {p q : FieldPath} (hp : p.IsWritable) (hq : q.IsWritable) :
    p.text = q.text ↔ p.atPoints = q.atPoints := by
  constructor
  · intro same
    have read : Term.field p.atPoints .dynamic = .field q.atPoints .dynamic := by
      rw [← Term.ofText_atPoints hp, ← Term.ofText_atPoints hq, same]
    exact (Term.field.inj read).1
  · intro same
    rw [← text_atPoints (p := p), ← text_atPoints (p := q), same]

/-! ### Values of written expressions -/

/-- The value of an expression as it is written. -/
def Value.Answers (engine : Engine) (env : Env) (e : Value) (v : Option Value) : Prop :=
  ∃ t, e.read = some t ∧ t.eval engine env = v

/-- Reads one name after the other. -/
def Engine.readAlong (engine : Engine) (names : List String) (v : Option Value) : Option Value :=
  names.foldl (fun v name => engine.read name v) v

namespace Engine

variable {engine : Engine} {name : String}

theorem readAlong_none (names : List String) : engine.readAlong names none = none := by
  induction names with
  | nil => rfl
  | cons name rest ih => exact ih

/-- **What a server reads at the points of a name** is the element of that name in every document
if and only if the name has no point. -/
theorem readAlong_splitNames_iff :
    (∀ fields, engine.readAlong (splitNames name) (some (.document fields)) =
      Document.get? name fields) ↔ '.' ∉ name.toList := by
  constructor
  · intro reads point
    obtain ⟨first, rest, split, other⟩ := splitNames_of_point point
    have missing :
        engine.readAlong (splitNames name) (some (.document [(name, .null)])) = none := by
      have absent : engine.read first (some (.document [(name, .null)])) = none := by
        simp [read, Document.get?, Ne.symm other]
      rw [split, readAlong, List.foldl_cons, absent]
      exact readAlong_none rest
    rw [reads] at missing
    simp [Document.get?] at missing
  · intro noPoint fields
    rw [splitNames_eq_self noPoint]
    rfl

end Engine

/-- A path is written wherever the path up to its last name is. -/
theorem FieldPath.emit_child {p : FieldPath} {scope : List String} {e : Value} {name : String}
    (h : p.emit scope = .ok e) : (p.child name).emit scope = .ok (.string (p.child name).text) := by
  obtain ⟨var, segments⟩ := p
  cases var with
  | none => rfl
  | some var =>
    simp only [emit, child] at h ⊢
    split at h
    · rw [if_pos ‹_›]
    · cases h

theorem FieldPath.IsWritable.child {p : FieldPath} {name : String} (h : p.IsWritable)
    (sigil : hasNoSigil name = true) : (p.child name).IsWritable where
  names other hother := by
    rcases List.mem_append.mp hother with hother | hother
    · exact h.names other hother
    · rwa [List.mem_singleton.mp hother]
  var := h.var

theorem FieldPath.eval_child_atPoints {engine : Engine} {env : Env} (p : FieldPath)
    (name : String) : (p.child name).atPoints.eval engine env =
      engine.readAlong (splitNames name) (p.atPoints.eval engine env) := by
  rw [atPoints_child, eval, List.foldl_append]
  rfl

namespace Term

variable {engine : Engine} {env : Env} {scope : List String} {t : Term} {p : FieldPath}
  {e : Value} {v : Option Value} {name : String} {codec : Codec}

/-- The path that a term is written as. -/
def path? : Term → Option FieldPath
  | .field path _ => some path
  | .item _ var _ => some (.ofVar var)
  | _ => none

theorem emit_of_path (hp : t.path? = some p) : t.emit scope = p.emit scope := by
  cases t with
  | field | item =>
    cases hp
    rfl
  | _ => cases hp

theorem element_of_path (hp : t.path? = some p) :
    t.element name codec = .field (p.child name) codec := by
  cases t with
  | field | item =>
    cases hp
    rfl
  | _ => cases hp

theorem element_of_computed (hp : t.path? = none) :
    t.element name codec = .getField t name codec := by
  cases t with
  | field | item => cases hp
  | _ => rfl

/-- A name more on a path is read at its points. -/
theorem answers_path (hp : t.path? = some p) (writable : p.IsWritable)
    (sigil : hasNoSigil name = true) (he : t.emit scope = .ok e)
    (answers : e.Answers engine env v) :
    ∃ e', (t.element name codec).emit scope = .ok e' ∧
      e'.Answers engine env (engine.readAlong (splitNames name) v) := by
  rw [emit_of_path hp] at he
  rw [emit_path he] at answers
  obtain ⟨u, hu, hv⟩ := answers
  obtain rfl : .field p.atPoints .dynamic = u := by
    rw [← ofText_atPoints writable]
    exact Option.some.inj hu
  refine ⟨.string (p.child name).text, ?_, .field (p.child name).atPoints .dynamic, ?_, ?_⟩
  · rw [element_of_path hp]
    exact FieldPath.emit_child he
  · exact congrArg some (ofText_atPoints (writable.child sigil))
  · rw [eval, FieldPath.eval_child_atPoints]
    exact congrArg _ hv

/-- A field that is picked is read by its name. -/
theorem answers_getField (hp : t.path? = none) (sigil : hasNoSigil name = true)
    (he : t.emit scope = .ok e) (answers : e.Answers engine env v) :
    ∃ e', (t.element name codec).emit scope = .ok e' ∧
      e'.Answers engine env (engine.read name v) := by
  obtain ⟨u, hu, rfl⟩ := answers
  rw [element_of_computed hp]
  refine ⟨.operator "$getField" (.document [("field", .string name), ("input", e)]), ?_,
    .getField u name .dynamic, ?_, rfl⟩
  · rw [emit, he]
    rfl
  · have member : (Value.string name).read = some (.const (.string name) .dynamic) :=
      congrArg some (ofText_name (bne_iff_ne.mp sigil))
    rw [Value.read_getField e member, hu]
    rfl

end Term

/-- **Members as they are written.** A member of a document, whose element has a name without a
dollar sign in front, is found wherever members are read by the codec, and is written if the
document is. Of a computed document it gives the element of that name, and on a
path what is found at the points of the name. These are the same for all documents if and only if
the name has no point. Two paths are written alike if and only if they are the same at their
points, which is to say the same where no name has a point. -/
theorem Registry.member_written {registry : Registry} {c : ClassMap} {name element : String}
    {codec : Codec} (found : registry.member? (.document c) name = some (element, codec))
    (sigil : hasNoSigil element = true) (engine : Engine) :
    (∀ (t : Term) (scope : List String) (e : Value) (env : Env) (fields : Document),
      t.readsByCodec = true → t.codec = .document c → (∀ p ∈ t.path?, p.IsWritable) →
      t.emit scope = .ok e → e.Answers engine env (some (.document fields)) →
      ∃ u e', t.member registry name = some u ∧ u.emit scope = .ok e' ∧
        e'.Answers engine env (if t.path?.isSome
          then engine.readAlong (splitNames element) (some (.document fields))
          else Document.get? element fields)) ∧
    ((∀ fields, engine.readAlong (splitNames element) (some (.document fields)) =
      Document.get? element fields) ↔ '.' ∉ element.toList) ∧
    ∀ p q : FieldPath, p.IsWritable → q.IsWritable →
      (p.text = q.text ↔ p.atPoints = q.atPoints) ∧
      ((∀ name ∈ p.segments ++ q.segments, '.' ∉ name.toList) → p.text = q.text → p = q) := by
  refine ⟨?_, Engine.readAlong_splitNames_iff, fun p q hp hq => ⟨p.text_eq_text hp hq, ?_⟩⟩
  · intro t scope e env fields byCodec ofClass writable he answers
    have member : t.member registry name = some (t.element element codec) := by
      rw [Term.member_of_readsByCodec byCodec, ofClass, found]
      rfl
    cases hp : t.path? with
    | some p =>
      obtain ⟨e', he', answers'⟩ := Term.answers_path hp (writable p hp) sigil he answers
      exact ⟨_, e', member, he', answers'⟩
    | none =>
      obtain ⟨e', he', answers'⟩ := Term.answers_getField hp sigil he answers
      exact ⟨_, e', member, he', answers'⟩
  · intro noPoint same
    rw [← p.atPoints_eq_self fun name hname => noPoint name (List.mem_append_left _ hname),
      ← q.atPoints_eq_self fun name hname => noPoint name (List.mem_append_right _ hname)]
    exact (p.text_eq_text hp hq).mp same

/-- The element of a code has a point in its name. -/
def addressClass : ClassMap :=
  .mk "Address" none [.mk "City" "city" (.static .string), .mk "Zip" "zip.code" (.static .string)]

/-- Addresses, of which a person may have several. -/
def postal : Registry := .ofList [addressClass]

/-- The address of a person. -/
def addressField : Term := .field (.field "addr") (.document addressClass)

/-- The first home of a person. -/
def firstHome : Term :=
  .elemAt (.field (.field "homes") (.arrayOf (.document addressClass))) (.position 0)

/-- An address of a single element. -/
def romanZip : Document := [("zip.code", .string "00184")]

/-- A person whose only home is the address. -/
def romanResident : Value :=
  .document [("addr", .document romanZip), ("homes", .array [.document romanZip])]

theorem firstHome_written :
    (postal.member? (.document addressClass) "Zip" = some ("zip.code", .string) ∧
      hasNoSigil "zip.code" = true) ∧
    ∃ u e, firstHome.member postal "Zip" = some u ∧ u.emit [] = .ok e ∧
      e.Answers .folding ⟨romanResident, []⟩ (some (.string "00184")) := by
  have found : postal.member? (.document addressClass) "Zip" = some ("zip.code", .string) := rfl
  obtain ⟨written, -, -⟩ := Registry.member_written found (by decide) Engine.folding
  refine ⟨⟨found, by decide⟩, ?_⟩
  exact written firstHome [] _ ⟨romanResident, []⟩ romanZip rfl rfl nofun rfl ⟨_, rfl, rfl⟩

/-- The code of the address is not found on its path, but in the first home, which is the same
document; and its path is written like one of two names. -/
theorem zip_missed_on_path :
    (∃ u, addressField.member postal "Zip" = some u ∧
      u.emit [] = .ok (.string "$addr.zip.code") ∧
      (Value.string "$addr.zip.code").Answers .folding ⟨romanResident, []⟩ none) ∧
    (∃ u e, firstHome.member postal "Zip" = some u ∧ u.emit [] = .ok e ∧
      e.Answers .folding ⟨romanResident, []⟩ (some (.string "00184"))) ∧
    addressField.eval .folding ⟨romanResident, []⟩ = firstHome.eval .folding ⟨romanResident, []⟩ ∧
    (FieldPath.mk none ["zip.code"]).text = (FieldPath.mk none ["zip", "code"]).text := by
  refine ⟨⟨_, rfl, rfl, _, rfl, rfl⟩, ⟨_, _, rfl, rfl, _, rfl, rfl⟩, rfl, rfl⟩

end QueryPipeline
