import QueryPipeline.Binding.Query
import QueryPipeline.Proofs.Semantics.Query
import QueryPipeline.Proofs.Semantics.Term

/-!
Terms have shapes as expressions do. Building a term, folded or not, gives it the
shape of the expression it stands for, and a member of a term is read as the shape
of the term says. Only the rows of a group are no value, so a term is `Readable` as
long as none of the places that members reach is such a group.
-/

namespace QueryPipeline

namespace Term

mutual
/-- What is known of the value of a term before any row is read. -/
def shape : Term → Shape
  | .const v codec => .constant v codec
  | .document fields => .record (fieldShapes fields)
  | t => .stored t.codec

def fieldShapes : List (String × Term) → List (String × Shape)
  | [] => []
  | (name, t) :: rest => (name, t.shape) :: fieldShapes rest
end

theorem fieldShapes_eq (fields : List (String × Term)) :
    fieldShapes fields = fields.map fun f => (f.1, f.2.shape) := by
  induction fields with
  | nil => rfl
  | cons f fields ih => simp [fieldShapes, ih]

theorem shape_eq_constant {t : Term} {v : Value} {codec : Codec} :
    t.shape = .constant v codec ↔ t = .const v codec := by
  cases t <;> simp [shape]

theorem shape_eq_record {t : Term} {members : List (String × Shape)} :
    t.shape = .record members ↔ ∃ fields, t = .document fields ∧
      fieldShapes fields = members := by
  cases t <;> simp [shape]

/-! ### Codecs -/

mutual
/-- The shape of a term gives its codec. -/
theorem codec_shape : (t : Term) → t.shape.codec = t.codec
  | .document fields => by
      simp only [shape, Shape.codec, codec, memberCodecs_fieldShapes fields]
  | .const _ _ | .field _ _ | .item _ _ _ | .accumulator _ _ _ _ _ | .binary _ _ _
  | .unary _ _ | .cond _ _ _ | .filter _ _ _ | .map _ _ _ | .anyTrue _ | .allTrue _
  | .setOp _ _ | .size _ | .contained _ _ | .elemAt _ _ | .slice _ _ | .reduce _ _ _
  | .sortArray _ _ | .getField _ _ _ | .grouping _ _ _ _ _ => by
      simp only [shape, Shape.codec, codec]

theorem memberCodecs_fieldShapes :
    (fields : List (String × Term)) →
      Shape.memberCodecs (fieldShapes fields) = fieldCodecs fields
  | [] => rfl
  | (name, t) :: rest => by
      simp only [fieldShapes, Shape.memberCodecs, fieldCodecs, codec_shape t,
        memberCodecs_fieldShapes rest]
end

/-! ### Operators -/

theorem shape_foldUnary (op : UnaryOp) (operand : Term) :
    (foldUnary op operand).shape = .unary op operand.shape := by
  have unfolded : (Term.unary op operand).shape =
      .stored (Shape.unaryCodec operand.codec op) := by
    cases op <;> simp only [shape, codec, Shape.unaryCodec]
  unfold foldUnary
  split
  · rename_i v codec
    simp only [shape, Shape.unary] at unfolded ⊢
    cases Value.foldUnary op v with
    | none => exact unfolded
    | some w => rfl
  · rename_i notConstant
    rw [unfolded]
    unfold Shape.unary
    split
    · rename_i v codec constant
      exact absurd (shape_eq_constant.mp constant) (notConstant v codec)
    · rw [codec_shape]

theorem shape_foldBinary (op : BinaryOp) (left right : Term) :
    (foldBinary op left right).shape = .binary op left.shape right.shape := by
  have unfolded : (Term.binary op left right).shape =
      .stored (Shape.binaryCodec left.codec right.codec op) := by
    simp only [shape, codec, Shape.binaryCodec]
  unfold foldBinary
  split
  · rename_i l lcodec r rcodec
    simp only [shape, Shape.binary] at unfolded ⊢
    cases Value.foldBinary op l r with
    | none => exact unfolded
    | some w => rfl
  · rename_i notConstant
    rw [unfolded]
    unfold Shape.binary
    split
    · rename_i l lcodec r rcodec lconstant rconstant
      exact absurd (shape_eq_constant.mp rconstant)
        (notConstant l lcodec r rcodec (shape_eq_constant.mp lconstant))
    · rw [codec_shape, codec_shape]

theorem shape_foldCond (test ifTrue ifFalse : Term) :
    (foldCond test ifTrue ifFalse).shape =
      .cond test.shape ifTrue.shape ifFalse.shape := by
  unfold foldCond
  split
  · rename_i b codec
    cases b <;> rfl
  · rename_i undecided
    unfold Shape.cond
    split
    · rename_i b codec constant
      exact absurd (shape_eq_constant.mp constant) (undecided b codec)
    · simp only [shape, codec, codec_shape]

/-! ### Members -/

/-- No group is where members reach, and every record has distinct names. -/
inductive Readable : Term → Prop where
  | record {fields : List (String × Term)} (distinct : (fields.map Prod.fst).Nodup)
      (fields_readable : ∀ f ∈ fields, Readable f.2) : Readable (.document fields)
  | other {t : Term} (no_record : ∀ fields, t ≠ .document fields)
      (no_group : t.isGrouping = false) : Readable t

theorem readable_foldUnary (op : UnaryOp) (operand : Term) :
    (foldUnary op operand).Readable := by
  unfold foldUnary
  split
  · split <;> exact .other (by simp) rfl
  · exact .other (by simp) rfl

theorem readable_foldBinary (op : BinaryOp) (left right : Term) :
    (foldBinary op left right).Readable := by
  unfold foldBinary
  split
  · split <;> exact .other (by simp) rfl
  · exact .other (by simp) rfl

theorem readable_foldCond (test : Term) {ifTrue ifFalse : Term} (yes : ifTrue.Readable)
    (no : ifFalse.Readable) : (foldCond test ifTrue ifFalse).Readable := by
  unfold foldCond
  split
  · split
    · exact yes
    · exact no
  · exact .other (by simp) rfl

/-- A member of a term that is neither a record nor a group is found by its codec. -/
theorem member_of_codec {registry : Registry} {t : Term} {name : String}
    (no_record : ∀ fields, t ≠ .document fields) (no_group : t.isGrouping = false) :
    t.member registry name =
      if t.codec.isArray && (name == "Length" || name == "Count") then some (.size t)
      else
        (registry.member? t.codec name).map fun (element, codec) =>
          match t with
          | .field path _ => .field (path.child element) codec
          | .item _ var _ => .field ((FieldPath.ofVar var).child element) codec
          | _ => .getField t element codec := by
  cases t with
  | document fields => exact absurd rfl (no_record fields)
  | grouping group key element predicate distinct => cases no_group
  | _ => rfl

theorem shape_member_of_codec {registry : Registry} {t : Term} {name : String}
    (no_record : ∀ fields, t ≠ .document fields) :
    t.shape.member? registry name =
      if t.codec.isArray && (name == "Length" || name == "Count") then
        some (.size, .stored .int32)
      else
        (registry.member? t.codec name).map fun m => (.element m.1, .stored m.2) := by
  unfold Shape.member?
  split
  · rename_i members isRecord
    obtain ⟨fields, rfl, _⟩ := shape_eq_record.mp isRecord
    exact absurd rfl (no_record fields)
  · rw [codec_shape]

/-- How a member that binding finds is read: from the value of its target, as the
shape of the target says. -/
structure IsMember (registry : Registry) (target : Term) (name : String) (t : Term) :
    Prop where
  readable : t.Readable
  read : ∃ access, target.shape.member? registry name = some (access, t.shape) ∧
    ∀ engine env, t.eval engine env = access.read engine (target.eval engine env)

theorem isMember_of_member {registry : Registry} {target t : Term} {name : String}
    (readable : target.Readable) (h : target.member registry name = some t) :
    IsMember registry target name t := by
  cases readable with
  | @record fields distinct fields_readable =>
    obtain ⟨⟨member, u⟩, found, rfl⟩ := Option.map_eq_some_iff.mp h
    have named : member = name := by simpa using List.find?_some found
    have hmem : (member, u) ∈ fields := List.mem_of_find?_eq_some found
    subst named
    have sameName : ((·.1 == member) ∘ fun f : String × Term => (f.1, f.2.shape)) =
        (·.1 == member) := rfl
    refine ⟨fields_readable _ hmem, .element member, ?_, ?_⟩
    · simp only [shape, Shape.member?, fieldShapes_eq, List.find?_map, sameName, found,
        Option.map_some]
    · intro engine env
      have distinct' : ((evalFields engine env fields).map Prod.fst).Nodup := by
        rwa [map_fst_evalFields]
      have hmem' : (member, u.eval engine env) ∈ evalFields engine env fields := by
        rw [evalFields_eq]
        exact List.mem_map.mpr ⟨_, hmem, rfl⟩
      simp only [eval, Shape.Access.read, Engine.read_ofPresent distinct' hmem']
  | other no_record no_group =>
    rw [member_of_codec no_record no_group] at h
    by_cases counted : (target.codec.isArray && (name == "Length" || name == "Count")) = true
    · rw [if_pos counted] at h
      obtain rfl := Option.some.inj h
      refine ⟨.other (by simp) rfl, .size, ?_, ?_⟩
      · rw [shape_member_of_codec no_record, if_pos counted]
        rfl
      · intro engine env
        simp only [eval, Shape.Access.read]
    · rw [if_neg counted] at h
      obtain ⟨⟨element, codec⟩, found, rfl⟩ := Option.map_eq_some_iff.mp h
      have shaped : target.shape.member? registry name =
          some (.element element, .stored codec) := by
        rw [shape_member_of_codec no_record, if_neg counted, found]
        rfl
      cases target with
      | field path c =>
        exact ⟨.other (by simp) rfl, .element element, shaped, fun engine env =>
          FieldPath.eval_child engine env path element⟩
      | item array var c =>
        exact ⟨.other (by simp) rfl, .element element, shaped, fun engine env =>
          FieldPath.eval_child engine env (FieldPath.ofVar var) element⟩
      | _ => exact ⟨.other (by simp) rfl, .element element, shaped, fun _ _ => rfl⟩

end Term

end QueryPipeline
