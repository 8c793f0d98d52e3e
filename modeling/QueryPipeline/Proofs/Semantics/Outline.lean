import QueryPipeline.Proofs.Semantics.Shape
import QueryPipeline.Proofs.Semantics.Subquery
import QueryPipeline.Proofs.Semantics.Variables

/-!
Terms have outlines and data as expressions do. Building a term, folded or not, gives it
the outline of the expression it stands for, and a member of a term is read as the outline
of the term says.
-/

namespace QueryPipeline

/-! ### Shapes that no operator folds -/

namespace Shape

/-- No operator is folded because of the shape: if it is a constant, then an array. -/
def Inert (s : Shape) : Prop := ∀ v codec, s = .constant v codec → ∃ items, v = .array items

theorem inert_stored (codec : Codec) : (Shape.stored codec).Inert := nofun

theorem unary_of_inert {s : Shape} (h : s.Inert) (op : UnaryOp) :
    s.unary op = .stored (unaryCodec s.codec op) := by
  unfold unary
  split
  · rename_i v codec
    obtain ⟨items, rfl⟩ := h v codec rfl
    have unfolded : Value.foldUnary op (.array items) = none := by cases op <;> rfl
    rw [unfolded]
    simp only [Shape.codec]
  · rfl

theorem foldBinary_of_array {op : BinaryOp} {l r : Value}
    (h : (∃ items, l = .array items) ∨ ∃ items, r = .array items) :
    Value.foldBinary op l r = none := by
  have incomparable : l.compare? r = none := by
    rcases h with ⟨items, rfl⟩ | ⟨items, rfl⟩
    · rfl
    · cases l <;> rfl
  unfold Value.foldBinary
  split
  · rw [incomparable]
    rfl
  · split
    · rcases h with ⟨items, h⟩ | ⟨items, h⟩ <;> cases h
    · rcases h with ⟨items, h⟩ | ⟨items, h⟩ <;> cases h
    · rcases h with ⟨items, rfl⟩ | ⟨items, rfl⟩
      · rfl
      · cases l.integer? <;> rfl

theorem binary_of_inert {l r : Shape} (h : l.Inert ∨ r.Inert) (op : BinaryOp) :
    Shape.binary op l r = .stored (binaryCodec l.codec r.codec op) := by
  unfold binary
  split
  · rename_i v codec v' codec'
    have array : (∃ items, v = .array items) ∨ ∃ items, v' = .array items :=
      h.imp (fun hl => hl v codec rfl) fun hr => hr v' codec' rfl
    rw [foldBinary_of_array array]
    simp only [Shape.codec]
  · rfl

end Shape

/-! ### Outlines and data of terms -/

namespace Term

mutual
/-- What is known of the value of a term before any row is read. -/
def outline : Term → Outline
  | .document fields => .record (fieldOutlines fields)
  | .grouping _ key element _ _ => .group key.outline (.arrayOf element.codec)
  | t => .ofShape t.shape

def fieldOutlines : List (String × Term) → List (String × Outline)
  | [] => []
  | (name, t) :: rest => (name, t.outline) :: fieldOutlines rest
end

mutual
/-- What a term stands for. -/
def datum (engine : Engine) (env : Env) : Term → Datum
  | .document fields => .record (fieldData engine env fields)
  | .grouping _ key _ _ _ => .group (key.datum engine env)
  | t => .value (t.eval engine env)

def fieldData (engine : Engine) (env : Env) : List (String × Term) → List (String × Datum)
  | [] => []
  | (name, t) :: rest => (name, t.datum engine env) :: fieldData engine env rest
end

/-- Whether a term is one value, neither a record nor a group. -/
def isValue : Term → Bool
  | .document _ | .grouping .. => false
  | _ => true

variable {engine : Engine} {registry : Registry} {env env' : Env} {t : Term}

theorem fieldOutlines_eq (fields : List (String × Term)) :
    fieldOutlines fields = fields.map fun f => (f.1, f.2.outline) := by
  induction fields with
  | nil => rfl
  | cons f fields ih => simp [fieldOutlines, ih]

theorem fieldData_eq (fields : List (String × Term)) :
    fieldData engine env fields = fields.map fun f => (f.1, f.2.datum engine env) := by
  induction fields with
  | nil => rfl
  | cons f fields ih => simp [fieldData, ih]

theorem outline_of_isValue (h : t.isValue = true) : t.outline = .ofShape t.shape := by
  cases t with
  | document | grouping => cases h
  | _ => simp only [outline]

theorem datum_of_isValue (h : t.isValue = true) :
    t.datum engine env = .value (t.eval engine env) := by
  cases t with
  | document | grouping => cases h
  | _ => simp only [datum]

/-- What a term stands for is stored as its value. -/
theorem stored_datum (t : Term) : (t.datum engine env).stored = t.eval engine env := by
  induction t using inductionOn with
  | step t ih =>
    cases t with
    | document fields =>
      have members : Datum.storedMembers (fieldData engine env fields) =
          evalFields engine env fields := by
        rw [evalFields_eq, fieldData_eq]
        have ih' : ∀ f ∈ fields, (f.2.datum engine env).stored = f.2.eval engine env :=
          fun f hf => ih f.2 (List.mem_map_of_mem hf)
        clear ih
        induction fields with
        | nil => rfl
        | cons f rest ihRest =>
          rw [List.map_cons, List.map_cons, Datum.storedMembers, ih' f List.mem_cons_self,
            ihRest fun g hg => ih' g (List.mem_cons_of_mem _ hg)]
      simp only [datum, Datum.stored, eval, members]
    | grouping => simp only [datum, Datum.stored, eval]
    | _ => simp only [datum, Datum.stored]

/-! ### Codecs -/

theorem codec_ofShape (s : Shape) : (Outline.ofShape s).codec = s.codec := by
  unfold Outline.ofShape
  split
  · simp only [Outline.stored, Outline.codec, Shape.codec]
  · simp only [Outline.codec]

mutual
/-- The outline of a term gives its codec. -/
theorem codec_outline : (t : Term) → t.outline.codec = t.codec
  | .document fields => by
      simp only [outline, Outline.codec, codec, memberCodecs_fieldOutlines fields]
  | .grouping _ _ _ _ _ => by simp only [outline, Outline.codec, codec]
  | .const _ _ | .field _ _ | .item _ _ _ | .accumulator _ _ _ _ _ | .binary _ _ _
  | .unary _ _ | .cond _ _ _ | .filter _ _ _ | .map _ _ _ | .anyTrue _ | .allTrue _
  | .setOp _ _ | .size _ | .contained _ _ | .elemAt _ _ | .slice _ _ | .reduce _ _ _
  | .sortArray _ _ | .getField _ _ _ => by
      simp only [outline, codec_ofShape, codec_shape]

theorem memberCodecs_fieldOutlines :
    (fields : List (String × Term)) →
      Outline.memberCodecs (fieldOutlines fields) = fieldCodecs fields
  | [] => rfl
  | (name, t) :: rest => by
      simp only [fieldOutlines, Outline.memberCodecs, fieldCodecs, codec_outline t,
        memberCodecs_fieldOutlines rest]
end

/-! ### Operators -/

/-- Operators see the outline of a term as they see its shape. -/
theorem shape_outline (t : Term) :
    t.outline.shape = t.shape ∨ t.shape.Inert ∧ t.outline.shape = .stored t.codec := by
  cases t with
  | const v codec =>
    cases v with
    | array items => exact .inr ⟨by rintro _ _ ⟨⟩; exact ⟨items, rfl⟩, rfl⟩
    | _ => exact .inl rfl
  | document fields =>
    refine .inr ⟨nofun, ?_⟩
    rw [← codec_outline]
    rfl
  | _ => exact .inl rfl

theorem unary_outline (op : UnaryOp) (t : Term) :
    Shape.unary op t.outline.shape = Shape.unary op t.shape := by
  rcases t.shape_outline with same | ⟨inert, stored⟩
  · rw [same]
  · rw [stored, Shape.unary_of_inert (Shape.inert_stored _), Shape.unary_of_inert inert,
      codec_shape]
    rfl

theorem binary_outline (op : BinaryOp) (l r : Term) :
    Shape.binary op l.outline.shape r.outline.shape = Shape.binary op l.shape r.shape := by
  have codec_shape_outline (t : Term) : t.outline.shape.codec = t.shape.codec := by
    rcases t.shape_outline with same | ⟨_, stored⟩
    · rw [same]
    · rw [stored, codec_shape]
      rfl
  rcases l.shape_outline with hl | ⟨inert, stored⟩
  · rcases r.shape_outline with hr | ⟨inert, stored⟩
    · rw [hl, hr]
    · rw [Shape.binary_of_inert (.inr inert),
        Shape.binary_of_inert (.inr (stored ▸ Shape.inert_stored _)), codec_shape_outline,
        codec_shape_outline]
  · rw [Shape.binary_of_inert (.inl inert),
      Shape.binary_of_inert (.inl (stored ▸ Shape.inert_stored _)), codec_shape_outline,
      codec_shape_outline]

theorem isValue_foldUnary (op : UnaryOp) (t : Term) : (foldUnary op t).isValue = true := by
  unfold foldUnary
  split
  · split <;> rfl
  · rfl

theorem isValue_foldBinary (op : BinaryOp) (l r : Term) :
    (foldBinary op l r).isValue = true := by
  unfold foldBinary
  split
  · split <;> rfl
  · rfl

theorem outline_foldUnary (op : UnaryOp) (t : Term) :
    (foldUnary op t).outline = .unary op t.outline := by
  rw [outline_of_isValue (isValue_foldUnary op t), shape_foldUnary, Outline.unary,
    unary_outline]

theorem outline_foldBinary (op : BinaryOp) (l r : Term) :
    (foldBinary op l r).outline = .binary op l.outline r.outline := by
  rw [outline_of_isValue (isValue_foldBinary op l r), shape_foldBinary, Outline.binary,
    binary_outline]

theorem const_of_outline {b : Bool} {codec : Codec}
    (h : t.outline = .value (.constant (.bool b) codec)) : t = .const (.bool b) codec := by
  cases t with
  | const v c =>
    cases v with
    | bool =>
      simp only [outline, shape, Outline.ofShape, Outline.value.injEq,
        Shape.constant.injEq] at h
      rw [h.1, h.2]
    | _ => simp [outline, shape, Outline.ofShape, Outline.stored] at h
  | _ => simp [outline, shape, Outline.ofShape] at h

theorem outline_foldCond (test ifTrue ifFalse : Term) :
    (foldCond test ifTrue ifFalse).outline =
      .cond test.outline ifTrue.outline ifFalse.outline := by
  unfold foldCond
  split
  · rename_i b codec
    cases b <;> rfl
  · rename_i undecided
    unfold Outline.cond
    split
    · rename_i b codec constant
      exact absurd (const_of_outline constant) (undecided b codec)
    · simp only [outline, shape, codec, Outline.ofShape, Outline.stored, codec_outline]

/-- A term stands for what its outline shows. -/
theorem view_datum (t : Term) : t.outline.view (t.datum engine env) = t.datum engine env := by
  cases hvalue : t.isValue with
  | true =>
    rw [outline_of_isValue hvalue, datum_of_isValue hvalue]
    unfold Outline.ofShape
    split <;> rfl
  | false =>
    cases t with
    | document | grouping => simp only [outline, Outline.view]
    | _ => cases hvalue

section Folding

variable (exact : engine.Exact)
include exact

theorem datum_foldUnary (op : UnaryOp) (t : Term) :
    (foldUnary op t).datum engine env = .value (engine.unary op (t.eval engine env)) := by
  rw [datum_of_isValue (isValue_foldUnary op t), eval_foldUnary exact]

theorem datum_foldBinary (op : BinaryOp) (l r : Term) :
    (foldBinary op l r).datum engine env =
      .value (engine.binary op (l.eval engine env) (r.eval engine env)) := by
  rw [datum_of_isValue (isValue_foldBinary op l r), eval_foldBinary exact]

theorem datum_foldCond (test ifTrue ifFalse : Term) :
    (foldCond test ifTrue ifFalse).datum engine env =
      (foldCond test ifTrue ifFalse).outline.view
        (if engine.isTrue (test.eval engine env) then ifTrue.datum engine env
          else ifFalse.datum engine env) := by
  unfold foldCond
  split
  · rename_i b codec
    simp only [eval, exact.isTrue_bool]
    cases b with
    | true => exact (view_datum _).symm
    | false => exact (view_datum _).symm
  · simp only [datum, outline, shape, Outline.ofShape, Outline.view, eval]
    split <;> rw [stored_datum]

end Folding

/-! ### Members -/

variable (registry) in
theorem member_ofShape (s : Shape) (name : String) :
    ∃ s', Outline.ofShape s = .value s' ∧ s'.member? registry name = s.member? registry name := by
  unfold Outline.ofShape
  split
  · exact ⟨_, rfl, rfl⟩
  · exact ⟨s, rfl, rfl⟩

variable (engine) in
/-- A member of a value is read as its codec says, and is a value itself. -/
theorem member_outline_of_isValue {name : String} {target : Term}
    (value : target.isValue = true) (h : target.member registry name = some t) :
    ∃ access : Shape.Access, target.outline.member? registry engine name =
        some (t.outline, fun d => .value (access.read engine d.stored)) ∧
      ∀ env, t.datum engine env = .value (access.read engine (target.eval engine env)) := by
  have no_record : ∀ fields, target ≠ .document fields := by
    rintro fields rfl
    cases value
  have no_group : target.isGrouping = false := by
    cases target with
    | grouping => cases value
    | _ => rfl
  have isMember := isMember_of_member (.other no_record no_group) h
  obtain ⟨access, found, read⟩ := isMember.read
  have stored : ∃ codec, t.shape = .stored codec := by
    rw [shape_member_of_codec no_record] at found
    split at found
    · exact ⟨_, (congrArg Prod.snd (Option.some.inj found)).symm⟩
    · obtain ⟨m, _, heq⟩ := Option.map_eq_some_iff.mp found
      exact ⟨_, (congrArg Prod.snd heq).symm⟩
  obtain ⟨codec, hshape⟩ := stored
  have tvalue : t.isValue = true := by
    cases isMember.readable with
    | record => simp [shape] at hshape
    | other no_record no_group =>
      cases t with
      | document fields => exact absurd rfl (no_record fields)
      | grouping => cases no_group
      | _ => rfl
  obtain ⟨s, hs, hmember⟩ := member_ofShape registry target.shape name
  refine ⟨access, ?_, fun env => by rw [datum_of_isValue tvalue, read engine env]⟩
  rw [outline_of_isValue value, outline_of_isValue tvalue, hs, Outline.member?, hmember, found,
    hshape]
  rfl

variable (engine) in
/-- **A member of a term is read as the outline of the term says.** -/
theorem member_outline {name : String} {target : Term}
    (h : target.member registry name = some t) :
    ∃ read, target.outline.member? registry engine name = some (t.outline, read) ∧
      ∀ env, t.datum engine env = read (target.datum engine env) := by
  cases hvalue : target.isValue with
  | true =>
    obtain ⟨access, houtline, hdatum⟩ := member_outline_of_isValue engine hvalue h
    refine ⟨_, houtline, fun env => ?_⟩
    rw [hdatum, stored_datum]
  | false =>
    cases target with
    | document fields =>
      obtain ⟨⟨member, u⟩, found, rfl⟩ := Option.map_eq_some_iff.mp h
      have outlines : ((·.1 == name) ∘ fun f : String × Term => (f.1, f.2.outline)) =
          (·.1 == name) := rfl
      refine ⟨Datum.part name, ?_, fun env => ?_⟩
      · simp only [outline, Outline.member?, fieldOutlines_eq, List.find?_map, outlines, found,
          Option.map_some]
      · have data : ((·.1 == name) ∘ fun f : String × Term => (f.1, f.2.datum engine env)) =
            (·.1 == name) := rfl
        simp only [datum, Datum.part, fieldData_eq, List.find?_map, data, found,
          Option.map_some, Option.getD_some]
    | grouping group key element predicate distinct =>
      by_cases isKey : name = "Key"
      · simp only [member, isKey, ite_true, Option.some.injEq] at h
        subst h
        refine ⟨Datum.key, by simp [outline, Outline.member?, isKey], fun env => ?_⟩
        simp only [datum, Datum.key]
      · simp [member, isKey] at h
    | _ => cases hvalue

/-! ### Variables -/

theorem readsIn_foldUnary {vars : List String} {op : UnaryOp} (h : t.ReadsIn vars) :
    (foldUnary op t).ReadsIn vars := by
  unfold foldUnary
  split
  · split
    · nofun
    · exact h
  · exact h

theorem readsIn_foldBinary {vars : List String} {op : BinaryOp} {l r : Term}
    (hl : l.ReadsIn vars) (hr : r.ReadsIn vars) : (foldBinary op l r).ReadsIn vars := by
  have unfolded : (Term.binary op l r).ReadsIn vars := by
    intro x hx
    exact (List.mem_append.mp hx).elim (hl x) (hr x)
  unfold foldBinary
  split
  · split
    · nofun
    · exact unfolded
  · exact unfolded

theorem readsIn_foldCond {vars : List String} {test ifTrue ifFalse : Term}
    (ht : test.ReadsIn vars) (hyes : ifTrue.ReadsIn vars) (hno : ifFalse.ReadsIn vars) :
    (foldCond test ifTrue ifFalse).ReadsIn vars := by
  unfold foldCond
  split
  · split
    · exact hyes
    · exact hno
  · intro x hx
    simp only [reads, List.mem_append] at hx
    rcases hx with hx | hx | hx
    · exact ht x hx
    · exact hyes x hx
    · exact hno x hx

theorem reads_key {group : Nat} {key element : Term} {predicate : Option Term}
    {distinct : Bool} {x : String} (h : x ∈ key.reads) :
    x ∈ (grouping group key element predicate distinct).reads := by
  cases predicate with
  | none => exact List.mem_append_left _ h
  | some predicate => exact List.mem_append_left _ h

/-- A member of a term reads what the term reads. -/
theorem readsIn_member {vars : List String} {name : String} {target : Term}
    (ht : target.ReadsIn vars) (h : target.member registry name = some t) :
    t.ReadsIn vars := by
  cases target with
  | document fields =>
    obtain ⟨f, found, rfl⟩ := Option.map_eq_some_iff.mp h
    intro x hx
    exact ht x (mem_fieldReads.mpr ⟨f, List.mem_of_find?_eq_some found, hx⟩)
  | grouping group key element predicate distinct =>
    by_cases isKey : name = "Key"
    · simp only [member, isKey, ite_true, Option.some.injEq] at h
      subst h
      exact fun x hx => ht x (reads_key hx)
    · simp [member, isKey] at h
  | _ =>
    rw [member_of_codec (by simp) rfl] at h
    split at h
    · cases h
      exact ht
    · obtain ⟨m, _, rfl⟩ := Option.map_eq_some_iff.mp h
      exact ht

/-- A term stands for the same wherever the row and the variables it reads are the same. -/
theorem datum_congr (t : Term) :
    ∀ {env env' : Env}, Env.Agree t.reads env env' →
      t.datum engine env = t.datum engine env' := by
  induction t using inductionOn with
  | step t ih =>
    intro env env' agree
    cases hvalue : t.isValue with
    | true => rw [datum_of_isValue hvalue, datum_of_isValue hvalue, eval_congr t agree]
    | false =>
      cases t with
      | document fields =>
        simp only [datum, fieldData_eq, Datum.record.injEq]
        refine List.map_congr_left ?_
        intro f hf
        rw [ih f.2 (List.mem_map_of_mem hf)
          (agree.mono fun x hx => mem_fieldReads.mpr ⟨f, hf, hx⟩)]
      | grouping group key element predicate distinct =>
        simp only [datum, ih key (by simp [children]) (agree.mono fun _ => reads_key)]
      | _ => cases hvalue

/-! ### Slices -/

/-- The slices that a term and its members are leave something out, and their arrays have
a property. -/
inductive Sliced (holds : Term → Prop) : Term → Prop where
  | record {fields : List (String × Term)} (members : ∀ f ∈ fields, Sliced holds f.2) :
      Sliced holds (.document fields)
  | group {stage : Nat} {key element : Term} {predicate : Option Term} {distinct : Bool}
      (key_sliced : Sliced holds key) :
      Sliced holds (.grouping stage key element predicate distinct)
  | slice {array : Term} {b : Bounds} (pending : (Window.ofBounds b).isPending = true)
      (array_holds : holds array) : Sliced holds (.slice array b)
  | other {t : Term} (value : t.isValue = true) (no_slice : t.isSlice = false) :
      Sliced holds t

section Slices

variable {holds : Term → Prop}

theorem sliced_foldUnary (op : UnaryOp) (t : Term) : (foldUnary op t).Sliced holds := by
  refine .other (isValue_foldUnary op t) ?_
  unfold foldUnary
  split
  · split <;> rfl
  · rfl

theorem sliced_foldBinary (op : BinaryOp) (l r : Term) : (foldBinary op l r).Sliced holds := by
  refine .other (isValue_foldBinary op l r) ?_
  unfold foldBinary
  split
  · split <;> rfl
  · rfl

theorem sliced_foldCond (test : Term) {ifTrue ifFalse : Term} (hyes : ifTrue.Sliced holds)
    (hno : ifFalse.Sliced holds) : (foldCond test ifTrue ifFalse).Sliced holds := by
  unfold foldCond
  split
  · split
    · exact hyes
    · exact hno
  · exact .other rfl rfl

/-- Where a condition is decided, only the branch that is chosen matters. -/
theorem sliced_foldCond_of_isTrue (exact : engine.Exact) {test ifTrue ifFalse : Term}
    (h : (if engine.isTrue (test.eval engine env) then ifTrue else ifFalse).Sliced holds) :
    (foldCond test ifTrue ifFalse).Sliced holds := by
  unfold foldCond
  split
  · rename_i b codec
    rwa [eval, exact.isTrue_bool] at h
  · exact .other rfl rfl

theorem sliced_member {name : String} {target : Term} (ht : target.Sliced holds)
    (h : target.member registry name = some t) : t.Sliced holds := by
  have fresh (value : target.isValue = true) : t.Sliced holds := by
    cases target with
    | document | grouping => cases value
    | _ =>
      rw [member_of_codec (by simp) rfl] at h
      split at h
      · cases h
        exact .other rfl rfl
      · obtain ⟨m, _, rfl⟩ := Option.map_eq_some_iff.mp h
        exact .other rfl rfl
  cases ht with
  | record members =>
    obtain ⟨f, found, rfl⟩ := Option.map_eq_some_iff.mp h
    exact members f (List.mem_of_find?_eq_some found)
  | group key_sliced =>
    by_cases isKey : name = "Key"
    · simp only [member, isKey, ite_true, Option.some.injEq] at h
      exact h ▸ key_sliced
    · simp [member, isKey] at h
  | slice => exact fresh rfl
  | other value => exact fresh value

end Slices

/-- The items of an array, if it is one, can be counted. -/
def FewItems (engine : Engine) (env : Env) (array : Term) : Prop :=
  ∀ items, array.eval engine env = some (.array items) → items.length ≤ Window.maxOffset

/-- A term and its members slice only arrays whose items can be counted, so that skipping
more of them never meets the greatest offset. -/
def Countable (engine : Engine) (env : Env) (t : Term) : Prop := t.Sliced (FewItems engine env)

theorem Countable.congr (ht : t.Countable engine env) (agree : Env.Agree t.reads env env') :
    t.Countable engine env' := by
  induction ht with
  | @record fields _ ih =>
    exact .record fun f hf => ih f hf (agree.mono fun x hx => mem_fieldReads.mpr ⟨f, hf, hx⟩)
  | group _ ih => exact .group (ih (agree.mono fun _ => reads_key))
  | @slice array b pending few =>
    refine .slice pending fun items h => few items ?_
    rw [eval_congr array agree, h]
  | other value no_slice => exact .other value no_slice

end Term

end QueryPipeline
