import QueryPipeline.Binding.Query
import QueryPipeline.Proofs.Term.Children

/-!
Names in terms. A name with a dollar sign in front, its sigil, would be taken for a path or
an operator where it is written, and variables have names of a form of their own. A term is
free of sigils if no name in it has one, nor any element that its codecs speak of, so that
its members are free of them again.
-/

namespace QueryPipeline

/-! ### Names -/

/-- Whether a name starts with no dollar sign. -/
def hasNoSigil (name : String) : Bool := name.toList.head? != some '$'

/-- A name without a sigil is not that of an operator. -/
theorem ne_of_hasNoSigil {name operator : String} (h : hasNoSigil name)
    (sigil : hasNoSigil operator = false) : name ≠ operator := by
  rintro rfl
  rw [sigil] at h
  cases h

/-- Whether a name is one that the server takes for a variable, in ASCII: a small letter and
then letters, digits and underscores. -/
def isServerName (name : String) : Bool :=
  match name.toList with
  | [] => false
  | c :: rest => c.isLower && rest.all fun c => c.isAlphanum || c == '_'

/-- Variables are read by such names whatever their parameters are called. -/
theorem isServerName_serverVar (parameter : String) :
    isServerName (serverVar parameter) = true := by
  simp only [serverVar]
  split
  · rename_i h
    unfold isServerName
    cases hchars : parameter.toList with
    | nil => simp [hchars] at h
    | cons c rest =>
      simp only [hchars, List.head?_cons, Option.any_some, List.all_cons,
        Bool.and_eq_true] at h
      rw [Bool.and_eq_true]
      exact ⟨h.1, h.2.2⟩
  · have chars : ("v_" ++ String.ofList (parameter.toList.map fun c =>
        if c.isAlphanum then c else '_')).toList =
          'v' :: '_' :: parameter.toList.map fun c => if c.isAlphanum then c else '_' := by
      simp
    unfold isServerName
    rw [chars]
    simp only [Bool.and_eq_true, List.all_cons, List.all_map, List.all_eq_true]
    refine ⟨by decide, by decide, fun c _ => ?_⟩
    by_cases h : c.isAlphanum <;> simp [h]

/-- The names of accumulators have no sigil. -/
theorem hasNoSigil_accumulatorName (n : Nat) : hasNoSigil (accumulatorName n) = true := by
  simp [hasNoSigil, accumulatorName]

/-- Joined names do not start with a dollar sign if the first one does not. -/
theorem FieldPath.hasNoSigil_dotted {p : FieldPath} (h : ∀ name ∈ p.segments, hasNoSigil name) :
    hasNoSigil p.dotted := by
  obtain ⟨var, segments⟩ := p
  cases segments with
  | nil => simp [hasNoSigil, dotted]
  | cons name rest =>
    have hname : hasNoSigil name := h name List.mem_cons_self
    simp only [hasNoSigil, dotted, String.toList_intercalate] at hname ⊢
    cases hchars : name.toList with
    | nil => cases rest <;> simp [List.intercalate, hchars]
    | cons c cs => cases rest <;> simpa [List.intercalate, hchars] using hname

/-! ### Codecs -/

mutual
/-- Whether no element that a codec speaks of has a sigil. -/
def Codec.isSigilFree : Codec → Bool
  | .scalar _ | .dynamic | .array none => true
  | .document c => c.isSigilFree
  | .array (some item) => item.isSigilFree

/-- Whether no element of the members of a class has a sigil. -/
def ClassMap.isSigilFree : ClassMap → Bool
  | .mk _ _ members => Member.allSigilFree members

def Member.allSigilFree : List Member → Bool
  | [] => true
  | .mk _ element type :: rest =>
    hasNoSigil element && type.isSigilFree && Member.allSigilFree rest

def MemberSource.isSigilFree : MemberSource → Bool
  | .static _ => true
  | .derived codec => codec.isSigilFree
end

/-- Whether no member of the registered classes is stored under a name with a sigil. -/
def Registry.isSigilFree (r : Registry) : Bool := r.classes.all ClassMap.isSigilFree

theorem Member.allSigilFree_iff {members : List Member} :
    Member.allSigilFree members = true ↔
      ∀ m ∈ members, hasNoSigil m.element ∧ m.type.isSigilFree := by
  induction members with
  | nil => simp [allSigilFree]
  | cons m rest ih =>
    obtain ⟨name, element, type⟩ := m
    simp only [allSigilFree, Bool.and_eq_true, ih, List.forall_mem_cons, Member.element,
      Member.type]

/-- The class of a record is free of sigils if the names and the codecs of its members are. -/
theorem ClassMap.isSigilFree_ofRecord {members : List (String × Codec)}
    (h : ∀ m ∈ members, hasNoSigil m.1 ∧ m.2.isSigilFree) :
    (ClassMap.ofRecord members).isSigilFree = true := by
  simp only [ofRecord, isSigilFree, Member.allSigilFree_iff]
  intro m hm
  obtain ⟨f, hf, rfl⟩ := List.mem_map.mp hm
  exact h f hf

theorem Codec.isSigilFree_item {codec item : Codec} (h : codec.isSigilFree)
    (hitem : codec.item? = some item) : item.isSigilFree = true := by
  unfold item? at hitem
  split at hitem
  · subst hitem
    simpa only [isSigilFree] using h
  · cases hitem

namespace Registry

variable {registry : Registry} (free : registry.isSigilFree)
include free

theorem isSigilFree_class {name : String} {c : ClassMap} (h : registry.class? name = some c) :
    c.isSigilFree = true :=
  List.all_eq_true.mp free c (List.mem_of_find?_eq_some h)

/-- The codecs of static types are free of sigils. -/
theorem isSigilFree_codec {type : ValueType} {codec : Codec}
    (h : registry.codec? type = some codec) : codec.isSigilFree = true := by
  induction type generalizing codec with
  | document name =>
    obtain ⟨c, hc, rfl⟩ := Option.map_eq_some_iff.mp h
    simpa only [Codec.isSigilFree] using isSigilFree_class free hc
  | array item ih =>
    cases h
    cases hitem : registry.codec? item with
    | none => rfl
    | some codec => simpa only [Codec.isSigilFree] using ih hitem
  | _ =>
    cases h
    rfl

/-- A member of a value is stored under a name without a sigil, if it is not by its own name
that it is read from an untyped value. -/
theorem isSigilFree_member {codec codec' : Codec} {name element : String}
    (hcodec : codec.isSigilFree) (hname : codec = .dynamic → hasNoSigil name)
    (h : registry.member? codec name = some (element, codec')) :
    hasNoSigil element ∧ codec'.isSigilFree := by
  unfold member? at h
  split at h
  · rename_i c
    simp only [Option.bind_eq_bind, Option.bind_eq_some_iff, Option.pure_def,
      Option.some.injEq, Prod.mk.injEq] at h
    obtain ⟨m, hm, memberCodec, hmemberCodec, rfl, rfl⟩ := h
    obtain ⟨typeName, mark, members⟩ := c
    simp only [Codec.isSigilFree, ClassMap.isSigilFree, Member.allSigilFree_iff] at hcodec
    obtain ⟨helement, htype⟩ := hcodec m (List.mem_of_find?_eq_some hm)
    refine ⟨helement, ?_⟩
    unfold memberCodec? at hmemberCodec
    split at hmemberCodec
    · exact isSigilFree_codec free hmemberCodec
    · rename_i derived heq
      cases hmemberCodec
      rw [heq] at htype
      simpa only [MemberSource.isSigilFree] using htype
  · cases h
    exact ⟨hname rfl, rfl⟩
  · cases h
  · cases h

end Registry

/-! ### Terms -/

namespace Term

/-- The names that a term brings along itself, apart from its parts, have no sigil, its
variable is named as the server wants it, and its codec is free of sigils. -/
def OwnNamesFree : Term → Prop
  | .const _ codec | .item _ _ codec | .reduce _ _ codec => codec.isSigilFree
  | .field path codec => (∀ name ∈ path.segments, hasNoSigil name) ∧ codec.isSigilFree
  | .document fields => ∀ f ∈ fields, hasNoSigil f.1
  | .accumulator _ _ _ output codec => hasNoSigil output ∧ codec.isSigilFree
  | .filter _ var _ | .map _ var _ => isServerName var
  | .getField _ name codec => hasNoSigil name ∧ codec.isSigilFree
  | .sortArray _ keys => ∀ k ∈ keys, ∀ path ∈ k.path, hasNoSigil path
  | _ => True

/-- No name in the term and below it has a sigil. -/
def SigilFree (t : Term) : Prop := ∀ u ∈ t.subterms, u.OwnNamesFree

variable {t u v w : Term}

theorem sigilFree_iff : t.SigilFree ↔ t.OwnNamesFree ∧ ∀ u ∈ t.children, u.SigilFree := by
  constructor
  · intro h
    exact ⟨h t (mem_subterms_self t), fun u hu v hv => h v (mem_subterms_of_child hu hv)⟩
  · rintro ⟨own, parts⟩ v hv
    rcases mem_subterms_cases hv with rfl | ⟨u, hu, hv⟩
    · exact own
    · exact parts u hu v hv

theorem ownNamesFree_withChildren {parts : List Term} (h : t.OwnNamesFree) :
    (t.withChildren parts).OwnNamesFree := by
  unfold withChildren
  split
  · rename_i fields parts
    intro f hf
    obtain ⟨g, hg, hname⟩ := List.mem_map.mp (List.of_mem_zip hf).1
    exact hname ▸ h g hg
  all_goals exact h

namespace SigilFree

theorem own (h : t.SigilFree) : t.OwnNamesFree := h t (mem_subterms_self t)

theorem child (h : t.SigilFree) (hu : u ∈ t.children) : u.SigilFree :=
  (sigilFree_iff.mp h).2 u hu

theorem const {v : Value} {codec : Codec} (h : codec.isSigilFree) :
    SigilFree (.const v codec) :=
  sigilFree_iff.mpr ⟨h, nofun⟩

theorem field {path : FieldPath} {codec : Codec}
    (names : ∀ name ∈ path.segments, hasNoSigil name) (h : codec.isSigilFree) :
    SigilFree (.field path codec) :=
  sigilFree_iff.mpr ⟨⟨names, h⟩, nofun⟩

/-- The codec of a term without sigils has none. -/
theorem codec (h : t.SigilFree) : t.codec.isSigilFree = true := by
  induction t using inductionOn with
  | step t ih =>
    have parts : ∀ u ∈ t.children, u.codec.isSigilFree = true :=
      fun u hu => ih u hu (h.child hu)
    cases t with
    | const | item | reduce => exact h.own
    | field | accumulator | getField => exact h.own.2
    | document fields =>
      rw [Term.codec, Codec.isSigilFree]
      refine ClassMap.isSigilFree_ofRecord ?_
      have names := h.own
      clear ih h
      induction fields with
      | nil => simp [fieldCodecs]
      | cons f rest ihrest =>
        obtain ⟨name, t⟩ := f
        simp only [fieldCodecs, List.forall_mem_cons]
        simp only [children, List.map_cons, List.forall_mem_cons] at parts
        exact ⟨⟨names (name, t) List.mem_cons_self, parts.1⟩,
          ihrest parts.2 fun f hf => names f (List.mem_cons_of_mem _ hf)⟩
    | binary op left right =>
      rw [Term.codec]
      split
      · rfl
      · split
        · rfl
        · exact parts left (by simp [children])
    | unary op operand =>
      cases op with
      | not => rfl
      | negate => exact parts operand (by simp [children])
    | cond test ifTrue ifFalse => exact parts ifTrue (by simp [children])
    | filter input | slice input | sortArray input => exact parts input (by simp [children])
    | map input var body => exact parts body (by simp [children])
    | anyTrue | allTrue | contained | size => rfl
    | setOp op arguments =>
      cases arguments with
      | nil => rfl
      | cons first rest => exact parts first (by simp [children])
    | elemAt array position =>
      rw [Term.codec]
      cases hitem : array.codec.item? with
      | none => rfl
      | some item => exact Codec.isSigilFree_item (parts array (by simp [children])) hitem
    | grouping group key element predicate distinct =>
      exact parts element (by simp [children])

/-! ### Ways to build a term -/

theorem item {array : Term} {var : String} {codec : Codec} (h : codec.isSigilFree)
    (harray : array.SigilFree) : SigilFree (.item array var codec) :=
  sigilFree_iff.mpr ⟨h, by simpa [children] using harray⟩

theorem document {fields : List (String × Term)} (names : ∀ f ∈ fields, hasNoSigil f.1)
    (parts : ∀ u ∈ fields.map Prod.snd, u.SigilFree) : SigilFree (.document fields) :=
  sigilFree_iff.mpr ⟨names, parts⟩

theorem accumulator {group : Nat} {kind : AccumulatorKind} {source : Term} {output : String}
    {codec : Codec} (name : hasNoSigil output) (h : codec.isSigilFree)
    (hsource : source.SigilFree) :
    SigilFree (.accumulator group kind source output codec) :=
  sigilFree_iff.mpr ⟨⟨name, h⟩, by simpa [children] using hsource⟩

theorem filter {var : String} (named : isServerName var) (hu : u.SigilFree)
    (hv : v.SigilFree) : SigilFree (.filter u var v) :=
  sigilFree_iff.mpr ⟨named, by simp [children, hu, hv]⟩

theorem map {var : String} (named : isServerName var) (hu : u.SigilFree)
    (hv : v.SigilFree) : SigilFree (.map u var v) :=
  sigilFree_iff.mpr ⟨named, by simp [children, hu, hv]⟩

theorem of_parts (own : t.OwnNamesFree) (parts : ∀ u ∈ t.children, u.SigilFree) :
    t.SigilFree :=
  sigilFree_iff.mpr ⟨own, parts⟩

/-- Putting parts without sigils in the place of those that are there. -/
theorem withChildren {parts : List Term} (h : t.SigilFree)
    (hlength : parts.length = t.children.length) (hparts : ∀ u ∈ parts, u.SigilFree) :
    (t.withChildren parts).SigilFree :=
  .of_parts (ownNamesFree_withChildren h.own) (by rwa [children_withChildren hlength])

theorem sortArray {keys : List ItemKey} (names : ∀ k ∈ keys, ∀ path ∈ k.path, hasNoSigil path)
    (hu : u.SigilFree) : SigilFree (.sortArray u keys) :=
  .of_parts names (by simpa [children] using hu)

theorem binary {op : BinaryOp} (hu : u.SigilFree) (hv : v.SigilFree) :
    SigilFree (.binary op u v) :=
  .of_parts trivial (by simp [children, hu, hv])

/-- The test of a document's class. -/
theorem classTest {path : FieldPath} {mark : String}
    (names : ∀ name ∈ path.segments, hasNoSigil name) :
    SigilFree (.binary .eq (.field (path.child discriminatorElement) .string)
      (.string mark)) := by
  refine .binary (.field ?_ rfl) (.const rfl)
  intro name hname
  rcases List.mem_append.mp hname with hname | hname
  · exact names name hname
  · rw [List.mem_singleton.mp hname]
    decide

theorem foldBinary {op : BinaryOp} (hu : u.SigilFree) (hv : v.SigilFree) :
    (Term.foldBinary op u v).SigilFree := by
  unfold Term.foldBinary
  split
  · split
    · refine .const ?_
      unfold foldedCodec
      split
      · rfl
      · rfl
      · exact hu.own
    · exact .binary hu hv
  · exact .binary hu hv

theorem foldUnary {op : UnaryOp} (hu : u.SigilFree) : (Term.foldUnary op u).SigilFree := by
  have built : (Term.unary op u).SigilFree := .of_parts trivial (by simp [children, hu])
  unfold Term.foldUnary
  split
  · split
    · exact .const hu.own
    · exact built
  · exact built

theorem foldCond (hu : u.SigilFree) (hv : v.SigilFree) (hw : w.SigilFree) :
    (Term.foldCond u v w).SigilFree := by
  unfold Term.foldCond
  split
  · split
    · exact hv
    · exact hw
  · exact .of_parts trivial (by simp [children, hu, hv, hw])

theorem groupKey (h : t.SigilFree) : (Operator.groupKey t).SigilFree := by
  unfold Operator.groupKey
  split
  · exact h.child (by simp [children])
  · exact h

/-- The key of a group's row is read by the names of its members. -/
theorem asGroupKey (h : t.SigilFree) : t.asGroupKey.SigilFree := by
  unfold Term.asGroupKey
  split
  · rename_i fields
    have names : ∀ f ∈ fields, hasNoSigil f.1 := h.own
    refine .document ?_ ?_
    · intro f hf
      obtain ⟨g, hg, rfl⟩ := List.mem_map.mp hf
      exact names g hg
    · intro u hu
      simp only [List.map_map, List.mem_map, Function.comp] at hu
      obtain ⟨f, hf, rfl⟩ := hu
      refine .field ?_ (h.child (List.mem_map_of_mem hf)).codec
      intro name hname
      simp only [FieldPath.field, FieldPath.child, List.singleton_append, List.mem_cons,
        List.not_mem_nil, or_false] at hname
      rcases hname with rfl | rfl
      · decide
      · exact names f hf
  · exact .field (by simp [FieldPath.field]; decide) h.codec

/-- **A member of a term has no sigils** if it is not by such a name that it is read from an
untyped value. -/
theorem member {registry : Registry} (free : registry.isSigilFree) {name : String}
    (ht : t.SigilFree) (hname : t.codec = .dynamic → hasNoSigil name)
    (h : t.member registry name = some u) : u.SigilFree := by
  unfold Term.member at h
  split at h
  · obtain ⟨f, hf, rfl⟩ := Option.map_eq_some_iff.mp h
    exact ht.child (List.mem_map_of_mem (List.mem_of_find?_eq_some hf))
  · split at h
    · cases h
      exact ht.child (by simp [children])
    · cases h
  · split at h
    · cases h
      exact .of_parts trivial (by simpa [children] using ht)
    · obtain ⟨⟨element, codec⟩, hmember, rfl⟩ := Option.map_eq_some_iff.mp h
      obtain ⟨helement, hcodec⟩ := registry.isSigilFree_member free ht.codec hname hmember
      simp only
      split
      · rename_i path _
        refine .field ?_ hcodec
        intro name hmem
        rcases List.mem_append.mp hmem with hmem | hmem
        · exact ht.own.1 name hmem
        · exact List.mem_singleton.mp hmem ▸ helement
      · exact .field (by simpa [FieldPath.ofVar, FieldPath.child] using helement) hcodec
      · exact sigilFree_iff.mpr ⟨⟨helement, hcodec⟩, by simpa [children] using ht⟩

end SigilFree

end Term

end QueryPipeline
