import QueryPipeline.Proofs.Binding.Throughout
import QueryPipeline.Proofs.Binding.Lambda
import QueryPipeline.Proofs.Semantics.Shape
import QueryPipeline.Proofs.Semantics.Stage

/-!
Reading a key back (`Query.key_readsBack`). Behind a group the key is read from the field that
holds it, and a record is read back member by member, each by the codec that it had when it was a
key; what lies deeper is found through the class that such a codec makes of a record. Members of
the key itself are found in another way: in a record by their name, on a path by one name more,
and elsewhere by picking a field. Both ways agree, however long the chain of members is.

Names in a record have to differ for that, since a value is read from a record by its name.
Binding sees to it, in keys and in everything else.
-/

namespace QueryPipeline

variable {registry : Registry}

/-! ### Chains of members -/

/-- A chain of members of an expression. -/
def Expr.members (e : Expr) (names : List String) : Expr := names.foldl Expr.member e

/-- A chain of members of a term. -/
def Term.members (registry : Registry) (t : Term) (names : List String) : Option Term :=
  names.foldlM (fun t name => t.member registry name) t

namespace Expr

variable {c c' : Context} {t u : Term}

/-- A member is a member of what its target is bound to. -/
theorem yields_member {e : Expr} {name : String} :
    ((e.member name).bind registry).Yields c u c' ↔
      ∃ t, (e.bind registry).Yields c t c' ∧ t.member registry name = some u := by
  rw [Expr.bind, BindM.yields_bind]
  constructor
  · rintro ⟨t, c₁, ht, h⟩
    cases hmember : t.member registry name with
    | none =>
      rw [hmember] at h
      exact absurd h BindM.not_yields_throw
    | some v =>
      rw [hmember] at h
      obtain ⟨rfl, rfl⟩ := BindM.yields_pure.mp h
      exact ⟨t, ht, hmember⟩
  · rintro ⟨t, ht, hmember⟩
    refine ⟨t, c', ht, ?_⟩
    rw [hmember]
    exact BindM.yields_pure.mpr ⟨rfl, rfl⟩

theorem yields_members {e : Expr} {names : List String} :
    ((e.members names).bind registry).Yields c u c' ↔
      ∃ t, (e.bind registry).Yields c t c' ∧ t.members registry names = some u := by
  induction names generalizing e with
  | nil => simp [members, Term.members]
  | cons name rest ih =>
    have step : e.members (name :: rest) = (e.member name).members rest := rfl
    simp only [step, ih, yields_member, Term.members, List.foldlM_cons, Option.bind_eq_bind,
      Option.bind_eq_some_iff]
    constructor
    · rintro ⟨u, ⟨t, ht, hu⟩, hrest⟩
      exact ⟨t, ht, u, hu, hrest⟩
    · rintro ⟨t, ht, u, hu, hrest⟩
      exact ⟨u, ⟨t, ht, hu⟩, hrest⟩

/-- The only parameter in scope. -/
theorem yields_param_push {name : String} :
    ((Expr.param name).bind registry).Yields (c.push name t) t (c.push name t) := by
  unfold Expr.bind
  rw [BindM.yields_lookup, Context.lookup_push, Function.update_self]
  exact ⟨rfl, rfl⟩

end Expr

/-! ### Names in records -/

namespace Term

/-- If the term is a record, the names of its members differ. -/
def HasDistinctNames : Term → Prop
  | .document fields => (fields.map Prod.fst).Nodup
  | _ => True

/-- Binding makes records with distinct names only, and keys are read back under theirs. -/
theorem inherited_hasDistinctNames (registry : Registry) :
    Pipeline.Inherits registry HasDistinctNames where
  other {t} h := by
    cases t with
    | document fields => cases h
    | _ => trivial
  record distinct := distinct
  slice _ := trivial
  child _ _ _ := trivial
  row _ := trivial
  reread same distinct := by
    simp only [HasDistinctNames, ← same]
    exact distinct

/-- Where records have distinct names and no group is left, members can be read. -/
theorem readable_of_distinct {t : Term} (distinct : t.Everywhere HasDistinctNames)
    (ungrouped : t.contains isGrouping = false) : t.Readable := by
  induction t using inductionOn with
  | step t ih =>
    cases t with
    | document fields =>
      refine .record distinct.self ?_
      intro f hf
      have hchild : f.2 ∈ (Term.document fields).children := List.mem_map_of_mem hf
      exact ih f.2 hchild (distinct.child hchild) (not_contains_child hchild ungrouped)
    | grouping group key element predicate once =>
      simp [contains_eq, isGrouping] at ungrouped
    | _ => exact .other (by simp) rfl

end Term

theorem Query.bind_distinctNames {q : Query} {p : Pipeline} {c : Context}
    (h : (q.bind registry).Yields {} p c) :
    p.projector.Everywhere Term.HasDistinctNames :=
  (Query.bind_throughout (Term.inherited_hasDistinctNames registry) (fun _ => trivial) h).projector

/-! ### Values over the rows that are grouped -/

/-- Values of the terms over a row, as the engine reads and builds them. Accumulators may
have any value: they stand for fields that groups before have yet to compute. -/
structure Engine.Evaluates (engine : Engine) (value : Term → Option Value) : Prop where
  field_child {path codec name codec'} : value (.field (path.child name) codec') =
    engine.read name (value (.field path codec))
  item_child {array var codec name codec'} :
    value (.field ((FieldPath.ofVar var).child name) codec') =
      engine.read name (value (.item array var codec))
  document {fields} : value (.document fields) =
    some (.document (Document.ofPresent (fields.map fun f => (f.1, value f.2))))
  size {array} : value (.size array) = Value.size (value array)
  getField {input name codec} :
    value (.getField input name codec) = engine.read name (value input)

/-- The values that terms have for a row are such values. -/
theorem Engine.evaluates_valueIn (engine : Engine) (row : Value) :
    engine.Evaluates (·.valueIn engine row) where
  field_child := by
    intro path codec name codec'
    exact FieldPath.eval_child engine _ path name
  item_child := by
    intro array var codec name codec'
    simp only [Term.valueIn, Term.eval, FieldPath.eval_child]
    rfl
  document := by
    intro fields
    simp only [Term.valueIn, Term.eval, Term.evalFields_eq]
  size := by
    intro array
    simp only [Term.valueIn, Term.eval]
  getField := by
    intro input name codec
    simp only [Term.valueIn, Term.eval]

/-- The key is found in the row of its group, under a name that no accumulator has. -/
theorem read_keyField_groupRow {engine : Engine} {accumulators : List Accumulator}
    (apart : keyField ∉ accumulators.map Accumulator.output) (key : Option Value)
    (rows : List Value) :
    engine.read keyField (some (groupRow engine accumulators (key, rows))) = key := by
  unfold groupRow
  simp only [Engine.read]
  cases key with
  | some v => simp [keyField, Document.get?]
  | none =>
    rw [Document.ofPresent_cons_none, Document.get?_ofPresent_of_notMem]
    simpa [Function.comp_def] using apart

/-! ### Members by codec -/

namespace Term

variable {t u : Term} {name : String} {codec : Codec}

theorem readable_of_readsByCodec (h : t.readsByCodec = true) : t.Readable := by
  cases t with
  | document | grouping => cases h
  | _ => exact .other nofun rfl

theorem readsByCodec_element : (t.element name codec).readsByCodec = true := by
  cases t <;> rfl

theorem codec_element : (t.element name codec).codec = codec := by
  cases t <;> simp only [element, Term.codec]

theorem value_element {engine : Engine} {value : Term → Option Value}
    (evaluates : engine.Evaluates value) :
    value (t.element name codec) = engine.read name (value t) := by
  cases t with
  | field => exact evaluates.field_child
  | item => exact evaluates.item_child
  | _ => exact evaluates.getField

/-- How the codec of a value says that a member is read, and the codec of the member. -/
def access? (registry : Registry) (codec : Codec) (name : String) :
    Option (Shape.Access × Codec) :=
  if codec.isArray && (name == "Length" || name == "Count") then some (.size, .int32)
  else (registry.member? codec name).map fun m => (.element m.1, m.2)

theorem access?_eq_some_of_member (h : t.readsByCodec = true)
    (hmember : t.member registry name = some u) :
    u.readsByCodec = true ∧ ∃ access, access? registry t.codec name = some (access, u.codec) ∧
      ∀ {engine : Engine} {value : Term → Option Value}, engine.Evaluates value →
        value u = access.read engine (value t) := by
  rw [member_of_readsByCodec h] at hmember
  unfold access?
  split at hmember
  · rename_i counted
    cases hmember
    refine ⟨rfl, .size, ?_, fun evaluates => evaluates.size⟩
    rw [if_pos counted, codec]
  · rename_i uncounted
    obtain ⟨m, found, rfl⟩ := Option.map_eq_some_iff.mp hmember
    refine ⟨readsByCodec_element, .element m.1, ?_, value_element⟩
    rw [if_neg uncounted, found, codec_element]
    rfl

/-- A record has the class of its members. -/
theorem member?_record (fields : List (String × Term)) :
    registry.member? (Term.document fields).codec name =
      (fields.find? (·.1 == name)).map fun f => (f.1, f.2.codec) := by
  have sameName : ((·.name == name) ∘ fun f : String × Codec =>
      Member.mk f.1 f.1 (.derived f.2)) ∘ (fun f : String × Term => (f.1, f.2.codec)) =
        (·.1 == name) := rfl
  simp only [Term.codec, Registry.member?, ClassMap.find?, ClassMap.ofRecord,
    ClassMap.members, fieldCodecs_eq, List.find?_map, sameName]
  cases fields.find? (·.1 == name) with
  | none => rfl
  | some f => rfl

/-- **How a member is read follows from the codec of its target**, whether it is found there
or in a record. -/
theorem member_read (readable : t.Readable) (h : t.member registry name = some u) :
    u.Readable ∧ ∃ access, access? registry t.codec name = some (access, u.codec) ∧
      ∀ {engine : Engine} {value : Term → Option Value}, engine.Evaluates value →
        value u = access.read engine (value t) := by
  cases readable with
  | @record fields distinct fields_readable =>
    obtain ⟨⟨member, u⟩, found, rfl⟩ := Option.map_eq_some_iff.mp h
    obtain rfl : member = name := by simpa using List.find?_some found
    have hmem : (member, u) ∈ fields := List.mem_of_find?_eq_some found
    refine ⟨fields_readable _ hmem, .element member, ?_, ?_⟩
    · have notArray : (Term.document fields).codec.isArray = false := by
        rw [Term.codec]
        rfl
      simp [access?, notArray, member?_record, found]
    intro engine value evaluates
    have names : ((fields.map fun f => (f.1, value f.2)).map Prod.fst).Nodup := by
      simpa [Function.comp_def] using distinct
    have hvalue : (member, value u) ∈ fields.map fun f => (f.1, value f.2) :=
      List.mem_map_of_mem hmem
    rw [evaluates.document]
    exact Eq.symm (Engine.read_ofPresent names hvalue : engine.read member _ = value u)
  | other no_record no_group =>
    have byCodec : t.readsByCodec = true := by
      cases t with
      | document fields => exact absurd rfl (no_record fields)
      | grouping => cases no_group
      | _ => rfl
    obtain ⟨hu, read⟩ := access?_eq_some_of_member byCodec h
    exact ⟨readable_of_readsByCodec hu, read⟩

/-- What the codec says is found. -/
theorem exists_member_of_access? (h : t.readsByCodec = true) {found : Shape.Access × Codec}
    (haccess : access? registry t.codec name = some found) :
    ∃ u, t.member registry name = some u := by
  rw [member_of_readsByCodec h]
  unfold access? at haccess
  split at haccess
  · rename_i counted
    exact ⟨_, if_pos counted⟩
  · rename_i uncounted
    obtain ⟨m, hm, -⟩ := Option.map_eq_some_iff.mp haccess
    rw [if_neg uncounted, hm]
    exact ⟨_, rfl⟩

end Term

/-! ### Keys -/

namespace Term

/-- What is read from the rows of a group has the codec and the value of a term over the rows
that were grouped by a key. -/
structure ReadsBack (key u v : Term) : Prop where
  codec : v.codec = u.codec
  value {engine : Engine} {value : Term → Option Value} {accumulators : List Accumulator}
    {rows : List Value} : engine.Evaluates value →
      keyField ∉ accumulators.map Accumulator.output →
        v.valueIn engine (groupRow engine accumulators (value key, rows)) = value u

variable {key u v w : Term} {name : String}

/-- The field that holds the key. -/
theorem readsBack_keyField (key : Term) :
    key.ReadsBack key (.field (.field keyField) key.codec) where
  codec := by rw [codec]
  value := by
    intro engine value accumulators rows _ apart
    exact read_keyField_groupRow apart (value key) rows

/-- **What is read back has the members of what it stands for.** -/
theorem ReadsBack.member (h : key.ReadsBack u v) (readable : u.Readable)
    (byCodec : v.readsByCodec = true) (hw : u.member registry name = some w) :
    ∃ v', v.member registry name = some v' ∧ key.ReadsBack w v' ∧ w.Readable ∧
      v'.readsByCodec = true := by
  obtain ⟨hreadable, access, haccess, hread⟩ := member_read readable hw
  rw [← h.codec] at haccess
  obtain ⟨v', hv'⟩ := exists_member_of_access? byCodec haccess
  obtain ⟨hbyCodec, access', haccess', hread'⟩ := access?_eq_some_of_member byCodec hv'
  obtain ⟨rfl, hcodec⟩ : access = access' ∧ w.codec = v'.codec := by
    simpa using haccess.symm.trans haccess'
  refine ⟨v', hv', ⟨hcodec.symm, ?_⟩, hreadable, hbyCodec⟩
  intro engine value accumulators rows evaluates apart
  calc v'.valueIn engine _ = access.read engine (v.valueIn engine _) :=
        hread' (engine.evaluates_valueIn _)
    _ = access.read engine (value u) := by rw [h.value evaluates apart]
    _ = value w := (hread evaluates).symm

/-- A chain of members of what is read back. -/
theorem ReadsBack.members {names : List String} (h : key.ReadsBack u v) (readable : u.Readable)
    (byCodec : v.readsByCodec = true) (hw : u.members registry names = some w) :
    ∃ v', v.members registry names = some v' ∧ key.ReadsBack w v' := by
  induction names generalizing u v with
  | nil =>
    obtain rfl : u = w := by simpa [Term.members] using hw
    exact ⟨v, rfl, h⟩
  | cons name rest ih =>
    simp only [Term.members, List.foldlM_cons, Option.bind_eq_bind,
      Option.bind_eq_some_iff] at hw
    obtain ⟨u', hu', hrest⟩ := hw
    obtain ⟨v₁, hv₁, hback, hreadable, hbyCodec⟩ := h.member readable byCodec hu'
    obtain ⟨v', hv', hresult⟩ := ih hback hreadable hbyCodec hrest
    refine ⟨v', ?_, hresult⟩
    simp only [Term.members, List.foldlM_cons, hv₁]
    exact hv'

/-- The members of a key are those that its codec says, whether they are spelled out or not. -/
theorem member_asGroupKey (key : Term) (name : String) :
    key.asGroupKey.member registry name =
      (Term.field (.field keyField) key.codec).member registry name := by
  unfold asGroupKey
  split
  · rename_i fields
    have sameName : ((·.1 == name) ∘ fun f : String × Term =>
        (f.1, Term.field ((FieldPath.field keyField).child f.1) f.2.codec)) =
          (·.1 == name) := rfl
    have byCodec : (Term.field (.field keyField) (Term.document fields).codec).member registry
        name = (registry.member? (Term.document fields).codec name).map fun m =>
          Term.field ((FieldPath.field keyField).child m.1) m.2 := by
      rw [member_of_readsByCodec rfl, Term.codec, Term.codec]
      rfl
    rw [byCodec, member?_record]
    simp only [Term.member, List.find?_map, sameName, Option.map_map]
    rfl
  · rfl

/-- **A key as it is read after its group is the key.** -/
theorem readsBack_asGroupKey (readable : key.Readable) : key.ReadsBack key key.asGroupKey := by
  cases readable with
  | @record fields distinct fields_readable =>
    constructor
    · simp only [asGroupKey, codec, fieldCodecs_eq, List.map_map, Function.comp_def]
    · intro engine value accumulators rows evaluates apart
      have names : ((fields.map fun f => (f.1, value f.2)).map Prod.fst).Nodup := by
        simpa [Function.comp_def] using distinct
      have whole : (Term.field (.field keyField) _).valueIn engine
          (groupRow engine accumulators (value (.document fields), rows)) = _ :=
        (readsBack_keyField (.document fields)).value evaluates apart
      rw [asGroupKey, (engine.evaluates_valueIn _).document, evaluates.document, List.map_map]
      congr 3
      refine List.map_congr_left fun f hf => congrArg (Prod.mk f.1) ?_
      have hmem : (f.1, value f.2) ∈ fields.map fun f => (f.1, value f.2) :=
        List.mem_map_of_mem hf
      rw [← evaluates.document]
      calc (Term.field ((FieldPath.field keyField).child f.1) f.2.codec).valueIn engine _
          = engine.read f.1 ((Term.field (.field keyField) _).valueIn engine _) :=
            (engine.evaluates_valueIn _).field_child
        _ = engine.read f.1 (value (.document fields)) := by rw [whole]
        _ = value f.2 := by rw [evaluates.document, Engine.read_ofPresent names hmem]
  | other no_record no_group =>
    have asField : key.asGroupKey = .field (.field keyField) key.codec := by
      unfold asGroupKey
      split
      · exact absurd rfl (no_record _)
      · rfl
    rw [asField]
    exact readsBack_keyField key

/-- So is a chain of its members. -/
theorem exists_members_asGroupKey {names : List String} (readable : key.Readable)
    (hu : key.members registry names = some u) :
    ∃ v, key.asGroupKey.members registry names = some v ∧ key.ReadsBack u v := by
  cases names with
  | nil =>
    obtain rfl : key = u := by simpa [Term.members] using hu
    exact ⟨key.asGroupKey, rfl, readsBack_asGroupKey readable⟩
  | cons name rest =>
    obtain ⟨v, hv, hback⟩ := (readsBack_keyField key).members readable rfl hu
    refine ⟨v, ?_, hback⟩
    rwa [Term.members, List.foldlM_cons, member_asGroupKey]

end Term

/-! ### Queries -/

/-- How the rows of a pipeline may be grouped by a key, and how a lambda over what follows
reads the key: as the key of a group, or as the element itself where equal ones are kept
once. -/
inductive Pipeline.GroupsBy (p : Pipeline) (key : Term) :
    Pipeline → (String → Expr) → Prop where
  | groupBy {p' element site} : p.groupBy key element site = .ok p' →
      GroupsBy p key p' fun g => (Expr.param g).member "Key"
  | distinct {p' site} : key = p.projector → p.distinct site = .ok p' →
      GroupsBy p key p' Expr.param

namespace Pipeline.GroupsBy

variable {p p' : Pipeline} {key : Term} {read : String → Expr}

/-- The key is not made of groups. -/
theorem ungrouped (h : p.GroupsBy key p' read) : key.contains Term.isGrouping = false := by
  cases h with
  | groupBy h =>
    unfold Pipeline.groupBy at h
    split at h
    · cases h
    · rename_i none
      rw [Bool.not_eq_true, Bool.or_eq_false_iff] at none
      exact none.1
  | distinct hkey h =>
    unfold Pipeline.distinct at h
    split at h
    · cases h
    · rename_i none
      rw [hkey]
      exact Bool.not_eq_true _ ▸ none

theorem last_stage (h : p.GroupsBy key p' read) :
    p'.stages.getLast? = some (.group key []) := by
  cases h with
  | groupBy h =>
    unfold Pipeline.groupBy at h
    split at h
    · cases h
    · cases h
      simp [push]
  | distinct hkey h =>
    unfold Pipeline.distinct at h
    split at h
    · cases h
    · cases h
      simp [openGroup, push, hkey]

/-- The key is read back as such. -/
theorem yields_read (h : p.GroupsBy key p' read) (c : Context) (parameter : String) :
    ((read parameter).bind registry).Yields (c.push parameter p'.projector) key.asGroupKey
      (c.push parameter p'.projector) := by
  cases h with
  | groupBy h =>
    unfold Pipeline.groupBy at h
    split at h
    · cases h
    · cases h
      exact Expr.yields_member.mpr ⟨_, Expr.yields_param_push, rfl⟩
  | distinct hkey h =>
    unfold Pipeline.distinct at h
    split at h
    · cases h
    · cases h
      rw [hkey]
      exact Expr.yields_param_push

end Pipeline.GroupsBy

/-- **A group key reads back as itself.** Whatever rows a query has come to, if they are
grouped by what an expression over them is bound to, then each chain of members that the
expression has is also bound over the groups, where it starts at the key. It has the same
codec and, in the row of a group, the value that the chain has in the rows of the group,
those that make the key. -/
theorem Query.key_readsBack {q : Query} {p p' : Pipeline} {c : Context}
    (bound : (q.bind registry).Yields {} p c) {minted : Nat} {x : String} {e : Expr}
    {key : Term} {c₁ : Context}
    (hkey : (e.bind registry).Yields (({ minted } : Context).push x p.projector) key c₁)
    {read : String → Expr} (groups : p.GroupsBy key p' read) :
    p'.stages.getLast? = some (.group key []) ∧
      ∀ (names : List String) (u : Term) (c₂ : Context),
        ((e.members names).bind registry).Yields
            (({ minted } : Context).push x p.projector) u c₂ →
          ∃ v, key.asGroupKey.members registry names = some v ∧
            (∀ (c : Context) (y : String), (((read y).members names).bind registry).Yields
              (c.push y p'.projector) v (c.push y p'.projector)) ∧
            v.codec = u.codec ∧
            ∀ {engine : Engine} {value : Term → Option Value} {rows : List Value}
              {accumulators : List Accumulator}, engine.Evaluates value →
                keyField ∉ accumulators.map Accumulator.output →
                  v.valueIn engine (groupRow engine accumulators (value key, rows)) =
                    value u := by
  have inScope : (({ minted } : Context).push x p.projector).Every
      (Term.Everywhere Term.HasDistinctNames) := by
    refine Context.Every.push nofun ?_
    intro f hf
    obtain rfl := List.mem_singleton.mp hf
    exact Query.bind_distinctNames bound
  have distinct : key.Everywhere Term.HasDistinctNames :=
    (Expr.bind_keeps ((Term.inherited_hasDistinctNames registry).toInherited.invariant
      fun _ => trivial) e () inScope hkey).1
  have readable := Term.readable_of_distinct distinct groups.ungrouped
  refine ⟨groups.last_stage, ?_⟩
  intro names u c₂ hu
  obtain ⟨t, ht, hmembers⟩ := Expr.yields_members.mp hu
  obtain ⟨rfl, rfl⟩ := hkey.unique ht
  obtain ⟨v, hv, readsBack⟩ := Term.exists_members_asGroupKey readable hmembers
  refine ⟨v, hv, ?_, readsBack.codec, readsBack.value⟩
  intro c y
  exact Expr.yields_members.mpr ⟨key.asGroupKey, groups.yields_read c y, hv⟩

/-! ### A record in a record -/

/-- People live at an address. -/
def residents : Registry :=
  .ofList [.mk "Address" none [.mk "City" "city" (.static .string)],
    .mk "Person" none [.mk "Address" "addr" (.static (.document "Address"))]]

/-- The address of a person, two records deep. -/
def nestedKey : Expr := .new [("A", .new [("B", .member (.param "x") "Address")])]

/-- A person who lives in Rome. -/
def resident : Value := .document [("addr", .document [("city", .string "Rome")])]

theorem nestedKey_readsBack :
    ∃ p p' key c₁ u c₂ v,
      (Query.bind residents ⟨"people", .document "Person", []⟩).Yields {} p {} ∧
      (nestedKey.bind residents).Yields (({} : Context).push "x" p.projector) key c₁ ∧
      p.groupBy key p.projector "" = .ok p' ∧
      ((nestedKey.members ["A", "B", "City"]).bind residents).Yields
        (({} : Context).push "x" p.projector) u c₂ ∧
      ((((Expr.param "g").member "Key").members ["A", "B", "City"]).bind residents).Yields
        (({} : Context).push "g" p'.projector) v (({} : Context).push "g" p'.projector) ∧
      v.codec = .string ∧
      v.valueIn .folding (groupRow .folding [] (key.valueIn .folding resident, [])) =
        some (.string "Rome") := by
  obtain ⟨p, key, c₁, p', u, c₂, bound, hkey, groups, hu, hcodec, hvalue⟩ :
      ∃ p key c₁ p' u c₂,
        (Query.bind residents ⟨"people", .document "Person", []⟩).Yields {} p {} ∧
        (nestedKey.bind residents).Yields (({} : Context).push "x" p.projector) key c₁ ∧
        p.groupBy key p.projector "" = .ok p' ∧
        ((nestedKey.members ["A", "B", "City"]).bind residents).Yields
          (({} : Context).push "x" p.projector) u c₂ ∧
        u.codec = .string ∧ u.valueIn .folding resident = some (.string "Rome") :=
    ⟨_, _, _, _, _, _, rfl, rfl, rfl, rfl, rfl, rfl⟩
  obtain ⟨-, reads⟩ := Query.key_readsBack bound hkey (.groupBy groups)
  obtain ⟨v, -, hv, codec, value⟩ := reads ["A", "B", "City"] u c₂ hu
  refine ⟨p, p', key, c₁, u, c₂, v, bound, hkey, groups, hu, hv {} "g", codec.trans hcodec, ?_⟩
  exact (value (Engine.folding.evaluates_valueIn resident) (by simp)).trans hvalue

end QueryPipeline
