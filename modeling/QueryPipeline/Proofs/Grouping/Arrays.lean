import QueryPipeline.Proofs.Binding.Rows
import QueryPipeline.Proofs.Grouping.Collection

/-!
Arrays in resolved pipelines. Attaching accumulators keeps the codecs of all terms, so what
has to be an array stays stored as one. Turning groups into records does not: a group has
the codec of an array of its elements, its record that of a document. Where no array
operand takes its codec from a group, arrays stay arrays (`Query.arrays_resolved`); where one
does, a document is emitted in its place.
-/

namespace QueryPipeline

namespace Term

/-- The parts that the codec of a term is made of. -/
def codecParts : Term → List Term
  | .document fields => fields.map Prod.snd
  | .binary op left right => if op.isComparison || op.isConnective then [] else [left, right]
  | .unary .negate operand => [operand]
  | .cond _ ifTrue _ => [ifTrue]
  | .filter input _ _ | .slice input _ | .sortArray input _ => [input]
  | .map _ _ body => [body]
  | .setOp _ arguments => arguments.take 1
  | .elemAt array _ => [array]
  | .grouping _ _ element _ _ => [element]
  | _ => []

/-- The codec of the term comes from a group. -/
inductive OfGroup : Term → Prop where
  | grouping {t} : t.isGrouping = true → OfGroup t
  | part {t u} : u ∈ t.codecParts → OfGroup u → OfGroup t

/-- In the term and below it, nothing that has to be an array has its codec from a group. -/
def KeepsGroupsApart (t : Term) : Prop :=
  ∀ u ∈ t.subterms, ∀ array ∈ u.arrayOperands, ¬ array.OfGroup

section WithChildren

variable {t : Term} {parts : List Term}

theorem fieldCodecs_zip {fields : List (String × Term)}
    (hlength : parts.length = fields.length)
    (h : ∀ p ∈ (fields.map Prod.snd).zip parts, p.2.codec = p.1.codec) :
    fieldCodecs ((fields.map Prod.fst).zip parts) = fieldCodecs fields := by
  induction fields generalizing parts with
  | nil => rfl
  | cons f fields ih =>
    obtain ⟨name, t⟩ := f
    cases parts with
    | nil => cases hlength
    | cons u parts =>
      simp only [List.map_cons, List.zip_cons_cons, List.mem_cons, forall_eq_or_imp] at h
      simp only [List.map_cons, List.zip_cons_cons, fieldCodecs, h.1,
        ih (Nat.succ.inj hlength) h.2]

/-- Other parts with the same codecs leave the codec of a term. -/
theorem codec_withChildren (hlength : parts.length = t.children.length)
    (h : ∀ p ∈ t.children.zip parts, p.1 ∈ t.codecParts → p.2.codec = p.1.codec) :
    (t.withChildren parts).codec = t.codec := by
  cases t with
  | const | field => rfl
  | document fields =>
    simp only [children, List.length_map] at hlength
    have codecs : ∀ p ∈ (fields.map Prod.snd).zip parts, p.2.codec = p.1.codec :=
      fun p hp => h p hp (List.of_mem_zip hp).1
    simp only [withChildren, codec, fieldCodecs_zip hlength codecs]
  | setOp op arguments =>
    cases arguments with
    | nil =>
      obtain rfl := List.length_eq_zero_iff.mp hlength
      rfl
    | cons t rest =>
      cases parts with
      | nil => cases hlength
      | cons u parts => exact h (t, u) List.mem_cons_self List.mem_cons_self
  | grouping group key element predicate distinct =>
    cases predicate with
    | none =>
      obtain ⟨_, _, rfl⟩ := List.length_eq_two.mp hlength
      simp_all [children, codecParts, codec, withChildren]
    | some predicate =>
      obtain ⟨_, _, _, rfl⟩ := List.length_eq_three.mp hlength
      simp_all [children, codecParts, codec, withChildren]
  | item | accumulator | anyTrue | allTrue | size | reduce | getField =>
    obtain ⟨_, rfl⟩ := List.length_eq_one_iff.mp hlength
    rfl
  | slice | sortArray =>
    obtain ⟨_, rfl⟩ := List.length_eq_one_iff.mp hlength
    simpa [children, codecParts, codec, withChildren] using h
  | unary op operand =>
    obtain ⟨_, rfl⟩ := List.length_eq_one_iff.mp hlength
    cases op with
    | not => rfl
    | negate => simpa [children, codecParts, codec, withChildren] using h
  | contained value array =>
    obtain ⟨_, _, rfl⟩ := List.length_eq_two.mp hlength
    rfl
  | binary op left right =>
    obtain ⟨_, _, rfl⟩ := List.length_eq_two.mp hlength
    cases plain : op.isComparison || op.isConnective <;>
      simp_all [children, codecParts, codec, withChildren]
  | filter | map | elemAt =>
    obtain ⟨_, _, rfl⟩ := List.length_eq_two.mp hlength
    simp_all [children, codecParts, codec, withChildren]
  | cond =>
    obtain ⟨_, _, _, rfl⟩ := List.length_eq_three.mp hlength
    simp_all [children, codecParts, codec, withChildren]

/-- The array operands of a term with other parts have come from array operands. -/
theorem arrayOperands_withChildren (hlength : parts.length = t.children.length) {array : Term}
    (h : array ∈ (t.withChildren parts).arrayOperands) :
    ∃ p ∈ t.children.zip parts, p.2 = array ∧ p.1 ∈ t.arrayOperands := by
  cases t with
  | setOp op arguments =>
    have zipped : List.Forall₂ (fun u v => (u, v) ∈ arguments.zip parts) arguments parts :=
      List.forall₂_iff_zip.mpr ⟨hlength.symm, id⟩
    obtain ⟨u, hu, hmem⟩ := exists_of_mem_right zipped h
    exact ⟨(u, array), hmem, rfl, hu⟩
  | grouping group key element predicate distinct =>
    cases predicate with
    | none =>
      obtain ⟨_, _, rfl⟩ := List.length_eq_two.mp hlength
      cases h
    | some predicate =>
      obtain ⟨_, _, _, rfl⟩ := List.length_eq_three.mp hlength
      cases h
  | const | field | document => cases h
  | item | accumulator | unary | anyTrue | allTrue | getField =>
    obtain ⟨_, rfl⟩ := List.length_eq_one_iff.mp hlength
    cases h
  | size | slice | reduce | sortArray =>
    obtain ⟨_, rfl⟩ := List.length_eq_one_iff.mp hlength
    simpa [children, arrayOperands, withChildren, eq_comm] using h
  | binary =>
    obtain ⟨_, _, rfl⟩ := List.length_eq_two.mp hlength
    cases h
  | filter | map | contained | elemAt =>
    obtain ⟨_, _, rfl⟩ := List.length_eq_two.mp hlength
    simp_all [children, arrayOperands, withChildren]
  | cond =>
    obtain ⟨_, _, _, rfl⟩ := List.length_eq_three.mp hlength
    cases h

/-- A term with typed parts is typed if its array operands have kept their codecs. -/
theorem ArraysTyped.withChildren (hlength : parts.length = t.children.length)
    (typed : t.ArraysTyped) (hparts : ∀ u ∈ parts, u.ArraysTyped)
    (h : ∀ p ∈ t.children.zip parts, p.1 ∈ t.arrayOperands → p.2.codec = p.1.codec) :
    (t.withChildren parts).ArraysTyped := by
  refine arraysTyped_iff.mpr ⟨?_, ?_⟩
  · intro array harray
    obtain ⟨p, hp, rfl, hoperand⟩ := arrayOperands_withChildren hlength harray
    rw [h p hp hoperand]
    exact typed.operand hoperand
  · rw [children_withChildren hlength]
    exact hparts

end WithChildren

theorem ArraysTyped.subterm {t u : Term} (h : t.ArraysTyped) (hu : u ∈ t.subterms) :
    u.ArraysTyped :=
  fun v hv => h v (mem_subterms_trans hu hv)

/-! ### Attaching -/

/-- **Attaching accumulators keeps codecs**, and what has to be an array stays stored as
one. -/
theorem Attached.typed {computes : Accumulator → Prop} {t u : Term}
    (h : t.Attached computes u) : u.codec = t.codec ∧ (t.ArraysTyped → u.ArraysTyped) := by
  induction h with
  | accumulator => exact ⟨rfl, fun _ => .field⟩
  | @other t parts _ hlength _ ih =>
    have codecs : ∀ p ∈ t.children.zip parts, p.2.codec = p.1.codec := fun p hp => (ih p hp).1
    constructor
    · exact codec_withChildren hlength fun p hp _ => codecs p hp
    · intro typed
      refine typed.withChildren hlength ?_ fun p hp _ => codecs p hp
      have related : List.Forall₂ (fun t u => t.ArraysTyped → u.ArraysTyped) t.children parts :=
        List.forall₂_iff_zip.mpr ⟨hlength.symm, fun hmem => (ih _ hmem).2⟩
      intro u hu
      obtain ⟨t, ht, inherits⟩ := exists_of_mem_right related hu
      exact inherits (typed.child ht)

/-- The sources of accumulators that are found in a typed term are typed. -/
theorem Found.typed {t u : Term} {b : Accumulator} (h : t.Found u b) (typed : t.ArraysTyped) :
    b.source.ArraysTyped := by
  obtain ⟨source, hsource, hmem⟩ := h.origin
  exact hsource.typed.2 ((typed.subterm hmem).child (by simp [Accumulator.term, children]))

/-! ### Spelling out groups -/

/-- What becomes of a typed term when its groups are turned into records: it is typed if
groups are kept apart from arrays, and has its codec unless that came from a group. -/
def SpelledTyped (t u : Term) : Prop :=
  (t.ArraysTyped → t.KeepsGroupsApart → u.ArraysTyped) ∧ (¬ t.OfGroup → u.codec = t.codec)

theorem KeepsGroupsApart.child {t u : Term} (h : t.KeepsGroupsApart) (hu : u ∈ t.children) :
    u.KeepsGroupsApart :=
  fun v hv => h v (mem_subterms_of_child hu hv)

theorem spelledTyped_record {group : Nat} {key element : Term} {distinct : Bool}
    {kind : AccumulatorKind} {output : String} {codec : Codec} :
    SpelledTyped (.grouping group key element none distinct)
      (.document [("Key", key), ("Elements", .accumulator group kind element output codec)])
      := by
  constructor
  · intro typed _
    have hkey : key.ArraysTyped := typed.child (by simp [children])
    have helement : element.ArraysTyped := typed.child (by simp [children])
    refine .of_parts rfl ?_
    simp only [children, List.map_cons, List.map_nil, List.forall_mem_cons]
    exact ⟨hkey, .of_parts rfl (by simpa [children] using helement), by simp⟩
  · intro apart
    exact absurd (.grouping rfl) apart

end Term

/-- Turning groups into records, when it does not fail, keeps arrays apart from groups. -/
theorem groupsToRecords_typed :
    groupsToRecords.Sound (fun s => s.fault = none) (fun _ => True) (fun t => t.isPlain)
      Term.SpelledTyped where
  enter_reflects := groupsToRecords_sound.enter_reflects
  leave_reflects := groupsToRecords_sound.leave_reflects
  enter t := by
    cases t with
    | grouping group key element predicate distinct =>
      intro s hend _
      cases predicate with
      | none => exact ⟨trivial, Term.spelledTyped_record⟩
      | some predicate => cases hend
    | accumulator => exact ensures_pure ⟨fun typed _ => typed, fun _ => rfl⟩
    | _ => exact ensures_pure rfl
  leave := by
    intro t parts plain hparts
    obtain ⟨hlength, hzip⟩ := List.forall₂_iff_zip.mp hparts
    refine ensures_pure ⟨?_, ?_⟩
    · intro typed apart
      refine typed.withChildren hlength.symm ?_ ?_
      · intro v hv
        obtain ⟨u, hu, huv⟩ := exists_of_mem_right hparts hv
        exact huv.1 (typed.child hu) (apart.child hu)
      · intro p hp hoperand
        exact (hzip hp).2 (apart t (Term.mem_subterms_self t) _ hoperand)
    · intro apart
      refine Term.codec_withChildren hlength.symm ?_
      intro p hp hpart
      exact (hzip hp).2 fun ofGroup => apart (.part hpart ofGroup)

/-! ### Pipelines -/

namespace Pipeline

/-- What has to be an array is stored as one in all terms of the pipeline. -/
structure ArraysTyped (p : Pipeline) : Prop where
  stages : ∀ s ∈ p.stages, ∀ t ∈ s.terms, t.ArraysTyped
  projector : p.projector.ArraysTyped
  result : ∀ r ∈ p.result, r.source.ArraysTyped

/-- Where groups are read as values, none of them stands for an array. -/
structure KeepsGroupsApart (p : Pipeline) : Prop where
  projector : p.projector.KeepsGroupsApart
  result : ∀ r ∈ p.result, r.source.KeepsGroupsApart

variable {p spelled attached : Pipeline}

theorem ArraysTyped.spellOutGroups {next : Nat} (typed : p.ArraysTyped)
    (apart : p.KeepsGroupsApart) (h : p.spellOutGroups next = .ok spelled) :
    spelled.ArraysTyped := by
  obtain ⟨hstages, -, hprojector, hresult⟩ :=
    related_of_spellOutGroups groupsToRecords_typed h
  refine ⟨hstages ▸ typed.stages, hprojector.1 typed.projector apart.projector, ?_⟩
  intro r' hr'
  obtain ⟨r, hr, source, rfl, hsource⟩ := (exists_of_rel hresult).2 r' hr'
  exact hsource.1 (typed.result r hr) (apart.result r hr)

theorem ArraysTyped.of_hasTerm (typed : p.ArraysTyped) {i : Nat} {t : Term}
    (ht : p.HasTerm i t) : t.ArraysTyped := by
  cases ht with
  | stage hs ht => exact typed.stages _ (List.mem_of_getElem? hs) _ ht
  | projector => exact typed.projector
  | result hr => exact typed.result _ hr

theorem ArraysTyped.collectAccumulators (typed : p.ArraysTyped)
    (h : p.collectAccumulators = .ok attached) : attached.ArraysTyped := by
  obtain ⟨ofStages, ofProjector, ofResult, findings⟩ := findings_of_eq_ok h
  have related := findings.related
  refine ⟨?_, related.projector.typed.2 typed.projector, ?_⟩
  · intro s' hs' u hu
    obtain ⟨s, hs, hstage⟩ := exists_of_mem_right related.stages hs'
    obtain ⟨us, vs, hterms, hparts, hadded⟩ := hstage.terms
    rw [hterms] at hu
    rcases List.mem_append.mp hu with hu | hu
    · obtain ⟨t, ht, htu⟩ := exists_of_mem_right hparts hu
      exact htu.typed.2 (typed.stages s hs t ht)
    · obtain ⟨b, hb, rfl⟩ := hadded u hu
      obtain ⟨i, t, u, ht, hfound⟩ := findings.origin hb
      exact hfound.typed (typed.of_hasTerm ht)
  · intro r' hr'
    obtain ⟨r, hr, source, rfl, hsource⟩ := (exists_of_rel related.result).2 r' hr'
    exact hsource.typed.2 (typed.result r hr)

theorem ArraysTyped.reduceResult (typed : p.ArraysTyped) : p.reduceResult.ArraysTyped := by
  refine ⟨?_, ?_, ?_⟩
  · intro s hs t ht
    obtain ⟨more, hstages, hmore⟩ := reduceResult_stages (p := p)
    rw [hstages] at hs
    rcases List.mem_append.mp hs with hs | hs
    · exact typed.stages s hs t ht
    · rcases hmore s hs t ht with rfl | ⟨r, hr, rfl⟩
      · exact .const
      · exact typed.result r hr
  · rcases reduceResult_projector (p := p) with heq | ⟨codec, heq⟩
    · rw [heq]
      exact typed.projector
    · rw [heq]
      exact .field
  · rw [reduceResult_result]
    exact typed.result

end Pipeline

/-! ### Queries -/

/-- **Arrays stay arrays where groups do not stand for them.** In all terms of the resolved
pipeline, what has to be an array is stored as one. -/
theorem Query.arrays_resolved {registry : Registry} {q : Query} {p resolved : Pipeline}
    {c : Context} (bound : (q.bind registry).Yields {} p c)
    (h : p.resolveGroups c.minted = .ok resolved) (apart : p.KeepsGroupsApart) :
    resolved.ArraysTyped := by
  unfold Pipeline.resolveGroups at h
  obtain ⟨spelled, hspelled, h⟩ := bind_eq_ok.mp h
  obtain ⟨attached, hattached, h⟩ := bind_eq_ok.mp h
  obtain rfl := pure_eq_ok.mp h
  have built := bind_bound bound
  have typed : p.ArraysTyped := ⟨built.terms, built.projector, built.result⟩
  exact ((typed.spellOutGroups apart hspelled).collectAccumulators hattached).reduceResult

/-! ### A group beside an array, and a group as an array -/

/-- The ages 20 and 30 in each city, with the inhabitants who have them. -/
def roundAges : Query where
  collection := "people"
  itemType := .document "Person"
  clauses := [
    ⟨"Queryable", "Where", [], [.lambda ["x"]
      (.call (.const (.array [.int32 20, .int32 30]) (.array .int32))
        ⟨"Enumerable", "Contains", [], [.member (.param "x") "Age"]⟩)]⟩,
    ⟨"Queryable", "GroupBy", [], [.lambda ["x"] (.member (.param "x") "City"),
      .lambda ["x"] (.member (.param "x") "Age")]⟩,
    ⟨"Queryable", "Select", [], [.lambda ["g"]
      (.new [("City", .member (.param "g") "Key"), ("Ages", .param "g")])]⟩]

/-- As it is bound, an array is searched and a group is read as a value. -/
def roundAgesBound : Pipeline where
  stages := [
    .filter (.contained (.field (.field "age") .int32)
      (.const (.array [.int32 20, .int32 30]) (.arrayOf .int32))),
    .group (.field (.field "city") .string) []]
  projector := .document [("City", .field (.field keyField) .string),
    ("Ages", .grouping 1 (.field (.field keyField) .string) (.field (.field "age") .int32)
      none false)]

/-- As it is resolved, the group is a record. -/
def roundAgesResolved : Pipeline where
  stages := [
    .filter (.contained (.field (.field "age") .int32)
      (.const (.array [.int32 20, .int32 30]) (.arrayOf .int32))),
    .group (.field (.field "city") .string)
      [⟨1, .push, .field (.field "age") .int32, "__agg0", .arrayOf .int32⟩]]
  projector := .document [("City", .field (.field keyField) .string),
    ("Ages", .document [("Key", .field (.field keyField) .string),
      ("Elements", .field (.field "__agg0") (.arrayOf .int32))])]

theorem roundAges_arrays :
    (roundAges.bind inhabitants).Yields {} roundAgesBound ⟨{}, 0⟩ ∧
      roundAgesBound.resolveGroups 0 = .ok roundAgesResolved ∧
      roundAgesBound.KeepsGroupsApart ∧ roundAgesResolved.ArraysTyped := by
  have bound : (roundAges.bind inhabitants).Yields {} roundAgesBound ⟨{}, 0⟩ := rfl
  have resolved : roundAgesBound.resolveGroups 0 = .ok roundAgesResolved := rfl
  have apart : roundAgesBound.KeepsGroupsApart := by
    refine ⟨?_, fun r hr => by cases hr⟩
    simp [Term.KeepsGroupsApart, roundAgesBound, Term.subterms, Term.fieldSubterms,
      Term.arrayOperands]
  exact ⟨bound, resolved, apart, Query.arrays_resolved bound resolved apart⟩

/-- The first age in each city, read from the group itself. -/
def firstAges : Query where
  collection := "people"
  itemType := .document "Person"
  clauses := [
    ⟨"Queryable", "GroupBy", [], [.lambda ["x"] (.member (.param "x") "City"),
      .lambda ["x"] (.member (.param "x") "Age")]⟩,
    ⟨"Queryable", "Select", [], [.lambda ["g"]
      (.index (.param "g") (.const (.int32 0) .int32))]⟩]

/-- As it is bound, the group is indexed. -/
def firstAgesBound : Pipeline where
  stages := [.group (.field (.field "city") .string) []]
  projector := .elemAt
    (.grouping 0 (.field (.field keyField) .string) (.field (.field "age") .int32) none false)
    (.int32 0)

/-- As it is resolved, its record is. -/
def firstAgesResolved : Pipeline where
  stages := [.group (.field (.field "city") .string)
    [⟨0, .push, .field (.field "age") .int32, "__agg0", .arrayOf .int32⟩]]
  projector := .elemAt
    (.document [("Key", .field (.field keyField) .string),
      ("Elements", .field (.field "__agg0") (.arrayOf .int32))])
    (.int32 0)

/-- A group that is indexed is taken for an array when the query is bound, but a document
is written in its place. -/
theorem firstAges_index_a_document :
    (firstAges.bind inhabitants).Yields {} firstAgesBound ⟨{}, 0⟩ ∧
      firstAgesBound.resolveGroups 0 = .ok firstAgesResolved ∧
      (∃ array ∈ firstAgesResolved.projector.arrayOperands, array.codec.isArray = false) ∧
      firstAgesResolved.projector.emit [] = .ok (.operator "$arrayElemAt" (.array
        [.document [("Key", .string "$_id"), ("Elements", .string "$__agg0")], .int32 0])) :=
  ⟨rfl, rfl, ⟨_, List.mem_cons_self, rfl⟩, rfl⟩

end QueryPipeline
