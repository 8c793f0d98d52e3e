import QueryPipeline.Proofs.Grouping.Collection
import QueryPipeline.Proofs.GroupProjection

/-!
Shared accumulators. An accumulator reads the field of one that was found before it, if that
has its group, its kind and the same source, where terms are the same if their constants
agree as values. Constants may agree and be written differently: the order of the fields of a
document does not count, and neither does the sign of zero. Where no two constants of a
pipeline agree in this way, every accumulator reads what its own source would have given
(`Pipeline.readsOwn_of_resolved`); where two do, the second one reads what the first one
computes.
-/

namespace QueryPipeline

/-! ### Constants -/

namespace Term

/-- The value is a constant in the term. -/
def HasConstant (t : Term) (v : Value) : Prop := ∃ codec, .const v codec ∈ t.subterms

/-- All constants of the second term are constants of the first one. -/
def AddsNoConstant (t u : Term) : Prop := ∀ v, u.HasConstant v → t.HasConstant v

variable {t u : Term} {v : Value}

theorem hasConstant_const {codec : Codec} : (Term.const v codec).HasConstant v :=
  ⟨codec, mem_subterms_self _⟩

theorem HasConstant.of_subterm (hu : u ∈ t.subterms) (h : u.HasConstant v) :
    t.HasConstant v := by
  obtain ⟨codec, hmem⟩ := h
  exact ⟨codec, mem_subterms_trans hu hmem⟩

theorem HasConstant.of_child (hu : u ∈ t.children) (h : u.HasConstant v) : t.HasConstant v :=
  h.of_subterm (mem_subterms_of_child hu (mem_subterms_self u))

/-- The constants of a term are those of its parts, unless it is one itself. -/
theorem HasConstant.cases (h : t.HasConstant v) :
    (∃ codec, t = .const v codec) ∨ ∃ u ∈ t.children, u.HasConstant v := by
  obtain ⟨codec, hmem⟩ := h
  rcases mem_subterms_cases hmem with rfl | ⟨u, hu, hmem⟩
  · exact .inl ⟨codec, rfl⟩
  · exact .inr ⟨u, hu, codec, hmem⟩

theorem eq_const_of_withChildren {parts : List Term} {codec : Codec}
    (h : t.withChildren parts = .const v codec) : t = .const v codec := by
  unfold withChildren at h
  split at h <;> first | exact h | cases h

/-- Parts that add no constants make a term that adds none. -/
theorem addsNoConstant_withChildren {parts : List Term}
    (h : List.Forall₂ AddsNoConstant t.children parts) :
    t.AddsNoConstant (t.withChildren parts) := by
  intro v hv
  rcases hv.cases with ⟨codec, heq⟩ | ⟨w, hw, hv⟩
  · exact eq_const_of_withChildren heq ▸ hasConstant_const
  · rw [children_withChildren h.length_eq.symm] at hw
    obtain ⟨u, hu, adds⟩ := exists_of_mem_right h hw
    exact (adds v hv).of_child hu

/-- **Terms that are the same are identical** if their constants are where they agree. -/
theorem eq_of_same (h : t.same u = true)
    (exact : ∀ v w, t.HasConstant v → u.HasConstant w → v.same w = true → v = w) : t = u := by
  induction t using inductionOn generalizing u with
  | step t ih =>
    rcases same_parts h with ⟨v, w, codec, rfl, rfl, hsame⟩ | ⟨hu, parts⟩
    · rw [exact v w hasConstant_const hasConstant_const hsame]
    · have equal : List.Forall₂ Eq t.children u.children := by
        obtain ⟨hlength, hzip⟩ := List.forall₂_iff_zip.mp parts
        refine List.forall₂_iff_zip.mpr ⟨hlength, fun hmem => ?_⟩
        obtain ⟨ht, hu⟩ := List.of_mem_zip hmem
        exact ih _ ht (hzip hmem) fun v w hv hw => exact v w (hv.of_child ht) (hw.of_child hu)
      rw [List.forall₂_eq_eq_eq] at equal
      rw [hu, ← equal, withChildren_children]

/-- Attaching accumulators adds no constants. -/
theorem Attached.addsNoConstant {computes : Accumulator → Prop} (h : t.Attached computes u) :
    t.AddsNoConstant u := by
  induction h with
  | accumulator =>
    intro v hv
    obtain ⟨codec, hmem⟩ := hv
    cases List.mem_singleton.mp hmem
  | other _ hlength _ ih =>
    exact addsNoConstant_withChildren
      (List.forall₂_iff_zip.mpr ⟨hlength.symm, fun hmem => ih _ hmem⟩)

/-- The source of an accumulator that was found has constants of the term. -/
theorem Found.hasConstant {b : Accumulator} (h : t.Found u b) (hv : b.source.HasConstant v) :
    t.HasConstant v := by
  obtain ⟨source, hsource, hmem⟩ := h.origin
  refine HasConstant.of_subterm hmem ?_
  exact (hsource.addsNoConstant v hv).of_child (by simp [Accumulator.term, children])

/-- The record of a group has the constants of its key and its elements. -/
theorem addsNoConstant_record {group : Nat} {key element : Term} {distinct : Bool}
    {kind : AccumulatorKind} {output : String} {codec : Codec} :
    AddsNoConstant (.grouping group key element none distinct)
      (.document [("Key", key), ("Elements", .accumulator group kind element output codec)])
      := by
  intro v hv
  rcases hv.cases with ⟨_, heq⟩ | ⟨u, hu, hpart⟩
  · cases heq
  · simp only [children, List.map_cons, List.map_nil, List.mem_cons, List.not_mem_nil,
      or_false] at hu
    rcases hu with rfl | rfl
    · exact hpart.of_child (by simp [children])
    · rcases hpart.cases with ⟨_, heq⟩ | ⟨source, hsource, hconstant⟩
      · cases heq
      · obtain rfl := List.mem_singleton.mp hsource
        exact hconstant.of_child (by simp [children])

end Term

/-- Turning groups into records adds no constants. -/
theorem groupsToRecords_addsNoConstant :
    groupsToRecords.Sound (fun s => s.fault = none) (fun _ => True) (fun _ => True)
      Term.AddsNoConstant where
  enter_reflects := groupsToRecords_sound.enter_reflects
  leave_reflects := groupsToRecords_sound.leave_reflects
  enter t := by
    cases t with
    | grouping group key element predicate distinct =>
      intro s hend _
      cases predicate with
      | none => exact ⟨trivial, Term.addsNoConstant_record⟩
      | some predicate => cases hend
    | accumulator => exact ensures_pure fun _ hv => hv
    | _ => exact ensures_pure trivial
  leave _ hparts := ensures_pure (Term.addsNoConstant_withChildren hparts)

namespace Pipeline

/-- The value is a constant in a term of the pipeline. -/
def HasConstant (p : Pipeline) (v : Value) : Prop :=
  ∃ i t, p.HasTerm i t ∧ t.HasConstant v

/-- Spelling out groups adds no constants. -/
theorem HasConstant.of_spelledOut {p spelled : Pipeline} {next : Nat} {v : Value}
    (hv : spelled.HasConstant v) (h : p.spellOutGroups next = .ok spelled) :
    p.HasConstant v := by
  obtain ⟨hstages, -, hprojector, hresult⟩ :=
    related_of_spellOutGroups groupsToRecords_addsNoConstant h
  obtain ⟨i, t, ht, hv⟩ := hv
  cases ht with
  | stage hs ht => exact ⟨_, _, .stage (hstages ▸ hs) ht, hv⟩
  | projector => exact ⟨_, _, .projector, hprojector v hv⟩
  | result hr' =>
    obtain ⟨r, hr, source, rfl, hsource⟩ := (exists_of_rel hresult).2 _ hr'
    exact ⟨_, _, .result hr, hsource v hv⟩

end Pipeline

/-! ### What fields hold -/

/-- What a group computes under a name: the kind of the value and its source. -/
def computedUnder (stages : List Stage) (group : Nat) (name : String) :
    Option (AccumulatorKind × Term) :=
  match stages[group]? with
  | some (.group _ accumulators) =>
    (accumulators.find? (·.output == name)).map fun a => (a.kind, a.source)
  | _ => none

/-- Where the fields of a group have distinct names, the name of an accumulator finds it. -/
theorem computedUnder_of_computes {stages : List Stage} {b : Accumulator}
    (distinct : ∀ s ∈ stages, s.HasDistinctFields) (h : Computes stages b) :
    computedUnder stages b.group b.output = some (b.kind, b.source) := by
  obtain ⟨id, accumulators, hget, hb⟩ := h
  have names : (accumulators.map Accumulator.output).Nodup :=
    (List.nodup_cons.mp (distinct _ (List.mem_of_getElem? hget))).2
  simp only [computedUnder, hget, find?_of_distinct names hb, Option.map_some]

namespace Term

/-- What becomes of a term when each of its accumulators is replaced by the field under which
its group computes the same kind of value from just its source. -/
inductive ReadsOwn (computed : Nat → String → Option (AccumulatorKind × Term)) :
    Term → Term → Prop where
  | accumulator {group kind source source' output name codec} :
      ReadsOwn computed source source' → computed group name = some (kind, source') →
      ReadsOwn computed (.accumulator group kind source output codec)
        (.field (.field name) codec)
  | other {t : Term} {parts : List Term} :
      t.isAccumulator = false → parts.length = t.children.length →
      (∀ p ∈ t.children.zip parts, ReadsOwn computed p.1 p.2) →
      ReadsOwn computed t (t.withChildren parts)

/-- What becomes of an accumulator is a field which holds its own value. -/
theorem ReadsOwn.field_of_accumulator
    {computed : Nat → String → Option (AccumulatorKind × Term)} {a : Accumulator} {u : Term}
    (h : a.term.ReadsOwn computed u) :
    ∃ name source, u = .field (.field name) a.codec ∧ a.source.ReadsOwn computed source ∧
      computed a.group name = some (a.kind, source) := by
  simp only [Accumulator.term] at h
  cases h with
  | accumulator hsource hcomputed => exact ⟨_, _, rfl, hsource, hcomputed⟩
  | other form => cases form

/-- **Accumulators that share a field** of their group are of one kind, and their sources
become the one that the field is computed from. -/
theorem ReadsOwn.shared {computed : Nat → String → Option (AccumulatorKind × Term)}
    {a a' : Accumulator} {path : FieldPath} {codec codec' : Codec}
    (same : a.group = a'.group) (h : a.term.ReadsOwn computed (.field path codec))
    (h' : a'.term.ReadsOwn computed (.field path codec')) :
    a.kind = a'.kind ∧ ∃ name source, path = .field name ∧
      computed a.group name = some (a.kind, source) ∧
      a.source.ReadsOwn computed source ∧ a'.source.ReadsOwn computed source := by
  obtain ⟨name, source, hfield, hsource, hcomputed⟩ := h.field_of_accumulator
  obtain ⟨name', source', hfield', hsource', hcomputed'⟩ := h'.field_of_accumulator
  obtain ⟨rfl, -⟩ := Term.field.inj hfield
  obtain ⟨path_eq, -⟩ := Term.field.inj hfield'
  obtain rfl : name = name' := by simpa [FieldPath.field] using path_eq
  rw [← same, hcomputed] at hcomputed'
  obtain ⟨hkind, rfl⟩ := Prod.mk.inj (Option.some.inj hcomputed')
  exact ⟨hkind, name, source, rfl, hcomputed, hsource, hsource'⟩

/-- An accumulator that is attached to one which has the same source reads its own value, if
constants that agree are identical. -/
theorem Attached.readsOwn {computes : Accumulator → Prop}
    {computed : Nat → String → Option (AccumulatorKind × Term)} {constants : Value → Prop}
    (exact : ∀ v w, constants v → constants w → v.same w = true → v = w)
    (sources : ∀ b, computes b → ∀ v, b.source.HasConstant v → constants v)
    (named : ∀ b, computes b → computed b.group b.output = some (b.kind, b.source))
    {t u : Term} (h : t.Attached computes u) (ht : ∀ v, t.HasConstant v → constants v) :
    t.ReadsOwn computed u := by
  induction h with
  | @accumulator group kind source source' output codec b hsource hb hgroup hkind hsame ih =>
    have hconstants : ∀ v, source.HasConstant v → constants v := fun v hv =>
      ht v (hv.of_child (by simp [children]))
    -- Both sources have constants of the pipeline only, so to be the same is to be identical.
    have own : b.source = source' := by
      rcases hsame with heq | hsame
      · exact heq
      · refine eq_of_same hsame ?_
        intro v w hv hw
        exact exact v w (sources b hb v hv) (hconstants w (hsource.addsNoConstant w hw))
    refine .accumulator (ih hconstants) ?_
    rw [← hgroup, ← hkind, ← own]
    exact named b hb
  | other hother hlength _ ih =>
    refine .other hother hlength ?_
    intro p hp
    exact ih p hp fun v hv => ht v (hv.of_child (List.of_mem_zip hp).1)

end Term

/-! ### Pipelines -/

namespace Pipeline

/-- **Sharing accumulators is faithful** where no two constants agree without being
identical. Every accumulator becomes a field under which its group computes a value of its
kind from its own source. So accumulators of a group that share a field have one kind, and what
the field is computed from is what becomes of the source of either. -/
theorem readsOwn_of_resolved {p resolved : Pipeline} {next : Nat}
    (h : p.resolveGroups next = .ok resolved)
    (distinct : ∀ s ∈ resolved.stages, s.HasDistinctFields)
    (exact : ∀ v w, p.HasConstant v → p.HasConstant w → v.same w = true → v = w) :
    ∃ spelled attached : Pipeline,
      p.spellOutGroups next = .ok spelled ∧ spelled.collectAccumulators = .ok attached ∧
      resolved = attached.reduceResult ∧
      spelled.Related (Term.ReadsOwn (computedUnder resolved.stages))
        (Computes resolved.stages) attached ∧
      ∀ (a a' : Accumulator) (path : FieldPath) (codec codec' : Codec), a.group = a'.group →
        a.term.ReadsOwn (computedUnder resolved.stages) (.field path codec) →
        a'.term.ReadsOwn (computedUnder resolved.stages) (.field path codec') →
        a.kind = a'.kind ∧ ∃ name source, path = .field name ∧
          computedUnder resolved.stages a.group name = some (a.kind, source) ∧
          a.source.ReadsOwn (computedUnder resolved.stages) source ∧
          a'.source.ReadsOwn (computedUnder resolved.stages) source := by
  unfold resolveGroups at h
  obtain ⟨spelled, hspelled, h⟩ := bind_eq_ok.mp h
  obtain ⟨attached, hattached, h⟩ := bind_eq_ok.mp h
  obtain rfl := pure_eq_ok.mp h
  refine ⟨spelled, attached, hspelled, hattached, rfl, ?_,
    fun a a' path codec codec' => Term.ReadsOwn.shared⟩
  obtain ⟨ofStages, ofProjector, ofResult, findings⟩ := findings_of_eq_ok hattached
  have computes := findings.collected.computes
  have sources : ∀ b ∈ ofStages ++ ofProjector ++ ofResult, ∀ v, b.source.HasConstant v →
      p.HasConstant v := by
    intro b hb v hv
    obtain ⟨i, t, u, ht, hfound⟩ := findings.origin hb
    exact .of_spelledOut ⟨i, t, ht, hfound.hasConstant hv⟩ hspelled
  refine findings.related.with_terms.mono ?_ computes
  rintro t u ⟨⟨i, ht⟩, attached⟩
  refine attached.readsOwn exact sources ?_ fun v hv => .of_spelledOut ⟨i, t, ht, hv⟩ hspelled
  exact fun b hb => computedUnder_of_computes distinct (computes b hb)

end Pipeline

/-! ### One maximum that is shared, and two of which one is lost -/

/-- The oldest inhabitants of the cities, and how far their age is from that of the
youngest ones. -/
def ageSpreads : Query where
  collection := "people"
  itemType := .document "Person"
  clauses := [
    ⟨"Queryable", "GroupBy", [], [.lambda ["x"] (.member (.param "x") "City")]⟩,
    ⟨"Queryable", "Select", [], [.lambda ["g"] (.new [
      ("Oldest", .call (.param "g")
        ⟨"Enumerable", "Max", [], [.lambda ["z"] (.member (.param "z") "Age")]⟩),
      ("Spread", .binary .subtract
        (.call (.param "g")
          ⟨"Enumerable", "Max", [], [.lambda ["z"] (.member (.param "z") "Age")]⟩)
        (.call (.param "g")
          ⟨"Enumerable", "Min", [], [.lambda ["z"] (.member (.param "z") "Age")]⟩))])]⟩]

/-- As it is bound, each call has an accumulator. -/
def ageSpreadsBound : Pipeline where
  stages := [.group (.field (.field "city") .string) []]
  projector := .document [
    ("Oldest", .accumulator 0 .max (.field (.field "age") .int32) "__agg0" .int32),
    ("Spread", .binary .subtract
      (.accumulator 0 .max (.field (.field "age") .int32) "__agg1" .int32)
      (.accumulator 0 .min (.field (.field "age") .int32) "__agg2" .int32))]

/-- As it is resolved, the maximum is computed once. -/
def ageSpreadsResolved : Pipeline where
  stages := [.group (.field (.field "city") .string) [
    ⟨0, .max, .field (.field "age") .int32, "__agg0", .int32⟩,
    ⟨0, .min, .field (.field "age") .int32, "__agg2", .int32⟩]]
  projector := .document [
    ("Oldest", .field (.field "__agg0") .int32),
    ("Spread", .binary .subtract (.field (.field "__agg0") .int32)
      (.field (.field "__agg2") .int32))]

theorem ageSpreads_read_own :
    (ageSpreads.bind inhabitants).Yields {} ageSpreadsBound ⟨{}, 3⟩ ∧
      ageSpreadsBound.resolveGroups 3 = .ok ageSpreadsResolved ∧
      (∀ s ∈ ageSpreadsResolved.stages, s.HasDistinctFields) ∧
      (∀ v w, ageSpreadsBound.HasConstant v → ageSpreadsBound.HasConstant w →
        v.same w = true → v = w) ∧
      ∃ spelled attached : Pipeline,
        ageSpreadsBound.spellOutGroups 3 = .ok spelled ∧
        spelled.collectAccumulators = .ok attached ∧
        ageSpreadsResolved = attached.reduceResult ∧
        spelled.Related (Term.ReadsOwn (computedUnder ageSpreadsResolved.stages))
          (Computes ageSpreadsResolved.stages) attached ∧
        ∀ (a a' : Accumulator) (path : FieldPath) (codec codec' : Codec), a.group = a'.group →
          a.term.ReadsOwn (computedUnder ageSpreadsResolved.stages) (.field path codec) →
          a'.term.ReadsOwn (computedUnder ageSpreadsResolved.stages) (.field path codec') →
          a.kind = a'.kind ∧ ∃ name source, path = .field name ∧
            computedUnder ageSpreadsResolved.stages a.group name = some (a.kind, source) ∧
            a.source.ReadsOwn (computedUnder ageSpreadsResolved.stages) source ∧
            a'.source.ReadsOwn (computedUnder ageSpreadsResolved.stages) source := by
  have resolved : ageSpreadsBound.resolveGroups 3 = .ok ageSpreadsResolved := rfl
  have distinct : ∀ s ∈ ageSpreadsResolved.stages, s.HasDistinctFields := by
    simp [ageSpreadsResolved, Stage.HasDistinctFields]
  have exact : ∀ v w, ageSpreadsBound.HasConstant v → ageSpreadsBound.HasConstant w →
      v.same w = true → v = w := by
    rintro v w ⟨i, t, ht, codec, hmem⟩
    exfalso
    cases ht with
    | stage hs ht =>
      obtain rfl := List.mem_singleton.mp (List.mem_of_getElem? hs)
      obtain rfl := List.mem_singleton.mp ht
      cases List.mem_singleton.mp hmem
    | projector => simp [ageSpreadsBound, Term.subterms, Term.fieldSubterms] at hmem
    | result hr => cases hr
  exact ⟨rfl, resolved, distinct, exact,
    Pipeline.readsOwn_of_resolved resolved distinct exact⟩

/-- The greatest of equal documents in each city, where the two maxima are of documents that
have their fields in another order. -/
def orderedFields : Query where
  collection := "people"
  itemType := .document "Person"
  clauses := [
    ⟨"Queryable", "GroupBy", [], [.lambda ["x"] (.member (.param "x") "City")]⟩,
    ⟨"Queryable", "Select", [], [.lambda ["g"] (.new [
      ("A", .call (.param "g") ⟨"Enumerable", "Max", [],
        [.lambda ["z"] (.const (.document [("a", .int32 1), ("b", .int32 2)]) .object)]⟩),
      ("B", .call (.param "g") ⟨"Enumerable", "Max", [],
        [.lambda ["z"] (.const (.document [("b", .int32 2), ("a", .int32 1)]) .object)]⟩)])]⟩]

/-- As it is bound, each maximum is one of its own document. -/
def orderedFieldsBound : Pipeline where
  stages := [.group (.field (.field "city") .string) []]
  projector := .document [
    ("A", .accumulator 0 .max
      (.const (.document [("a", .int32 1), ("b", .int32 2)]) .dynamic) "__agg0" .dynamic),
    ("B", .accumulator 0 .max
      (.const (.document [("b", .int32 2), ("a", .int32 1)]) .dynamic) "__agg1" .dynamic)]

/-- As it is resolved, the group computes the first one, which both members read. -/
def orderedFieldsResolved : Pipeline where
  stages := [.group (.field (.field "city") .string) [⟨0, .max,
    .const (.document [("a", .int32 1), ("b", .int32 2)]) .dynamic, "__agg0", .dynamic⟩]]
  projector := .document [
    ("A", .field (.field "__agg0") .dynamic), ("B", .field (.field "__agg0") .dynamic)]

/-- Two accumulators of constants that agree are replaced by one field, though the documents
that are written for them differ. -/
theorem orderedFields_share_a_field :
    (orderedFields.bind inhabitants).Yields {} orderedFieldsBound ⟨{}, 2⟩ ∧
      orderedFieldsBound.resolveGroups 2 = .ok orderedFieldsResolved ∧
      (Term.const (.document [("a", .int32 1), ("b", .int32 2)]) .dynamic).emit [] ≠
        (Term.const (.document [("b", .int32 2), ("a", .int32 1)]) .dynamic).emit [] := by
  refine ⟨rfl, rfl, ?_⟩
  intro h
  simp [Term.emit, Value.emit, Value.marked, Value.operator] at h

end QueryPipeline
