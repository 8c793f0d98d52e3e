import QueryPipeline.Compile
import QueryPipeline.Proofs.GroupProjection
import QueryPipeline.Proofs.Grouping.LastGroup

/-!
Options never decide whether a query compiles (`Query.compile_options`). The query language
is used only for predicates that can be written as expressions, too, and the conjuncts of a
predicate are met in one order. A projection that is merged into a group cannot fail, and
neither could the values that are dropped with it, unless one that is kept fails first: what
the last group computes is read by the projector, or it fails only where something before it
does that is (`Pipeline.covers_resolved`). So it is the same part of a plan that cannot be
written first (`Plan.failure?_optimized`).
-/

namespace QueryPipeline

/-! ### Projections that only read fields -/

theorem Term.eq_field_of_topField? {t : Term} {name : String} (h : t.topField? = some name) :
    ∃ codec, t = .field (.field name) codec := by
  unfold Term.topField? at h
  split at h
  · obtain rfl := Option.some.inj h
    exact ⟨_, rfl⟩
  · cases h

/-- The term is a field that one of the readings reads. -/
def Term.IsRead (readings : List Reading) (t : Term) : Prop :=
  ∃ r ∈ readings, ∃ codec, t = .field (.field r.field) codec

section Readings

variable {selector : Term} {output : RowCodec} {readings : List Reading}

/-- A projection that only reads fields is one of them or a record of them. -/
theorem isRead_of_readings (h : readings? selector output = some readings) :
    selector.IsRead readings ∨
      ∃ fields, selector = .document fields ∧ ∀ f ∈ fields, f.2.IsRead readings := by
  unfold readings? at h
  split at h
  · rename_i fields _
    refine .inr ⟨fields, rfl, ?_⟩
    intro f hf
    obtain ⟨name, hname, hread⟩ := (readings_of_fields h).2 f hf
    exact ⟨_, hread, Term.eq_field_of_topField? hname⟩
  · obtain ⟨name, hname, rfl⟩ := Option.map_eq_some_iff.mp h
    exact .inl ⟨_, List.mem_singleton.mpr rfl, Term.eq_field_of_topField? hname⟩
  · cases h

/-- Every field in such a projection is read. -/
theorem exists_reading_of_field (h : readings? selector output = some readings)
    {name : String} {codec : Codec} (hfield : .field (.field name) codec ∈ selector.subterms) :
    ∃ r ∈ readings, r.field = name := by
  have read {t : Term} (ht : t.IsRead readings)
      (hmem : .field (.field name) codec ∈ t.subterms) : ∃ r ∈ readings, r.field = name := by
    obtain ⟨r, hr, codec', rfl⟩ := ht
    obtain ⟨hpath, -⟩ := Term.field.inj (List.mem_singleton.mp hmem)
    injection hpath with _ hnames
    exact ⟨r, hr, (List.cons.inj hnames).1.symm⟩
  rcases isRead_of_readings h with hread | ⟨fields, rfl, hread⟩
  · exact read hread hfield
  · rcases Term.mem_subterms_cases hfield with heq | ⟨t, ht, hmem⟩
    · cases heq
    · obtain ⟨f, hf, rfl⟩ := List.mem_map.mp ht
      exact read (hread f hf) hmem

theorem failure?_emitProjectedFields (fields : List (String × Term)) :
    failure? (Term.emitProjectedFields fields) =
      (fields.map Prod.snd).findSome? fun t => failure? t.emitProjected := by
  induction fields with
  | nil => rfl
  | cons f fields ih =>
    obtain ⟨name, t⟩ := f
    rw [Term.emitProjectedFields, List.map_cons, List.findSome?_cons, ← ih]
    cases t.emitProjected with
    | error e => rfl
    | ok v => cases Term.emitProjectedFields fields <;> rfl

/-- A projection that only reads fields can be written. -/
theorem failure?_emitProjection (h : readings? selector output = some readings) :
    failure? selector.emitProjection = none := by
  rcases isRead_of_readings h with ⟨r, -, codec, rfl⟩ | ⟨fields, rfl, hread⟩
  · rfl
  · have written : failure? (Term.emitProjectedFields fields) = none := by
      rw [failure?_emitProjectedFields, List.findSome?_eq_none_iff]
      intro t ht
      obtain ⟨f, hf, rfl⟩ := List.mem_map.mp ht
      obtain ⟨r, -, codec, heq⟩ := hread f hf
      rw [heq]
      rfl
    rw [Term.emitProjection]
    exact (failure?_bind_pure _ _).trans written

end Readings

/-! ### Merging -/

/-- Values that are dropped do not hide the first failure, if each of them fails only where
one before it does that is kept. -/
theorem findSome?_filter {α β : Type} {f : α → Option β} {p : α → Bool}
    {kept others : List α} (hkept : ∀ a ∈ kept, p a = true)
    (hothers : ∀ a ∈ others, ∃ b ∈ kept, (f b).isSome = (f a).isSome) :
    ((kept ++ others).filter p).findSome? f = (kept ++ others).findSome? f := by
  rw [List.filter_append, List.filter_eq_self.mpr hkept, List.findSome?_append,
    List.findSome?_append]
  cases hfirst : kept.findSome? f with
  | some e => rfl
  | none =>
    have succeed : ∀ a ∈ others, f a = none := by
      intro a ha
      obtain ⟨b, hb, alike⟩ := hothers a ha
      rw [List.findSome?_eq_none_iff.mp hfirst b hb] at alike
      simpa using alike
    rw [List.findSome?_eq_none_iff.mpr succeed, List.findSome?_eq_none_iff.mpr]
    intro a ha
    exact succeed a (List.mem_of_mem_filter ha)

/-- Renaming values keeps what they are computed from. -/
theorem sources_renameSingles (readings : List Reading) (inUse : List String)
    (accumulators : List Accumulator) :
    (renameSingles readings inUse accumulators).1.map Accumulator.source =
      accumulators.map Accumulator.source := by
  induction accumulators generalizing inUse with
  | nil => rfl
  | cons a rest ih =>
    rcases renameSingles_cons readings inUse a rest with ⟨member, -, heq⟩ | heq
    · simp only [heq, List.map_cons, ih]
    · simp only [heq, List.map_cons, ih]

/-- A projection that ends the plan right behind a group covers what the group computes. -/
def Plan.CoversFailures (p : Plan) : Prop :=
  ∀ before id accumulators selector,
    p.stages = before ++ [.group id accumulators, .project selector] →
      selector.CoversFailures accumulators

/-- **Merging a projection does not change why a plan cannot be written**, if the projection
covers what its group computes. -/
theorem Plan.failure?_mergeProjection {p : Plan} {queryLanguage : Bool}
    (covers : p.CoversFailures) :
    failure? (Stage.emitAll queryLanguage p.mergeProjection.stages) =
      failure? (Stage.emitAll queryLanguage p.stages) := by
  rcases mergeProjection_cases p with
    same | ⟨before, id, accumulators, selector, readings, hstages, hreadings, -, heq⟩
  · rw [same]
  · obtain ⟨shown, hidden, rfl, hshown, hhidden⟩ := covers _ _ _ _ hstages
    have group (accumulators : List Accumulator) :
        failure? ((Stage.group id accumulators).emit queryLanguage) =
          (failure? (id.emit [])).or
            ((accumulators.map Accumulator.source).findSome? fun t => failure? (t.emit [])) := by
      rw [List.findSome?_map]
      exact (failure?_bind_pure _ _).trans (failure?_emitGroup id accumulators)
    have project : failure? ((Stage.project selector).emit queryLanguage) = none :=
      (failure?_bind_pure _ _).trans (failure?_emitProjection hreadings)
    have kept : ∀ b ∈ shown, readings.any (·.field == b.output) = true := by
      intro b hb
      obtain ⟨codec, hfield⟩ := hshown b hb
      obtain ⟨r, hr, hname⟩ := exists_reading_of_field hreadings hfield
      exact List.any_eq_true.mpr ⟨r, hr, beq_iff_eq.mpr hname⟩
    have merged : failure? ((Stage.group id (mergeReadings (shown ++ hidden) readings).1).emit
        queryLanguage) = failure? ((Stage.group id (shown ++ hidden)).emit queryLanguage) := by
      rw [group, group, mergeReadings, sources_renameSingles, List.findSome?_map,
        List.findSome?_map, findSome?_filter kept]
      intro b hb
      obtain ⟨b', hb', hfails⟩ := hhidden b hb
      exact ⟨b', hb', hfails []⟩
    rw [heq, hstages, Stage.failure?_emitAll, Stage.failure?_emitAll]
    simp only [List.findSome?_append, List.findSome?_cons, List.findSome?_nil, merged, project]

/-! ### Resolved pipelines -/

namespace Pipeline

variable {p attached : Pipeline}

/-- A plan that ends with a projection right behind a group comes from a pipeline that ends
with the group. -/
theorem last_of_plan {before : List Stage} {id selector : Term}
    {accumulators : List Accumulator} (noProjection : ∀ t, Stage.project t ∉ p.stages)
    (last : p.plan.stages = before ++ [.group id accumulators, .project selector]) :
    p.projector = selector ∧ p.stages = before ++ [.group id accumulators] := by
  have paging {s : Stage} (hs : s ∈ p.paging.bounds.stages) :
      (∀ t, s ≠ .project t) ∧ s.isGroup = false := by
    simp only [Bounds.stages, List.mem_append, Option.mem_toList,
      Option.map_eq_some_iff] at hs
    rcases hs with ⟨n, -, rfl⟩ | ⟨n, -, rfl⟩
    · exact ⟨fun t h => (by cases h), rfl⟩
    · exact ⟨fun t h => (by cases h), rfl⟩
  by_cases isRoot : p.projector.isRoot = true
  · exfalso
    have hmem : Stage.project selector ∈ p.flush.stages := by
      have hplan : p.plan.stages = p.flush.stages := by simp [plan, isRoot]
      rw [← hplan, last]
      simp
    rcases List.mem_append.mp hmem with hmem | hmem
    · exact noProjection selector hmem
    · exact (paging hmem).1 selector rfl
  · have hplan : p.flush.stages ++ [.project p.projector] =
        (before ++ [.group id accumulators]) ++ [.project selector] := by
      simpa [plan, isRoot] using last
    obtain ⟨hflush, hselector⟩ := List.append_inj' hplan rfl
    have hstages : p.stages ++ p.paging.bounds.stages = before ++ [.group id accumulators] :=
      hflush
    refine ⟨Stage.project.inj (List.singleton_inj.mp hselector), ?_⟩
    rcases List.eq_nil_or_concat' p.paging.bounds.stages with hnil | ⟨init, s, hconcat⟩
    · rwa [hnil, List.append_nil] at hstages
    · exfalso
      rw [hconcat, ← List.append_assoc] at hstages
      obtain ⟨-, hs⟩ := List.append_inj' hstages rfl
      have hgroup := (paging (s := s) (by simp [hconcat])).2
      rw [List.singleton_inj.mp hs] at hgroup
      cases hgroup

/-- Attaching accumulators adds no projections. -/
theorem noProjection_of_related {rel : Term → Term → Prop} {added : Accumulator → Prop}
    {stages stages' : List Stage} (bare : ∀ s ∈ stages, s.isBare = true)
    (h : List.Forall₂ (Stage.Related rel added) stages stages') (t : Term) :
    Stage.project t ∉ stages' := by
  intro hmem
  obtain ⟨s, hs, hrel⟩ := exists_of_mem_right h hmem
  cases hrel with
  | project => cases bare _ hs

/-- Reducing a result does nothing, or groups all rows for one value, which is read. -/
theorem reduceResult_cases (p : Pipeline) :
    (p.reduceResult = p ∧ ∀ r ∈ p.result, r.kind.accumulator? = none) ∨
      ∃ a codec, a.output = resultField ∧
        p.reduceResult.stages = p.flush.stages ++ [.group (.int32 1) [a]] ∧
        p.reduceResult.projector = .field (.field resultField) codec := by
  unfold reduceResult
  split
  · rename_i hresult
    exact .inl ⟨rfl, by simp [hresult]⟩
  · rename_i r hresult
    split
    · rename_i hkind
      refine .inl ⟨rfl, ?_⟩
      intro r' hr'
      rw [hresult] at hr'
      obtain rfl := Option.some.inj hr'
      exact hkind
    · exact .inr ⟨_, _, rfl, rfl, rfl⟩

/-- **What the last group of a resolved pipeline computes** is covered by the projection
right behind it. -/
theorem covers_resolved {p resolved : Pipeline} {next : Nat} (placed : p.Placed)
    (bound : p.Bound) (h : p.resolveGroups next = .ok resolved) :
    resolved.plan.CoversFailures := by
  intro before id accumulators selector last
  obtain ⟨spelled, attached, hspelled, hattached, rfl⟩ := phases_of_resolveGroups h
  have spelledOut := spelledOut_of_eq_ok hspelled
  obtain ⟨found, collected⟩ := collected_of_eq_ok hattached
  have bare : ∀ s ∈ spelled.stages, s.isBare = true := spelledOut.stages ▸ bound.stages
  have noProjection := noProjection_of_related bare collected.related.stages
  rcases reduceResult_cases attached with ⟨kept, picks⟩ | ⟨a, codec, houtput, hstages, hprojector⟩
  · rw [kept] at last
    obtain ⟨rfl, hstages⟩ := last_of_plan noProjection last
    have picked : ∀ r ∈ p.result, r.source = p.projector := by
      intro r hr
      obtain ⟨r', hr', source, rfl, -⟩ := (exists_of_rel spelledOut.result).1 r hr
      obtain ⟨r'', hr'', source', rfl, -⟩ := (exists_of_rel collected.related.result).1 _ hr'
      have hkind := picks _ hr''
      exact bound.picked r hr hkind
    exact covers_last_group placed bound picked hspelled hattached hstages
  · have noProjection' (t : Term) : Stage.project t ∉ attached.reduceResult.stages := by
      simp [hstages, flush, Bounds.stages, noProjection t]
    obtain ⟨rfl, hlast⟩ := last_of_plan noProjection' last
    obtain ⟨-, hgroup⟩ := List.append_inj' (hstages.symm.trans hlast) rfl
    obtain ⟨-, rfl⟩ := Stage.group.inj (List.singleton_inj.mp hgroup)
    refine ⟨[a], [], rfl, ?_, fun b hb => absurd hb List.not_mem_nil⟩
    intro b hb
    obtain rfl := List.mem_singleton.mp hb
    rw [hprojector, houtput]
    exact ⟨codec, Term.mem_subterms_self _⟩

end Pipeline

/-! ### Queries -/

/-- Merging a projection keeps the result. -/
theorem Plan.result_optimized (p : Plan) (o : Options) : (p.optimized o).result = p.result := by
  unfold optimized
  split
  · rcases mergeProjection_cases p with same | ⟨_, _, _, _, _, -, -, -, heq⟩
    · rw [same]
    · rw [heq]
  · rfl

/-- A plan whose last projection covers what its group computes fails in the same way with
all options. -/
theorem Plan.failure?_optimized {p : Plan} (o : Options) (covers : p.CoversFailures) :
    failure? (Stage.emitAll o.queryLanguage (p.optimized o).stages) =
      failure? (Stage.emitAll true p.stages) := by
  have language (ss : List Stage) : failure? (Stage.emitAll o.queryLanguage ss) =
      failure? (Stage.emitAll true ss) := by
    simp only [Stage.failure?_emitAll, Stage.failure?_emit _ o.queryLanguage true]
  rw [language, optimized]
  split
  · exact failure?_mergeProjection covers
  · rfl

/-- What a query compiles to but for the stages and the way to read their rows, phase by
phase. -/
theorem Query.compile_phases (registry : Registry) (q : Query) (o : Options) :
    ((q.compile registry o).map fun c => (c.collection, c.result)) =
      match q.bound registry with
      | (.error e, _) => .error (.bind e)
      | (.ok bound, context) =>
        match bound.resolveGroups context.minted with
        | .error e => .error (.accumulation e)
        | .ok resolved =>
          match failure? (Stage.emitAll o.queryLanguage (resolved.plan.optimized o).stages) with
          | some e => .error (.emit e)
          | none => .ok (q.collection, resolved.plan.result) := by
  unfold compile
  obtain ⟨outcome, context⟩ := q.bound registry
  cases outcome with
  | error e => rfl
  | ok bound =>
    simp only [Bind.bind, Except.bind, Except.mapError]
    cases bound.resolveGroups context.minted with
    | error e => rfl
    | ok resolved =>
      simp only [Plan.result_optimized]
      cases Stage.emitAll o.queryLanguage (resolved.plan.optimized o).stages <;> rfl

/-- **Options never decide whether a query compiles.** With any two settings compilation
fails with the same error, which is about the same part of the query, or succeeds with the
same collection and the same result. -/
theorem Query.compile_options (registry : Registry) (q : Query) (o o' : Options) :
    ((q.compile registry o).map fun c => (c.collection, c.result)) =
      (q.compile registry o').map fun c => (c.collection, c.result) := by
  rw [compile_phases, compile_phases]
  split
  · rfl
  · rename_i bound context hbound
    split
    · rfl
    · rename_i resolved hresolved
      have covers := Pipeline.covers_resolved (bind_placed hbound) (bind_bound hbound) hresolved
      rw [Plan.failure?_optimized o covers, Plan.failure?_optimized o' covers]

end QueryPipeline
