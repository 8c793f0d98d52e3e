import QueryPipeline.Proofs.Binding.Evaluation
import QueryPipeline.Proofs.Binding.Sigils
import QueryPipeline.Proofs.Emission.Closure
import QueryPipeline.Proofs.Options

/-!
Compiled queries are closed (`Query.closed_compile`). Lambda bodies are bound in one place and end
up in stages, keys, aggregates and other lambdas; wherever that is, a variable is written only
inside the sub-query that binds it. Names of fields cannot be mistaken for variables: binding
gives none a sigil, and neither do the passes behind it, which move terms, name what groups
compute after their readers, and bring along only names of their own.
-/

namespace QueryPipeline

/-! ### Spelling out groups -/

/-- The record of a group brings along the names of its two fields and of an accumulator. -/
theorem Term.SigilFree.record {group : Nat} {key element : Term} {distinct : Bool}
    {kind : AccumulatorKind} {output : String} (name : hasNoSigil output)
    (h : (Term.grouping group key element none distinct).SigilFree) :
    (Term.document [("Key", key), ("Elements",
      .accumulator group kind element output (.arrayOf element.codec))]).SigilFree := by
  have hkey : key.SigilFree := h.child (by simp [children])
  have helement : element.SigilFree := h.child (by simp [children])
  have hcodec : (Codec.arrayOf element.codec).isSigilFree = true := by
    simpa only [Codec.isSigilFree] using helement.codec
  refine .document ?_ ?_
  · simp only [List.forall_mem_cons, List.not_mem_nil, false_imp_iff, implies_true, and_true]
    exact ⟨by decide, by decide⟩
  · simp only [List.map_cons, List.map_nil, List.forall_mem_cons, List.not_mem_nil,
      false_imp_iff, implies_true, and_true]
    exact ⟨hkey, .accumulator name hcodec helement⟩

/-- Turning groups into records adds no sigils. -/
theorem groupsToRecords_sigilFree :
    groupsToRecords.Sound (fun s => s.fault = none) (fun _ => True) (fun _ => True)
      (fun t u => t.SigilFree → u.SigilFree) :=
  groupsToRecords_keeps Term.SigilFree.child Term.SigilFree.withChildren
    (.record (hasNoSigil_accumulatorName _))

/-! ### Attaching accumulators -/

/-- No name in the accumulators that were found has a sigil. -/
def Attachments.SigilFree (s : Attachments) : Prop := ∀ a ∈ s.found, a.term.SigilFree

/-- The field of an accumulator has the name of one that was found, or its own. -/
theorem computedField_sigilFree {a : Accumulator} (h : a.term.SigilFree) :
    Ensures (fun _ => True) Attachments.SigilFree (computedField a) Term.SigilFree := by
  have named {b : Accumulator} (hb : b.term.SigilFree) :
      (Term.field (.field b.output) a.codec).SigilFree :=
    .field (List.forall_mem_singleton.mpr hb.own.1) h.own.2
  intro s _ hs
  rw [computedField_run]
  split
  · rename_i b hfind
    exact ⟨hs, named (hs b (List.mem_of_find?_eq_some hfind))⟩
  · refine ⟨?_, named h⟩
    intro b hb
    rcases List.mem_append.mp hb with hb | hb
    · exact hs b hb
    · exact List.mem_singleton.mp hb ▸ h

/-- **Attaching accumulators adds no sigils**, neither to the term nor to what is found. -/
theorem Term.SigilFree.attaching (groups : List Nat) {t : Term} (h : t.SigilFree) :
    Ensures (fun _ => True) Attachments.SigilFree
      (t.transformM (accumulatorsToFields groups)) fun u => u.SigilFree := by
  have enter {t : Term} (h : t.SigilFree) : Ensures (fun _ => True) Attachments.SigilFree
      ((accumulatorsToFields groups).enter t) fun replaced =>
        replaced.elim True fun u => u.SigilFree := by
    cases t with
    | accumulator group kind source output codec =>
      simp only [accumulatorsToFields]
      split
      · exact fun s _ hs => ⟨hs, h⟩
      · exact ensures_pure trivial
    | _ => exact ensures_pure trivial
  have leave {t : Term} {parts : List Term} (h : t.SigilFree) (_ : True)
      (hparts : List.Forall₂ (fun _ u => u.SigilFree) t.children parts) :
      Ensures (fun _ => True) Attachments.SigilFree
        ((accumulatorsToFields groups).leave (t.withChildren parts)) fun u => u.SigilFree := by
    have kept : (t.withChildren parts).SigilFree := by
      refine h.withChildren hparts.length_eq.symm ?_
      intro v hv
      obtain ⟨u, -, hv⟩ := exists_of_mem_right hparts hv
      exact hv
    generalize t.withChildren parts = u at kept
    cases u with
    | accumulator => exact computedField_sigilFree kept
    | _ => exact ensures_pure kept
  exact Transform.ensures_term Term.SigilFree.child (fun _ => reflects_true)
    (fun _ => reflects_true) enter leave h

/-! ### Pipelines -/

/-- A stage whose terms have become others without sigils has none, if those accumulators have
none that were added. -/
theorem Stage.Related.sigilFree {added : Accumulator → Prop} {s s' : Stage}
    (own : s.OwnNamesFree) (hadded : ∀ a, added a → a.term.SigilFree)
    (h : s.Related (fun _ u => u.SigilFree) added s') : s'.SigilFree := by
  cases h with
  | filter h | project h => exact ⟨trivial, by simpa [Stage.terms] using h⟩
  | @group _ id' accumulators accumulators' more hid hrel hmore =>
    have computed : ∀ a ∈ accumulators' ++ more, hasNoSigil a.output ∧ a.source.SigilFree := by
      intro a ha
      rcases List.mem_append.mp ha with ha | ha
      · obtain ⟨b, hb, source, rfl, hsource⟩ := exists_of_mem_right hrel ha
        exact ⟨own b hb, hsource⟩
      · have hterm := hadded a (hmore a ha)
        exact ⟨hterm.own.1, hterm.child List.mem_cons_self⟩
    refine ⟨fun a ha => (computed a ha).1, ?_⟩
    simp only [Stage.terms, List.forall_mem_cons, List.forall_mem_map]
    exact ⟨hid, fun a ha => (computed a ha).2⟩
  | sort hkeys =>
    refine ⟨trivial, ?_⟩
    simp only [Stage.terms, List.forall_mem_map]
    intro k' hk'
    obtain ⟨k, -, key, rfl, hkey⟩ := exists_of_mem_right hkeys hk'
    exact hkey
  | skip | limit => exact ⟨trivial, by simp [Stage.terms]⟩
  | unwind => exact ⟨own, by simp [Stage.terms]⟩

theorem Terminal.isSigilFree_codec (r : Terminal) (h : r.source.SigilFree) :
    r.codec.isSigilFree = true := by
  unfold codec
  cases r.kind with
  | count | longCount | average | any | all => rfl
  | _ => exact h.codec

namespace Pipeline.SigilFree

variable {p p' : Pipeline}

theorem spellOutGroups {next : Nat} (h : p.SigilFree) (hp : p.spellOutGroups next = .ok p') :
    p'.SigilFree := by
  obtain ⟨hstages, -, hprojector, hresult⟩ :=
    related_of_spellOutGroups groupsToRecords_sigilFree hp
  refine ⟨hstages ▸ h.stages, hprojector h.projector, ?_⟩
  intro r' hr'
  obtain ⟨r, hr, source, rfl, hsource⟩ := (exists_of_rel hresult).2 r' hr'
  exact hsource (h.result r hr)

theorem collectAccumulators (h : p.SigilFree) (hp : p.collectAccumulators = .ok p') :
    p'.SigilFree := by
  have ensures := ensures_transform (fun _ => reflects_true)
    (fun s hs t ht => ((h.stages s hs).terms t ht).attaching (groupPositions p.stages))
    (h.projector.attaching _) (fun r hr => (h.result r hr).attaching _) {} trivial nofun
  unfold Pipeline.collectAccumulators at hp
  simp only at hp
  split at hp
  rename_i transformed s hrun
  rw [hrun] at ensures
  obtain ⟨found, related⟩ := ensures
  split at hp
  · cases hp
  · cases hp
    refine ⟨?_, related.projector, ?_⟩
    · intro s' hs'
      obtain ⟨s, hs, hrel⟩ := exists_of_mem_right (related_withAccumulators related.stages) hs'
      exact hrel.sigilFree (h.stages s hs).own found
    · intro r' hr'
      obtain ⟨r, -, source, rfl, hsource⟩ := (exists_of_rel related.result).2 r' hr'
      exact hsource

theorem reduceResult (h : p.SigilFree) : p.reduceResult.SigilFree := by
  unfold Pipeline.reduceResult
  split
  · exact h
  · rename_i r hr
    have hsource := h.result r hr
    have named : hasNoSigil resultField = true := by decide
    split
    · exact h
    · refine (h.write ⟨?_, ?_⟩).withProjector (.field ?_ (r.isSigilFree_codec hsource))
      · exact List.forall_mem_singleton.mpr named
      · simp only [Stage.terms, List.map_cons, List.map_nil, List.forall_mem_cons]
        exact ⟨.const rfl, hsource, fun t ht => absurd ht List.not_mem_nil⟩
      · exact List.forall_mem_singleton.mpr named

/-- **Resolving groups adds no sigils.** -/
theorem resolveGroups {next : Nat} (h : p.SigilFree) (hp : p.resolveGroups next = .ok p') :
    p'.SigilFree := by
  obtain ⟨spelled, attached, hspelled, hattached, rfl⟩ := phases_of_resolveGroups hp
  exact ((h.spellOutGroups hspelled).collectAccumulators hattached).reduceResult

theorem plan (h : p.SigilFree) : ∀ s ∈ p.plan.stages, s.SigilFree := by
  intro s hs
  rcases List.mem_append.mp hs with hs | hs
  · exact h.flush.stages s hs
  · split at hs
    · cases hs
    · obtain rfl := List.mem_singleton.mp hs
      exact ⟨trivial, List.forall_mem_singleton.mpr h.projector⟩

end Pipeline.SigilFree

/-! ### Merging a projection -/

/-- A value gets no name with a sigil. -/
theorem hasNoSigil_renameSingles {readings : List Reading} {inUse : List String}
    {accumulators : List Accumulator} (names : ∀ a ∈ accumulators, hasNoSigil a.output) :
    ∀ a ∈ (renameSingles readings inUse accumulators).1, hasNoSigil a.output := by
  induction accumulators generalizing inUse with
  | nil => nofun
  | cons a rest ih =>
    have hrest (inUse : List String) :
        ∀ b ∈ (renameSingles readings inUse rest).1, hasNoSigil b.output :=
      ih fun b hb => names b (List.mem_cons_of_mem _ hb)
    rcases renameSingles_cons readings inUse a rest with ⟨member, free, heq⟩ | heq
    · have named : hasNoSigil member = true := by
        simp only [isFreeName, Bool.and_eq_true] at free
        exact free.1.2
      rw [heq]
      exact List.forall_mem_cons.mpr ⟨named, hrest (member :: inUse)⟩
    · rw [heq]
      exact List.forall_mem_cons.mpr ⟨names a List.mem_cons_self, hrest inUse⟩

/-- Merging a projection into its group adds no sigils. -/
theorem Plan.sigilFree_mergeProjection {p : Plan} (h : ∀ s ∈ p.stages, s.SigilFree) :
    ∀ s ∈ p.mergeProjection.stages, s.SigilFree := by
  rcases mergeProjection_cases p with
    same | ⟨before, id, accumulators, selector, readings, hstages, -, -, heq⟩
  · rwa [same]
  · have group : (Stage.group id accumulators).SigilFree := h _ (by simp [hstages])
    rw [heq]
    intro s hs
    rcases List.mem_append.mp hs with hs | hs
    · exact h s (by simp [hstages, hs])
    · obtain rfl := List.mem_singleton.mp hs
      refine ⟨hasNoSigil_renameSingles fun a ha => group.own a (List.mem_of_mem_filter ha), ?_⟩
      simp only [Stage.terms, mergeReadings, sources_renameSingles]
      refine List.forall_mem_cons.mpr ⟨group.terms id List.mem_cons_self, ?_⟩
      intro t ht
      obtain ⟨a, ha, rfl⟩ := List.mem_map.mp ht
      have hmem := List.mem_map_of_mem (f := Accumulator.source) (List.mem_of_mem_filter ha)
      exact group.terms _ (List.mem_cons_of_mem _ hmem)

theorem Plan.sigilFree_optimized {p : Plan} (o : Options) (h : ∀ s ∈ p.stages, s.SigilFree) :
    ∀ s ∈ (p.optimized o).stages, s.SigilFree := by
  unfold optimized
  split
  · exact sigilFree_mergeProjection h
  · exact h

/-! ### Queries -/

theorem mapError_eq_ok {ε ε' α : Type} {f : ε → ε'} {e : Except ε α} {a : α}
    (h : e.mapError f = .ok a) : e = .ok a := by
  cases e with
  | error => cases h
  | ok =>
    cases h
    rfl

/-- What a query that compiles went through. -/
theorem Query.phases_of_compile {registry : Registry} {q : Query} {o : Options} {c : Command}
    (h : q.compile registry o = .ok c) :
    ∃ bound context resolved, q.bound registry = (.ok bound, context) ∧
      bound.resolveGroups context.minted = .ok resolved ∧
      Stage.emitAll o.queryLanguage (resolved.plan.optimized o).stages = .ok c.pipeline := by
  cases hbound : q.bound registry with
  | mk outcome context =>
    simp only [compile, hbound, bind_eq_ok, pure_eq_ok] at h
    obtain ⟨bound, houtcome, resolved, hresolved, pipeline, hpipeline, rfl⟩ := h
    obtain rfl := mapError_eq_ok houtcome
    exact ⟨bound, context, resolved, rfl, mapError_eq_ok hresolved, mapError_eq_ok hpipeline⟩

/-- **Compiled pipelines are closed.** If no registered member is stored under a name with a
sigil, and a query gives no member of a record and reads no member of an untyped value by such
a name, then with all options and whatever its parameters are called: every text in an
expression, and every name of a field, that starts with two dollar signs is the row itself or
reads a variable of a sub-query around it, in whose condition or body it stands; and all
variables have names for the server. Texts in the scope of a code constant are left alone. -/
theorem Query.closed_compile {registry : Registry} {q : Query} {o : Options} {c : Command}
    (free : registry.isSigilFree) (allowed : q.NamesAllowed hasNoSigil registry)
    (h : q.compile registry o = .ok c) :
    ∀ stage ∈ c.pipeline, ∀ x ∈ stage.occurrences, x.isCarried = false → x.IsClosed := by
  obtain ⟨bound, context, resolved, hbound, hresolved, hpipeline⟩ := phases_of_compile h
  have boundFree : bound.SigilFree := q.bind_sigilFree free allowed hbound
  have planFree : ∀ s ∈ (resolved.plan.optimized o).stages, s.SigilFree :=
    Plan.sigilFree_optimized o (boundFree.resolveGroups hresolved).plan
  intro stage hstage
  obtain ⟨s, hs, hwritten⟩ := exists_of_mapM_eq_ok hpipeline stage hstage
  exact Stage.closed_emit (planFree s hs) hwritten

/-- For each age, the most friends that one of that age has who have scored more than the age.
The parameters inside are called like references. -/
def mostRivals : Query where
  collection := "people"
  itemType := .document "Person"
  clauses := [
    ⟨"Queryable", "GroupBy", [], [.lambda ["x"] (.member (.param "x") "Age")]⟩,
    ⟨"Queryable", "Select", [], [.lambda ["g"] (.call (.param "g")
      ⟨"Enumerable", "Max", [], [.lambda ["$x"] (.call (.call (.member (.param "$x") "Friends")
        ⟨"Enumerable", "Where", [], [.lambda ["$$ROOT"] (.call
          (.member (.param "$$ROOT") "Scores")
          ⟨"Enumerable", "Any", [], [.lambda ["0.v"]
            (.binary .gt (.param "0.v") (.member (.param "$x") "Age"))]⟩)]⟩)
        ⟨"Enumerable", "Count", [], []⟩)]⟩)]⟩]

/-- In the pipeline that it compiles to, a sub-query stands in the condition of another one. -/
def mostRivalsCommand : Command where
  collection := "people"
  pipeline := [[("$group", .document [("_id", .string "$age"), ("_v", .operator "$max"
    (.operator "$size" (.operator "$filter" (.document [
      ("input", .string "$friends"),
      ("as", .string "v___ROOT"),
      ("cond", .operator "$anyElementTrue" (.array [.operator "$map" (.document [
        ("input", .string "$$v___ROOT.scores"),
        ("as", .string "v_0_v"),
        ("in", .operator "$gt"
          (.array [.string "$$v_0_v", .string "$age"]))])]))]))))])]]
  output := .value "_v" .int32
  result := none

theorem mostRivals_closed :
    friends.isSigilFree ∧ mostRivals.NamesAllowed hasNoSigil friends ∧
      mostRivals.compile friends {} = .ok mostRivalsCommand ∧
      ∀ stage ∈ mostRivalsCommand.pipeline, ∀ x ∈ stage.occurrences,
        x.isCarried = false → x.IsClosed := by
  have free : friends.isSigilFree = true := by decide
  have allowed : mostRivals.NamesAllowed hasNoSigil friends :=
    Query.namesAllowed_of_memberNames (by decide)
  have compiled : mostRivals.compile friends {} = .ok mostRivalsCommand := rfl
  exact ⟨free, allowed, compiled, Query.closed_compile free allowed compiled⟩

/-- The people, all with one script for their key, which has a text like a reference in its
scope. -/
def groupedByScript : Query where
  collection := "people"
  itemType := .document "Person"
  clauses := [
    ⟨"Queryable", "GroupBy", [], [.lambda ["x"]
      (.const (.codeWithScope "v" [("v", .string "$$w")]) .object)]⟩,
    ⟨"Queryable", "Select", [], [.lambda ["g"] (.member (.param "g") "Key")]⟩]

/-- A script is written as it is, without a mark around it, and so is a text in its scope that
starts with two dollar signs. -/
theorem groupedByScript_not_closed :
    inhabitants.isSigilFree ∧ groupedByScript.NamesAllowed hasNoSigil inhabitants ∧
      ∃ c, groupedByScript.compile inhabitants {} = .ok c ∧
        ¬∀ stage ∈ c.pipeline, ∀ x ∈ stage.occurrences, x.IsClosed := by
  refine ⟨by decide, Query.namesAllowed_of_memberNames (by decide), _, rfl, ?_⟩
  intro closed
  have written : Occurrence.carried [] "$$w" ∈ Document.occurrences
      [("$group", .document [("_id", .codeWithScope "v" [("v", .string "$$w")])])] := by
    simp [Document.occurrences, Value.occurrences, Value.fieldOccurrences, Value.fieldStrings,
      Value.strings]
  have reference : IsReference [] "$$w" := closed _ List.mem_cons_self _ written "w" rfl
  simp [IsReference] at reference

end QueryPipeline
