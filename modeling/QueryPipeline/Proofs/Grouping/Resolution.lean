import QueryPipeline.Proofs.Grouping.Attachment
import QueryPipeline.Proofs.Grouping.Rows
import QueryPipeline.Proofs.Grouping.Spelling

/-!
Resolving the groups of a bound query is complete and reads the right groups
(`Query.groups_resolved`). Binding has placed every accumulator at the nearest group or inside the
group that it belongs to. The second kind is what attaching refuses in the source of an
accumulator, and what spelling out a group turns into the first kind; only a group that is
compared or filtered by as such, in a stage, may still read its own accumulators.
-/

namespace QueryPipeline

/-! ### Terms of pipelines -/

namespace Pipeline

/-- The terms of a pipeline, with the position whose input they read. -/
inductive HasTerm (p : Pipeline) : Nat → Term → Prop where
  | stage {i s t} : p.stages[i]? = some s → t ∈ s.terms → HasTerm p i t
  | projector : HasTerm p p.stages.length p.projector
  | result {r} : p.result = some r → HasTerm p p.stages.length r.source

variable {p p' : Pipeline} {i : Nat}

/-- In a pipeline that binding built, terms are placed before their stages. -/
theorem Placed.of_hasTerm (h : p.Placed) {t : Term} (ht : p.HasTerm i t) :
    t.Placed (nearestGroup p.stages) (.stage i) := by
  cases ht with
  | @stage i s t hs ht =>
    have hle : i ≤ p.stages.length := Nat.le_of_lt (List.getElem?_eq_some_iff.mp hs).1
    have agrees : Agrees (nearestGroup p.stages) (p.stages.take i ++ p.stages.drop i) := by
      rw [List.take_append_drop]
      exact .refl
    refine h.stages i s hs t ht (nearestGroup p.stages) i agrees.of_append ?_
    rw [List.length_take_of_le hle]
    exact nearestGroup_take.symm
  | projector => exact h.projector _ _ .refl rfl
  | result hr => exact h.result _ hr _ _ .refl rfl

end Pipeline

section Related

variable {rel : Term → Term → Prop} {added : Accumulator → Prop}

/-- The terms of related stages are related, up to those of added accumulators. -/
theorem Stage.Related.terms {s s' : Stage} (h : s.Related rel added s') :
    ∃ us vs, s'.terms = us ++ vs ∧ List.Forall₂ rel s.terms us ∧
      ∀ v ∈ vs, ∃ a, added a ∧ v = a.source := by
  cases h with
  | filter h | project h => exact ⟨_, [], rfl, .cons h .nil, nofun⟩
  | @group id id' accumulators accumulators' more hid haccumulators hmore =>
    refine ⟨id' :: accumulators'.map Accumulator.source, more.map Accumulator.source,
      by simp [Stage.terms], .cons hid ?_, ?_⟩
    · rw [List.forall₂_map_left_iff, List.forall₂_map_right_iff]
      refine haccumulators.imp ?_
      rintro a a' ⟨source, rfl, hsource⟩
      exact hsource
    · intro v hv
      obtain ⟨a, ha, rfl⟩ := List.mem_map.mp hv
      exact ⟨a, hmore a ha, rfl⟩
  | @sort keys keys' hkeys =>
    refine ⟨keys'.map RowKey.key, [], by simp [Stage.terms], ?_, nofun⟩
    rw [Stage.terms, List.forall₂_map_left_iff, List.forall₂_map_right_iff]
    refine hkeys.imp ?_
    rintro k k' ⟨key, rfl, hkey⟩
    exact hkey
  | skip | limit | unwind => exact ⟨[], [], rfl, .nil, nofun⟩

/-- What is related in related stages is a term of the first one. -/
theorem Stage.Related.with_terms {s s' : Stage} (h : s.Related rel added s') :
    s.Related (fun t u => t ∈ s.terms ∧ rel t u) added s' := by
  cases h with
  | filter h => exact .filter ⟨List.mem_cons_self, h⟩
  | project h => exact .project ⟨List.mem_cons_self, h⟩
  | group hid haccumulators hmore =>
    refine .group ⟨List.mem_cons_self, hid⟩ ?_ hmore
    refine ((List.forall₂_and_left _ _).mpr ⟨fun _ ha => ha, haccumulators⟩).imp ?_
    rintro a a' ⟨ha, source, rfl, hsource⟩
    exact ⟨source, rfl, List.mem_cons_of_mem _ (List.mem_map_of_mem ha), hsource⟩
  | sort hkeys =>
    refine .sort (((List.forall₂_and_left _ _).mpr ⟨fun _ hk => hk, hkeys⟩).imp ?_)
    rintro k k' ⟨hk, key, rfl, hkey⟩
    exact ⟨key, rfl, List.mem_map_of_mem hk, hkey⟩
  | skip => exact .skip
  | limit => exact .limit
  | unwind => exact .unwind

/-- What is related in related results is the source of the first one. -/
theorem Terminal.Related.with_terms {o o' : Option Terminal}
    (h : Option.Rel (Terminal.Related rel) o o') :
    Option.Rel (Terminal.Related fun t u => (∃ r ∈ o, r.source = t) ∧ rel t u) o o' := by
  cases h with
  | none => exact .none
  | some hr =>
    obtain ⟨source, rfl, hsource⟩ := hr
    exact .some ⟨source, rfl, ⟨_, rfl, rfl⟩, hsource⟩

namespace Pipeline

variable {p p' : Pipeline} {i : Nat}

/-- What is related in related pipelines is a term of the first one. -/
theorem Related.with_terms (h : p.Related rel added p') :
    p.Related (fun t u => (∃ i, p.HasTerm i t) ∧ rel t u) added p' where
  stages := by
    refine ((List.forall₂_and_left _ _).mpr ⟨fun _ hs => hs, h.stages⟩).imp ?_
    rintro s s' ⟨hs, hstage⟩
    obtain ⟨i, hi⟩ := List.getElem?_of_mem hs
    exact hstage.with_terms.mono (fun t u htu => ⟨⟨i, .stage hi htu.1⟩, htu.2⟩) fun _ => id
  projector := ⟨⟨_, .projector⟩, h.projector⟩
  result := by
    refine Terminal.Related.mono ?_ (Terminal.Related.with_terms h.result)
    rintro t u ⟨⟨r, hr, rfl⟩, htu⟩
    exact ⟨⟨_, .result hr⟩, htu⟩

/-- Every term has become a related one. -/
theorem Related.hasTerm (h : p.Related rel added p') {t : Term} (ht : p.HasTerm i t) :
    ∃ u, p'.HasTerm i u ∧ rel t u := by
  have hlength := h.stages.length_eq
  cases ht with
  | @stage i s t hs ht =>
    obtain ⟨hlt, rfl⟩ := List.getElem?_eq_some_iff.mp hs
    have hstage := h.stages.get hlt (hlength ▸ hlt)
    obtain ⟨us, vs, hterms, hrel, -⟩ := hstage.terms
    obtain ⟨u, hu, htu⟩ := exists_of_mem_right hrel.flip ht
    refine ⟨u, .stage (List.getElem?_eq_getElem (hlength ▸ hlt)) ?_, htu⟩
    exact hterms ▸ List.mem_append_left _ hu
  | projector =>
    refine ⟨p'.projector, ?_, h.projector⟩
    rw [hlength]
    exact .projector
  | @result r hr =>
    obtain ⟨_, hr', source, rfl, hsource⟩ := (exists_of_rel h.result).1 r hr
    refine ⟨source, ?_, hsource⟩
    rw [hlength]
    exact .result hr'

/-- Every term has come from a related one, or belongs to an accumulator that was added. -/
theorem Related.of_hasTerm (h : p.Related rel added p') {u : Term} (hu : p'.HasTerm i u) :
    (∃ t, rel t u) ∨ ∃ a, added a ∧ u = a.source := by
  have hlength := h.stages.length_eq
  cases hu with
  | @stage i s u hs hu =>
    obtain ⟨hlt, rfl⟩ := List.getElem?_eq_some_iff.mp hs
    have hstage := h.stages.get (hlength ▸ hlt) hlt
    obtain ⟨us, vs, hterms, hrel, hadded⟩ := hstage.terms
    rw [List.get_eq_getElem] at hterms
    rw [hterms] at hu
    rcases List.mem_append.mp hu with hu | hu
    · obtain ⟨t, -, htu⟩ := exists_of_mem_right hrel hu
      exact .inl ⟨t, htu⟩
    · exact .inr (hadded u hu)
  | projector => exact .inl ⟨_, h.projector⟩
  | @result r' hr' =>
    obtain ⟨r, -, source, rfl, hsource⟩ := (exists_of_rel h.result).2 r' hr'
    exact .inl ⟨_, hsource⟩

end Pipeline

end Related

/-! ### Groups that are spelled out -/

namespace Term

variable {groups : List Nat} {t : Term} {a : Accumulator}

theorem Attachable.child (h : t.Attachable groups) {u : Term} (hu : u ∈ t.children) :
    u.Attachable groups :=
  fun b hb => h b (mem_subterms_of_child hu hb)

/-- The source of an accumulator that can be attached does not read its group. -/
theorem Attachable.source {group kind source output codec}
    (h : (Term.accumulator group kind source output codec).Attachable groups) :
    source.contains (dependsOnGroup group) = false := by
  have hmem : (Accumulator.mk group kind source output codec).term ∈
      (Term.accumulator group kind source output codec).subterms := mem_subterms_self _
  exact (Accumulator.fault?_eq_none.mp (h _ hmem)).1

/-- Once groups are spelled out, those that are left can be attached nowhere. -/
theorem Spelled.bare (h : t.Spelled) (attachable : t.Attachable groups) :
    t.contains isGrouping = false := by
  have weaker {u : Term} {group : Nat} (hu : u.contains (dependsOnGroup group) = false) :
      u.contains isGrouping = false := by
    simp only [contains, List.any_eq_false] at hu ⊢
    intro v hv hgrouping
    refine hu v hv ?_
    cases v with
    | grouping => rfl
    | _ => cases hgrouping
  induction h with
  | accumulator =>
    rw [contains_eq]
    simpa [isGrouping, children] using weaker attachable.source
  | @plain t plain _ ih =>
    rw [contains_eq, Bool.or_eq_false_iff, List.any_eq_false]
    constructor
    · cases t with
      | grouping => cases plain
      | _ => rfl
    · intro u hu
      rw [ih u hu (attachable.child hu)]
      exact Bool.false_ne_true

theorem ReadsAt.mem_subterms {place read : Place} (h : t.ReadsAt a place read) :
    a.term ∈ t.subterms := by
  induction h with
  | self => exact mem_subterms_self _
  | source _ ih | key _ ih | element _ ih | predicate _ ih =>
    exact mem_subterms_of_child (by simp [children]) ih
  | part _ hu _ ih => exact mem_subterms_of_child hu ih

/-- In an accumulator that can be attached, no accumulator of the same group is read. -/
theorem ReadsAt.source_ne {place read : Place} (h : t.ReadsAt a place read)
    (attachable : t.Attachable groups) :
    read = place ∨ (∃ g, read = .elements g) ∨ ∃ g, read = .source g ∧ a.group ≠ g := by
  induction h with
  | self => exact .inl rfl
  | @source group kind source output codec place read hread ih =>
    rcases ih (attachable.child (by simp [children])) with rfl | hother
    · refine .inr (.inr ⟨group, rfl, ?_⟩)
      rintro rfl
      have hdepends : source.contains (dependsOnGroup a.group) :=
        List.any_eq_true.mpr ⟨a.term, hread.mem_subterms, by
          simp [Accumulator.term, dependsOnGroup]⟩
      rw [attachable.source] at hdepends
      cases hdepends
    · exact .inr hother
  | key _ ih => exact ih (attachable.child (by simp [children]))
  | element _ ih | predicate _ ih =>
    rcases ih (attachable.child (by simp [children])) with rfl | hother
    · exact .inr (.inl ⟨_, rfl⟩)
    · exact .inr hother
  | part _ hu _ ih => exact ih (attachable.child hu)

end Term

/-! ### Results -/

namespace Pipeline

variable {p : Pipeline}

/-- Reducing the result only adds stages, whose terms are the source of the result or
constants. -/
theorem reduceResult_stages :
    ∃ more, p.reduceResult.stages = p.stages ++ more ∧
      ∀ s ∈ more, ∀ t ∈ s.terms, t = .int32 1 ∨ ∃ r, p.result = some r ∧ t = r.source := by
  unfold reduceResult
  split
  · exact ⟨[], by simp, nofun⟩
  · rename_i r hr
    split
    · exact ⟨[], by simp, nofun⟩
    · refine ⟨_, List.append_assoc .., ?_⟩
      intro s hs t ht
      rcases List.mem_append.mp hs with hs | hs
      · rw [(Bounds.terms_eq_nil hs).2] at ht
        cases ht
      · obtain rfl := List.mem_singleton.mp hs
        simp only [Stage.terms, List.map_cons, List.map_nil, List.mem_cons, List.not_mem_nil,
          or_false] at ht
        rcases ht with rfl | rfl
        · exact .inl rfl
        · exact .inr ⟨r, hr, rfl⟩

theorem reduceResult_result : p.reduceResult.result = p.result := by
  unfold reduceResult
  split
  · rfl
  · split <;> rfl

theorem reduceResult_projector :
    p.reduceResult.projector = p.projector ∨
      ∃ codec, p.reduceResult.projector = .field (.field resultField) codec := by
  unfold reduceResult
  split
  · exact .inl rfl
  · split
    · exact .inl rfl
    · exact .inr ⟨_, rfl⟩

/-- Reducing the result adds no accumulator to a term. -/
theorem not_contains_reduceResult
    (h : ∀ i t, p.HasTerm i t → t.contains Term.isAccumulator = false) {i : Nat} {t : Term}
    (ht : p.reduceResult.HasTerm i t) : t.contains Term.isAccumulator = false := by
  cases ht with
  | @stage i s t hs ht =>
    obtain ⟨more, hstages, hmore⟩ := reduceResult_stages (p := p)
    rw [hstages] at hs
    by_cases hlt : i < p.stages.length
    · rw [List.getElem?_append_left hlt] at hs
      exact h i t (.stage hs ht)
    · rw [List.getElem?_append_right (Nat.le_of_not_lt hlt)] at hs
      rcases hmore s (List.mem_of_getElem? hs) t ht with rfl | ⟨r, hr, rfl⟩
      · rfl
      · exact h _ _ (.result hr)
  | projector =>
    rcases reduceResult_projector (p := p) with heq | ⟨codec, heq⟩
    · rw [heq]
      exact h _ _ .projector
    · rw [heq]
      rfl
  | result hr =>
    rw [reduceResult_result] at hr
    exact h _ _ (.result hr)

end Pipeline

theorem Computes.append {stages more : List Stage} {a : Accumulator}
    (h : Computes stages a) : Computes (stages ++ more) a := by
  obtain ⟨id, accumulators, hget, ha⟩ := h
  have hlt := (List.getElem?_eq_some_iff.mp hget).1
  exact ⟨id, accumulators, by rwa [List.getElem?_append_left hlt], ha⟩

/-- What was found is still listed once the result is reduced. -/
theorem Pipeline.Collected.computes {p p' : Pipeline} {found : List Accumulator}
    (h : p.Collected p' found) : ∀ b ∈ found, Computes p'.reduceResult.stages b := by
  intro b hb
  obtain ⟨more, hstages, -⟩ := reduceResult_stages (p := p')
  rw [hstages]
  exact (h.listed b hb).append

/-! ### Queries -/

/-- Every accumulator that a term of the pipeline reads belongs to the nearest group before
the place where it is read. In a stage, what stands for the elements of a group may also
read accumulators of that group. -/
def Pipeline.ReadsNearestGroups (p : Pipeline) : Prop :=
  ∀ i t a read, p.HasTerm i t → t.ReadsAt a (.stage i) read →
    nearestGroup p.stages read.position = some a.group ∨
      i < p.stages.length ∧ read = .elements a.group

/-- Where groups are spelled out in a bound pipeline, terms are placed still, and groups are
read as such in the stages only. -/
theorem Pipeline.SpelledOut.of_hasTerm {p spelled : Pipeline} (h : p.SpelledOut spelled)
    (placed : p.Placed) {i : Nat} {t : Term} (ht : spelled.HasTerm i t) :
    t.Placed (nearestGroup p.stages) (.stage i) ∧ (i < p.stages.length ∨ t.Spelled) := by
  cases ht with
  | @stage i s t hs ht =>
    rw [h.stages] at hs
    exact ⟨placed.of_hasTerm (.stage hs ht), .inl (List.getElem?_eq_some_iff.mp hs).1⟩
  | projector =>
    rw [h.stages]
    obtain ⟨hplaced, hspelled⟩ := h.projector _ _ (placed.of_hasTerm .projector)
    exact ⟨hplaced, .inr hspelled⟩
  | @result r' hr' =>
    obtain ⟨r, hr, source, rfl, hsource⟩ := (exists_of_rel h.result).2 r' hr'
    rw [h.stages]
    obtain ⟨hplaced, hspelled⟩ := hsource _ _ (placed.of_hasTerm (.result hr))
    exact ⟨hplaced, .inr hspelled⟩

/-- What can be attached reads the nearest groups. -/
theorem Pipeline.SpelledOut.readsNearestGroups {p spelled : Pipeline}
    (h : p.SpelledOut spelled) (placed : p.Placed) {groups : List Nat}
    (attachable : ∀ i t, spelled.HasTerm i t → t.Attachable groups) :
    spelled.ReadsNearestGroups := by
  intro i t a read ht hread
  rw [h.stages]
  obtain ⟨hplaced, hform⟩ := h.of_hasTerm placed ht
  have hattachable := attachable i t ht
  have hsees := hplaced.reads hread
  rcases hread.source_ne hattachable with rfl | ⟨g, rfl⟩ | ⟨g, rfl, hne⟩
  · exact .inl hsees
  · rcases hsees with hown | hnear
    · rcases hform with hlt | hspelled
      · exact .inr ⟨hlt, by rw [hown]⟩
      · rcases hread.of_no_grouping (hspelled.bare hattachable) with heq | ⟨_, heq⟩
        · cases heq
        · cases heq
    · exact .inl hnear
  · rcases hsees with hown | hnear
    · exact absurd hown hne
    · exact .inl hnear

/-- No accumulator is left where groups are resolved. -/
theorem Pipeline.bare_of_resolveGroups {p r : Pipeline} {next : Nat}
    (h : p.resolveGroups next = .ok r) :
    ∀ i t, r.HasTerm i t → t.contains Term.isAccumulator = false := by
  obtain ⟨spelled, attached, -, hattached, rfl⟩ := phases_of_resolveGroups h
  obtain ⟨found, collected⟩ := collected_of_eq_ok hattached
  intro i t ht
  refine not_contains_reduceResult ?_ ht
  intro i t ht
  rcases collected.related.of_hasTerm ht with ⟨u, hu⟩ | ⟨a, ha, rfl⟩
  · exact hu.1.not_contains
  · exact collected.bare a ha

/-- **Resolving the groups of a bound query is complete and reads the right groups.** No
accumulator is left in any term; each one has become a field which the stage of its group
lists with the same kind; and it had named the nearest group before the place where it is
read, or a group that is read as such in a stage and that it stands in. -/
theorem Query.groups_resolved {registry : Registry} {q : Query} {p r : Pipeline}
    {c : Context} (bound : (q.bind registry).Yields {} p c)
    (resolved : p.resolveGroups c.minted = .ok r) :
    (∀ i t, r.HasTerm i t → t.contains Term.isAccumulator = false) ∧
      ∃ spelled attached : Pipeline,
        p.spellOutGroups c.minted = .ok spelled ∧ spelled.stages = p.stages ∧
        spelled.collectAccumulators = .ok attached ∧ r = attached.reduceResult ∧
        spelled.Related (Term.Attached (Computes r.stages)) (Computes r.stages) attached ∧
        spelled.ReadsNearestGroups := by
  have bare := Pipeline.bare_of_resolveGroups resolved
  obtain ⟨spelled, attached, hspelled, hattached, rfl⟩ :=
    Pipeline.phases_of_resolveGroups resolved
  have spelledOut := Pipeline.spelledOut_of_eq_ok hspelled
  obtain ⟨found, collected⟩ := Pipeline.collected_of_eq_ok hattached
  have computes := collected.computes
  have attachable : ∀ i t, spelled.HasTerm i t →
      t.Attachable (groupPositions spelled.stages) := by
    intro i t ht
    obtain ⟨u, -, hu⟩ := collected.related.hasTerm ht
    exact hu.2
  refine ⟨bare, spelled, attached, hspelled, spelledOut.stages, hattached, rfl, ?_, ?_⟩
  · exact collected.related.mono (fun t u h => h.1.mono computes) computes
  · exact spelledOut.readsNearestGroups (Query.bind_placed bound) attachable

/-! ### Two queries over cities -/

/-- People live in cities and have an age. -/
def inhabitants : Registry :=
  .ofList [.mk "Person" none
    [.mk "City" "city" (.static .string), .mk "Age" "age" (.static .int32)]]

/-- The ages of the oldest inhabitants of the cities, equal ones together. -/
def oldestAges : Query where
  collection := "people"
  itemType := .document "Person"
  clauses := [
    ⟨"Queryable", "GroupBy", [], [.lambda ["x"] (.member (.param "x") "City")]⟩,
    ⟨"Queryable", "Select", [], [.lambda ["g"] (.call (.param "g")
      ⟨"Enumerable", "Max", [], [.lambda ["z"] (.member (.param "z") "Age")]⟩)]⟩,
    ⟨"Queryable", "GroupBy", [], [.lambda ["y"] (.param "y")]⟩]

/-- As it is bound, its second group reads an accumulator of the first one. -/
def oldestAgesBound : Pipeline where
  stages := [
    .group (.field (.field "city") .string) [],
    .group (.accumulator 0 .max (.field (.field "age") .int32) "__agg0" .int32) []]
  projector := .grouping 1 (.field (.field keyField) .int32)
    (.accumulator 0 .max (.field (.field "age") .int32) "__agg0" .int32) none false

/-- As it is resolved, its second group collects what the first one computes. -/
def oldestAgesResolved : Pipeline where
  stages := [
    .group (.field (.field "city") .string)
      [⟨0, .max, .field (.field "age") .int32, "__agg0", .int32⟩],
    .group (.field (.field "__agg0") .int32)
      [⟨1, .push, .field (.field "__agg0") .int32, "__agg1", .arrayOf .int32⟩]]
  projector := .document [("Key", .field (.field keyField) .int32),
    ("Elements", .field (.field "__agg1") (.arrayOf .int32))]

theorem oldestAges_groups :
    (oldestAges.bind inhabitants).Yields {} oldestAgesBound ⟨{}, 1⟩ ∧
      oldestAgesBound.resolveGroups 1 = .ok oldestAgesResolved ∧
      (∀ i t, oldestAgesResolved.HasTerm i t → t.contains Term.isAccumulator = false) ∧
      ∃ spelled attached : Pipeline,
        oldestAgesBound.spellOutGroups 1 = .ok spelled ∧
        spelled.stages = oldestAgesBound.stages ∧
        spelled.collectAccumulators = .ok attached ∧
        oldestAgesResolved = attached.reduceResult ∧
        spelled.Related (Term.Attached (Computes oldestAgesResolved.stages))
          (Computes oldestAgesResolved.stages) attached ∧
        spelled.ReadsNearestGroups := by
  have bound : (oldestAges.bind inhabitants).Yields {} oldestAgesBound ⟨{}, 1⟩ := rfl
  have resolved : oldestAgesBound.resolveGroups 1 = .ok oldestAgesResolved := rfl
  exact ⟨bound, resolved, Query.groups_resolved bound resolved⟩

/-- The keys of the groups that are null when each row is read as the number of rows. -/
def nullCounts : Query where
  collection := "people"
  itemType := .document "Person"
  clauses := [
    ⟨"Queryable", "GroupBy", [], [.lambda ["x"] (.member (.param "x") "City")]⟩,
    ⟨"Queryable", "Where", [], [.lambda ["g"] (.binary .eq
      (.call (.param "g") ⟨"Enumerable", "Select", [],
        [.lambda ["z"] (.call (.param "g") ⟨"Enumerable", "Count", [], []⟩)]⟩)
      (.const .null .object))]⟩,
    ⟨"Queryable", "Select", [], [.lambda ["g"] (.member (.param "g") "Key")]⟩]

/-- As it is bound, the rows of the group are compared with its accumulator in them. -/
def nullCountsBound : Pipeline where
  stages := [
    .group (.field (.field "city") .string) [],
    .filter (.binary .eq
      (.grouping 0 (.field (.field keyField) .string)
        (.accumulator 0 .count (.int32 1) "__agg0" .int32) none false)
      (.const .null .dynamic))]
  projector := .field (.field keyField) .string

/-- As it is resolved, the field of the accumulator stands there instead. -/
def nullCountsResolved : Pipeline where
  stages := [
    .group (.field (.field "city") .string) [⟨0, .count, .int32 1, "__agg0", .int32⟩],
    .filter (.binary .eq
      (.grouping 0 (.field (.field keyField) .string) (.field (.field "__agg0") .int32)
        none false)
      (.const .null .dynamic))]
  projector := .field (.field keyField) .string

/-- Inside a group that is read as such, an accumulator of that group itself is replaced,
though no group comes before the one whose rows are read. -/
theorem nullCounts_read_own_group :
    (nullCounts.bind inhabitants).Yields {} nullCountsBound ⟨{}, 1⟩ ∧
      nullCountsBound.resolveGroups 1 = .ok nullCountsResolved ∧
      ∃ t a, nullCountsBound.HasTerm 1 t ∧ t.ReadsAt a (.stage 1) (.elements 0) ∧
        a.group = 0 ∧
        nearestGroup nullCountsBound.stages (Place.elements 0).position = none :=
  ⟨rfl, rfl, _, ⟨0, .count, .int32 1, "__agg0", .int32⟩,
    .stage rfl List.mem_cons_self, .part rfl List.mem_cons_self (.element .self), rfl, rfl⟩

end QueryPipeline
