import QueryPipeline.Proofs.Grouping.Binding

/-!
The terms of a bound pipeline are placed. While a query is bound its stages grow, and the
projector always reads what the stages so far leave: `Admits` says this of a term and a list
of stages. Writing out paging, filters and sorts leaves the group that is read where it is,
grouping replaces it together with the projector, and every stage keeps the terms that were
read when it was added.
-/

namespace QueryPipeline

/-! ### Terms that read the rows of stages -/

/-- Before each group stage, a function gives the nearest group. -/
def Agrees (near : Nat → Option Nat) (stages : List Stage) : Prop :=
  ∀ g, isGroupAt stages g → near g = nearestGroup stages g

/-- The term may be read in the rows that the stages leave. -/
def Admits (stages : List Stage) (t : Term) : Prop :=
  ∀ near i, Agrees near stages → near i = nearestGroup stages stages.length →
    t.Placed near (.stage i)

/-- Each term of a stage may be read in the rows that the stages before it leave. -/
def WellPlaced (stages : List Stage) : Prop :=
  ∀ i s, stages[i]? = some s → ∀ t ∈ s.terms, Admits (stages.take i) t

/-- A stage that groups no rows and has no terms. -/
theorem Bounds.terms_eq_nil {b : Bounds} {s : Stage} (h : s ∈ b.stages) :
    s.isGroup = false ∧ s.terms = [] := by
  simp only [stages, List.mem_append, Option.mem_toList, Option.map_eq_some_iff] at h
  rcases h with ⟨n, -, rfl⟩ | ⟨n, -, rfl⟩
  · exact ⟨rfl, rfl⟩
  · exact ⟨rfl, rfl⟩

section Stages

variable {near : Nat → Option Nat} {stages more : List Stage} {t : Term}

theorem Agrees.refl : Agrees (nearestGroup stages) stages :=
  fun _ _ => rfl

theorem lt_of_isGroupAt {g : Nat} (h : isGroupAt stages g) : g < stages.length := by
  by_cases hlt : g < stages.length
  · exact hlt
  · simp [isGroupAt, List.getElem?_eq_none (Nat.le_of_not_lt hlt)] at h

theorem Agrees.of_append (h : Agrees near (stages ++ more)) : Agrees near stages := by
  intro g hg
  have hlt := lt_of_isGroupAt hg
  rw [← nearestGroup_append (Nat.le_of_lt hlt)]
  exact h g (by rwa [isGroupAt_append hlt])

theorem Agrees.append (h : Agrees near stages) (plain : ∀ s ∈ more, s.isGroup = false) :
    Agrees near (stages ++ more) := by
  intro g hg
  by_cases hlt : g < stages.length
  · rw [isGroupAt_append hlt] at hg
    rw [nearestGroup_append (Nat.le_of_lt hlt)]
    exact h g hg
  · rw [isGroupAt, List.getElem?_append_right (Nat.le_of_not_lt hlt),
      Option.any_eq_true] at hg
    obtain ⟨s, hs, hgroup⟩ := hg
    rw [plain s (List.mem_of_getElem? hs)] at hgroup
    cases hgroup

/-- Stages that are no groups do not change what may be read. -/
theorem admits_append (plain : ∀ s ∈ more, s.isGroup = false) :
    Admits (stages ++ more) t ↔ Admits stages t := by
  constructor
  · intro h near i agrees hi
    refine h near i (agrees.append plain) ?_
    rw [nearestGroup_append_of_not_group plain]
    exact hi
  · intro h near i agrees hi
    refine h near i agrees.of_append ?_
    rw [← nearestGroup_append_of_not_group plain]
    exact hi

/-- The rows of a new group are read by its key and its elements. -/
theorem admits_grouping {id element : Term} (h : Admits stages element)
    (bare : element.contains Term.isGrouping = false) :
    Admits (stages ++ [.group id []])
      (.grouping stages.length id.asGroupKey element none false) := by
  intro near i agrees hi
  have hnear : near stages.length = nearestGroup stages stages.length := by
    rw [agrees stages.length (by simp [isGroupAt, Stage.isGroup])]
    exact nearestGroup_append (Nat.le_refl _)
  have hholds : (Place.stage i).Holds near stages.length := by
    rw [nearestGroup_append_group rfl] at hi
    exact hi
  refine .grouping hholds Term.asGroupKey_bare .asGroupKey ?_ ?_
  · -- The element was read before the group, where rows of other groups were not.
    refine (h near stages.length agrees.of_append hnear).mono ?_ ?_
    · intro g hg
      exact .inr hg
    · intro hgrouping
      rw [bare] at hgrouping
      cases hgrouping
  · intro predicate hpredicate
    cases hpredicate

theorem WellPlaced.append (h : WellPlaced stages)
    (hmore : ∀ i s, more[i]? = some s → ∀ t ∈ s.terms, Admits (stages ++ more.take i) t) :
    WellPlaced (stages ++ more) := by
  intro i s hs t ht
  by_cases hlt : i < stages.length
  · rw [List.getElem?_append_left hlt] at hs
    rw [List.take_append_of_le_length (Nat.le_of_lt hlt)]
    exact h i s hs t ht
  · have hle := Nat.le_of_not_lt hlt
    rw [List.getElem?_append_right hle] at hs
    rw [List.take_append, List.take_of_length_le hle]
    exact hmore _ s hs t ht

theorem WellPlaced.push {s : Stage} (h : WellPlaced stages)
    (hs : ∀ t ∈ s.terms, Admits stages t) : WellPlaced (stages ++ [s]) := by
  refine h.append ?_
  intro i s' hget t ht
  cases i with
  | zero =>
    obtain rfl := Option.some.inj hget
    simpa using hs t ht
  | succ i => cases hget

theorem WellPlaced.of_append (h : WellPlaced (stages ++ more)) : WellPlaced stages := by
  intro i s hs t ht
  have hlt : i < stages.length := (List.getElem?_eq_some_iff.mp hs).1
  have hplaced := h i s (by rwa [List.getElem?_append_left hlt]) t ht
  rwa [List.take_append_of_le_length (Nat.le_of_lt hlt)] at hplaced

/-- The terms of the last stage. -/
theorem WellPlaced.last {s : Stage} (h : WellPlaced (stages ++ [s])) :
    ∀ t ∈ s.terms, Admits stages t := by
  intro t ht
  simpa using h stages.length s (by simp) t ht

end Stages

/-! ### Pipelines -/

namespace Pipeline

/-- A pipeline that goes on: its terms are placed, and no result ends it. -/
structure Open (p : Pipeline) : Prop where
  stages : WellPlaced p.stages
  projector : Admits p.stages p.projector
  unfinished : p.result = none

/-- The terms of a pipeline are placed. -/
structure Placed (p : Pipeline) : Prop where
  stages : WellPlaced p.stages
  projector : Admits p.stages p.projector
  result : ∀ r ∈ p.result, Admits p.stages r.source

variable {p : Pipeline}

/-- Writing out paging does not change what may be read. -/
theorem admits_flush {t : Term} : Admits p.flush.stages t ↔ Admits p.stages t :=
  admits_append fun _ hs => (Bounds.terms_eq_nil hs).1

/-- Adding a stage that is no group does not change what may be read. -/
theorem admits_write {s : Stage} (plain : s.isGroup = false) {t : Term} :
    Admits (p.flush.push s).stages t ↔ Admits p.stages t :=
  (admits_append (by simpa using plain)).trans admits_flush

namespace Open

variable {s : Stage}

theorem placed (h : p.Open) : p.Placed := by
  refine ⟨h.stages, h.projector, ?_⟩
  rw [h.unfinished]
  nofun

theorem withResult {kind : TerminalKind} {source : Term} (h : p.Open)
    (hsource : Admits p.stages source) : (p.withResult kind source).Placed := by
  refine ⟨h.stages, h.projector, ?_⟩
  intro r hr
  obtain rfl := Option.some.inj hr
  exact hsource

theorem flush (h : p.Open) : p.flush.Open := by
  refine ⟨?_, ?_, h.unfinished⟩
  · refine h.stages.append ?_
    intro i s hs t ht
    rw [(Bounds.terms_eq_nil (List.mem_of_getElem? hs)).2] at ht
    cases ht
  · exact admits_flush.mpr h.projector

/-- Adding a stage that is no group keeps the terms in place. -/
theorem write (h : p.Open) (plain : s.isGroup = false)
    (terms : ∀ t ∈ s.terms, Admits p.stages t) : (p.flush.push s).Open := by
  refine ⟨?_, ?_, h.unfinished⟩
  · exact h.flush.stages.push fun t ht => admits_flush.mpr (terms t ht)
  · exact (admits_write plain).mpr h.projector

theorem filter {predicate : Term} (h : p.Open) (hpredicate : Admits p.stages predicate) :
    (p.filter predicate).Open :=
  h.write rfl (by simpa [Stage.terms] using hpredicate)

/-- Grouping replaces what is read with the rows. -/
theorem openGroup {id projector : Term} (h : p.Open) (hid : Admits p.stages id)
    (hprojector : Admits (p.openGroup id).1.stages projector) :
    ({ (p.openGroup id).1 with projector } : Pipeline).Open := by
  refine ⟨h.flush.stages.push ?_, hprojector, h.unfinished⟩
  intro t ht
  obtain rfl : t = id := by simpa [Stage.terms] using ht
  exact admits_flush.mpr hid

theorem groupBy {key element : Term} {site : String} {p' : Pipeline} (h : p.Open)
    (hkey : Admits p.stages key) (helement : Admits p.stages element)
    (hgroup : p.groupBy key element site = .ok p') : p'.Open := by
  unfold Pipeline.groupBy at hgroup
  split at hgroup
  · cases hgroup
  · rename_i bare
    cases hgroup
    simp only [Bool.or_eq_true, not_or, Bool.not_eq_true] at bare
    exact h.openGroup hkey (admits_grouping (admits_flush.mpr helement) bare.2)

theorem distinct {site : String} {p' : Pipeline} (h : p.Open)
    (hdistinct : p.distinct site = .ok p') : p'.Open := by
  unfold Pipeline.distinct at hdistinct
  split at hdistinct
  · cases hdistinct
  · cases hdistinct
    exact h.openGroup h.projector fun _ _ _ _ => .asGroupKey

theorem sortBy {key : RowKey} (h : p.Open) (hkey : Admits p.stages key.key) :
    ({ p.flush.push (.sort [key]) with sortOpen := true } : Pipeline).Open := by
  have hsorted : (p.flush.push (.sort [key])).Open :=
    h.write rfl (by simpa [Stage.terms] using hkey)
  exact ⟨hsorted.stages, hsorted.projector, hsorted.unfinished⟩

/-- A further key of a sort reads the same rows as the keys before. -/
theorem extendSort {key : RowKey} {p' : Pipeline} (h : p.Open)
    (hkey : Admits p.stages key.key) (hextend : p.extendSort? key = some p') : p'.Open := by
  unfold extendSort? at hextend
  split at hextend
  · rename_i keys hlast
    cases hextend
    obtain ⟨before, hstages⟩ := List.getLast?_eq_some_iff.mp hlast
    have plain (keys : List RowKey) : ∀ s ∈ [Stage.sort keys], s.isGroup = false := by
      intro s hs
      obtain rfl := List.mem_singleton.mp hs
      rfl
    have hplaced := h.stages
    have hprojector := h.projector
    rw [hstages, admits_append (plain keys)] at hkey hprojector
    rw [hstages] at hplaced
    refine ⟨?_, ?_, h.unfinished⟩
    · simp only [hstages, List.dropLast_concat]
      refine hplaced.of_append.push ?_
      intro t ht
      simp only [Stage.terms, List.map_append, List.mem_append, List.map_cons, List.map_nil,
        List.mem_singleton] at ht
      rcases ht with ht | rfl
      · exact hplaced.last t ht
      · exact hkey
    · simp only [hstages, List.dropLast_concat]
      exact (admits_append (plain _)).mpr hprojector
  · cases hextend

theorem ofType {m : ClassMap} {site : String} {p' : Pipeline} (h : p.Open)
    (hclass : p.ofType m site = .ok p') : p'.Open := by
  unfold Pipeline.ofType at hclass
  split at hclass
  · cases hclass
    refine ⟨(h.filter ?_).stages, fun _ _ _ _ => .field, h.unfinished⟩
    intro near i _ _
    exact .of_two rfl rfl .field .const
  · cases hclass

theorem unwind {collection item : Term} {site : String} {p' : Pipeline} (h : p.Open)
    (hunwind : p.unwind collection site = .ok (p', item)) :
    p'.Open ∧ Admits p'.stages item ∧ ∀ t, Admits p.stages t → Admits p'.stages t := by
  unfold Pipeline.unwind at hunwind
  split at hunwind
  · split at hunwind
    · split at hunwind
      · cases hunwind
        exact ⟨h.write rfl nofun, fun _ _ _ _ => .field, fun t ht => (admits_write rfl).mpr ht⟩
      · cases hunwind
      · cases hunwind
    · cases hunwind
  · cases hunwind

theorem any (h : p.Open) : p.any.Placed :=
  withResult ⟨h.stages, h.projector, h.unfinished⟩ fun _ _ _ _ => .const

theorem anyMatching {predicate : Option Lambda} (h : p.Open)
    (hl : ∀ l ∈ predicate, Admits p.stages l.body) :
    (predicate.elim p fun l => p.filter l.body).any.Placed := by
  cases predicate with
  | none => exact h.any
  | some l => exact (h.filter (hl l rfl)).any

theorem aggregate {kind : Aggregate} {source : Term} (h : p.Open)
    (hsource : Admits p.stages source) : (p.aggregate kind source).Placed := by
  unfold Pipeline.aggregate
  split
  · exact h.withResult fun _ _ _ _ => .const
  · exact h.withResult fun _ _ _ _ => .const
  · exact h.withResult hsource

theorem element {pick : Pick} (h : p.Open) : (p.element pick).Placed :=
  withResult ⟨h.stages, h.projector, h.unfinished⟩ h.projector

end Open

/-- Operators on the rows of a pipeline keep its terms placed. Around a query there is
nothing to read. -/
theorem keepsOpen (registry : Registry) :
    SequenceInvariant registry Pipeline Pipeline (fun t => ∀ near place, t.Placed near place)
      Open (fun p => Admits p.stages) Placed where
  inner_outer _ ht near i _ _ := ht near (.stage i)
  inner_groupKey h near i agrees hi := (h near i agrees hi).groupKey
  inner_item hp := hp.projector
  lambda_element _ hbody := hbody
  closeSort hp := ⟨hp.stages, hp.projector, hp.unfinished⟩
  filter hp hl h := by
    cases h
    exact hp.filter hl
  project hp hl h := by
    cases h
    exact ⟨hp.stages, hl, hp.unfinished⟩
  unwind := by
    intro p p' l item site hp _ h
    obtain ⟨hp', hitem, hinner⟩ := hp.unwind h
    exact ⟨hp', hitem, hinner, fun _ hl => hl⟩
  groupBy := by
    intro p p' key element site hp hkey helement h
    refine ⟨hp.groupBy hkey ?_ h, fun _ hl => hl⟩
    cases element with
    | none => exact hp.projector
    | some l => exact helement l rfl
  distinct hp h := hp.distinct h
  sortBy hp hl h := by
    cases h
    exact hp.sortBy hl
  thenBy hp hl h := by
    simp only [Sequence.thenBy] at h
    split at h
    · rename_i hextend
      cases h
      exact hp.extendSort hl hextend
    · cases h
  skip hp h := by
    cases h
    exact ⟨hp.stages, hp.projector, hp.unfinished⟩
  take hp h := by
    cases h
    exact ⟨hp.stages, hp.projector, hp.unfinished⟩
  ofType hp _ h := hp.ofType h
  combine _ _ h := nomatch h
  collect hp h := by
    obtain ⟨rfl, rfl⟩ := BindM.yields_pure.mp h
    exact ⟨hp, rfl⟩
  any hp hl h := by
    cases h
    exact hp.anyMatching hl
  all hp hl h := by
    cases h
    exact hp.withResult hl
  contains hp ht h := by
    cases h
    refine hp.anyMatching ?_
    intro l hl
    obtain rfl := Option.some.inj hl
    intro near i agrees hi
    exact (hp.projector near i agrees hi).foldBinary (ht near (.stage i))
  aggregate := by
    intro p kind selector site c r c' hp hl h
    obtain ⟨rfl, rfl⟩ := BindM.yields_pure.mp h
    refine ⟨hp.aggregate ?_, rfl⟩
    cases selector with
    | none => exact hp.projector
    | some l => exact hl l rfl
  element hp h := by
    obtain ⟨rfl, rfl⟩ := BindM.yields_pure.mp h
    exact ⟨hp.element, rfl⟩

end Pipeline

/-! ### Queries -/

namespace Query

variable {registry : Registry} {c' : Context}

/-- The arguments of a clause read the rows of the pipeline, or nothing. -/
theorem arguments_keep {clause : Call Expr} {a : Argument}
    (ha : a ∈ (Expr.bindArguments registry clause).arguments) :
    a.step.Keeps (fun t => ∀ near place, t.Placed near place) ∧
      ∀ p : Pipeline, p.Open → a.step.Keeps (Admits p.stages) := by
  have keeps := fun near place =>
    Expr.bindArguments_keeps (Term.placed_invariant registry near) clause a ha place
  constructor
  · intro c c' t hc h
    constructor
    · intro near place
      exact (keeps near place (hc.mono fun u hu => hu near place) h).1
    · have hscope := hc.mono fun u hu => hu (fun _ => none) (.stage 0)
      exact (keeps _ _ hscope h).2
  · intro p _ c c' t hc h
    constructor
    · intro near i agrees hi
      exact (keeps near _ (hc.mono fun u hu => hu near i agrees hi) h).1
    · have hscope := hc.mono fun u hu => hu _ p.stages.length Agrees.refl rfl
      exact (keeps _ _ hscope h).2

/-- **Binding a query places every accumulator.** -/
theorem bind_placed {q : Query} {p : Pipeline}
    (h : (q.bind registry).Yields {} p c') : p.Placed := by
  refine bind_keeps (Pipeline.keepsOpen registry) (fun _ hp => hp.placed)
    (fun _ a ha => arguments_keep ha) ?_ h
  intro codec
  exact ⟨fun _ _ hs => (by cases hs), fun _ _ _ _ => .field, rfl⟩

end Query

end QueryPipeline
