import QueryPipeline.Proofs.Binding.Arrays
import QueryPipeline.Proofs.Grouping.Placement

/-!
What binding leaves of a pipeline. Projections leave no stage, groups compute nothing until
their accumulators are attached, and a result that no accumulator reduces is the row itself.
In all terms, what has to be an array is stored as one.
-/

namespace QueryPipeline

/-- Whether the stage is no projection and no group that computes something. -/
def Stage.isBare : Stage → Bool
  | .project _ => false
  | .group _ accumulators => accumulators.isEmpty
  | _ => true

namespace Pipeline

open Term (ArraysTyped)

/-- The stages and the projector of a pipeline are as binding leaves them. -/
structure Bare (p : Pipeline) : Prop where
  stages : ∀ s ∈ p.stages, s.isBare = true
  terms : ∀ s ∈ p.stages, ∀ t ∈ s.terms, t.ArraysTyped
  projector : p.projector.ArraysTyped

/-- A pipeline that goes on. -/
structure Growing (p : Pipeline) : Prop extends p.Bare where
  unfinished : p.result = none

/-- A pipeline that is bound: a result without an accumulator is the row. -/
structure Bound (p : Pipeline) : Prop extends p.Bare where
  result : ∀ r ∈ p.result, r.source.ArraysTyped
  picked : ∀ r ∈ p.result, r.kind.accumulator? = none → r.source = p.projector

variable {p p' : Pipeline}

namespace Bare

variable {s : Stage}

theorem push (h : p.Bare) (bare : s.isBare = true) (terms : ∀ t ∈ s.terms, t.ArraysTyped) :
    (p.push s).Bare := by
  refine ⟨?_, ?_, h.projector⟩
  · intro s' hs
    rcases List.mem_append.mp hs with hs | hs
    · exact h.stages s' hs
    · exact List.mem_singleton.mp hs ▸ bare
  · intro s' hs
    rcases List.mem_append.mp hs with hs | hs
    · exact h.terms s' hs
    · exact List.mem_singleton.mp hs ▸ terms

theorem flush (h : p.Bare) : p.flush.Bare := by
  have paging {s : Stage} (hs : s ∈ p.paging.bounds.stages) :
      s.isBare = true ∧ s.terms = [] := by
    simp only [Bounds.stages, List.mem_append, Option.mem_toList,
      Option.map_eq_some_iff] at hs
    rcases hs with ⟨n, -, rfl⟩ | ⟨n, -, rfl⟩
    · exact ⟨rfl, rfl⟩
    · exact ⟨rfl, rfl⟩
  refine ⟨?_, ?_, h.projector⟩
  · intro s hs
    rcases List.mem_append.mp hs with hs | hs
    · exact h.stages s hs
    · exact (paging hs).1
  · intro s hs t ht
    rcases List.mem_append.mp hs with hs | hs
    · exact h.terms s hs t ht
    · rw [(paging hs).2] at ht
      cases ht

theorem withProjector {projector : Term} (h : p.Bare) (typed : projector.ArraysTyped) :
    ({ p with projector } : Pipeline).Bare :=
  ⟨h.stages, h.terms, typed⟩

end Bare

namespace Growing

variable {s : Stage}

theorem bound (h : p.Growing) : p.Bound := by
  refine ⟨h.toBare, ?_, ?_⟩
  · rw [h.unfinished]
    nofun
  · rw [h.unfinished]
    nofun

/-- Adding a stage behind the paging. -/
theorem write (h : p.Growing) (bare : s.isBare = true)
    (terms : ∀ t ∈ s.terms, t.ArraysTyped) : (p.flush.push s).Growing :=
  ⟨h.flush.push bare terms, h.unfinished⟩

theorem sortBy {key : RowKey} (h : p.Growing) (hkey : key.key.ArraysTyped) :
    ({ p.flush.push (.sort [key]) with sortOpen := true } : Pipeline).Growing := by
  have sorted : (p.flush.push (.sort [key])).Growing :=
    h.write rfl (by simpa [Stage.terms] using hkey)
  exact ⟨⟨sorted.stages, sorted.terms, sorted.projector⟩, sorted.unfinished⟩

theorem filter {predicate : Term} (h : p.Growing) (typed : predicate.ArraysTyped) :
    (p.filter predicate).Growing :=
  h.write rfl (by simpa [Stage.terms] using typed)

theorem openGroup {id projector : Term} (h : p.Growing) (hid : id.ArraysTyped)
    (hprojector : projector.ArraysTyped) :
    ({ (p.openGroup id).1 with projector } : Pipeline).Growing :=
  ⟨(h.flush.push rfl (by simpa [Stage.terms] using hid)).withProjector hprojector,
    h.unfinished⟩

/-- A result that is reduced by an accumulator, or is the row. -/
theorem withResult {kind : TerminalKind} {source : Term} (h : p.Growing)
    (typed : source.ArraysTyped)
    (picked : kind.accumulator? = none → source = p.projector) :
    (p.withResult kind source).Bound := by
  refine ⟨⟨h.stages, h.terms, h.projector⟩, ?_, ?_⟩
  · intro r hr
    obtain rfl := Option.some.inj hr
    exact typed
  · intro r hr
    obtain rfl := Option.some.inj hr
    exact picked

theorem groupBy {key element : Term} {site : String} (h : p.Growing)
    (hkey : key.ArraysTyped) (helement : element.ArraysTyped)
    (hgroup : p.groupBy key element site = .ok p') : p'.Growing := by
  unfold Pipeline.groupBy at hgroup
  split at hgroup
  · cases hgroup
  · cases hgroup
    refine h.openGroup hkey (.of_parts rfl ?_)
    simp [Term.children, ArraysTyped.asGroupKey, helement]

theorem distinct {site : String} (h : p.Growing) (hdistinct : p.distinct site = .ok p') :
    p'.Growing := by
  unfold Pipeline.distinct at hdistinct
  split at hdistinct
  · cases hdistinct
  · cases hdistinct
    exact h.openGroup h.projector .asGroupKey

theorem extendSort {key : RowKey} (h : p.Growing) (hkey : key.key.ArraysTyped)
    (hextend : p.extendSort? key = some p') : p'.Growing := by
  unfold extendSort? at hextend
  split at hextend
  · rename_i keys hlast
    cases hextend
    have sorted : Stage.sort keys ∈ p.stages := List.mem_of_getLast? hlast
    refine ⟨⟨?_, ?_, h.projector⟩, h.unfinished⟩
    · intro s hs
      rcases List.mem_append.mp hs with hs | hs
      · exact h.stages s (List.dropLast_subset _ hs)
      · exact List.mem_singleton.mp hs ▸ rfl
    · intro s hs t ht
      rcases List.mem_append.mp hs with hs | hs
      · exact h.terms s (List.dropLast_subset _ hs) t ht
      · obtain rfl := List.mem_singleton.mp hs
        simp only [Stage.terms, List.map_append, List.mem_append, List.map_cons,
          List.map_nil, List.mem_singleton] at ht
        rcases ht with ht | rfl
        · exact h.terms _ sorted t ht
        · exact hkey
  · cases hextend

theorem ofType {m : ClassMap} {site : String} (h : p.Growing)
    (hclass : p.ofType m site = .ok p') : p'.Growing := by
  unfold Pipeline.ofType at hclass
  split at hclass
  · cases hclass
    exact ⟨(h.filter .classTest).withProjector .field, h.unfinished⟩
  · cases hclass

theorem unwind {collection item : Term} {site : String} (h : p.Growing)
    (hunwind : p.unwind collection site = .ok (p', item)) :
    p'.Growing ∧ item.ArraysTyped := by
  unfold Pipeline.unwind at hunwind
  split at hunwind
  · split at hunwind
    · split at hunwind
      · cases hunwind
        exact ⟨h.write rfl nofun, .field⟩
      · cases hunwind
      · cases hunwind
    · cases hunwind
  · cases hunwind

theorem any (h : p.Growing) : p.any.Bound :=
  withResult (p := { p with paging := p.paging.take 1 })
    ⟨⟨h.stages, h.terms, h.projector⟩, h.unfinished⟩ .const nofun

theorem anyMatching {predicate : Option Lambda} (h : p.Growing)
    (hl : ∀ l ∈ predicate, l.body.ArraysTyped) :
    (predicate.elim p fun l => p.filter l.body).any.Bound := by
  cases predicate with
  | none => exact h.any
  | some l => exact (h.filter (hl l rfl)).any

/-- Every aggregate is computed by an accumulator. -/
theorem aggregate {kind : Aggregate} {source : Term} (h : p.Growing)
    (typed : source.ArraysTyped) : (p.aggregate kind source).Bound := by
  cases kind with
  | count | longCount => exact h.withResult .const nofun
  | _ => exact h.withResult typed nofun

theorem element {pick : Pick} (h : p.Growing) : (p.element pick).Bound :=
  withResult (p := { p with paging := (pick.rowsNeeded?).elim p.paging p.paging.take })
    ⟨⟨h.stages, h.terms, h.projector⟩, h.unfinished⟩ h.projector fun _ => rfl

end Growing

/-- Operators on the rows of a pipeline leave it as binding does. -/
theorem keepsGrowing (registry : Registry) :
    SequenceInvariant registry Pipeline Pipeline ArraysTyped Growing (fun _ => ArraysTyped)
      Bound where
  inner_outer _ ht := ht
  inner_groupKey := ArraysTyped.groupKey
  lambda_element _ hbody := hbody
  inner_item hp := hp.projector
  closeSort hp := ⟨⟨hp.stages, hp.terms, hp.projector⟩, hp.unfinished⟩
  filter hp hl h := by
    cases h
    exact hp.filter hl
  project hp hl h := by
    cases h
    exact ⟨hp.withProjector hl, hp.unfinished⟩
  unwind hp _ h := ⟨(hp.unwind h).1, (hp.unwind h).2, fun _ hu => hu, fun _ hl => hl⟩
  groupBy := by
    intro p p' key element site hp hkey helement h
    refine ⟨hp.groupBy hkey ?_ h, fun _ hl => hl⟩
    cases element with
    | none => exact hp.projector
    | some l => exact helement l rfl
  distinct hp h := hp.distinct h
  sortBy hp hl h := by
    cases h
    exact hp.sortBy hl
  thenBy hp hl h := by
    simp only [Sequence.thenBy] at h
    split at h
    · rename_i hextend
      cases h
      exact hp.extendSort hl hextend
    · cases h
  skip hp h := by
    cases h
    exact ⟨⟨hp.stages, hp.terms, hp.projector⟩, hp.unfinished⟩
  take hp h := by
    cases h
    exact ⟨⟨hp.stages, hp.terms, hp.projector⟩, hp.unfinished⟩
  ofType hp _ h := hp.ofType h
  combine _ _ h := nomatch h
  collect hp h := by
    obtain ⟨rfl, rfl⟩ := BindM.yields_pure.mp h
    exact ⟨hp, rfl⟩
  any hp hl h := by
    cases h
    exact hp.anyMatching hl
  all hp hl h := by
    cases h
    exact hp.withResult hl nofun
  contains hp ht h := by
    cases h
    refine hp.anyMatching ?_
    intro l hl
    obtain rfl := Option.some.inj hl
    exact hp.projector.foldBinary ht
  aggregate := by
    intro p kind selector site c r c' hp hl h
    obtain ⟨rfl, rfl⟩ := BindM.yields_pure.mp h
    refine ⟨hp.aggregate ?_, rfl⟩
    cases selector with
    | none => exact hp.projector
    | some l => exact hl l rfl
  element hp h := by
    obtain ⟨rfl, rfl⟩ := BindM.yields_pure.mp h
    exact ⟨hp.element, rfl⟩

end Pipeline

/-- **A bound query has no projections, its groups compute nothing yet, and what has to be
an array is stored as one.** -/
theorem Query.bind_bound {registry : Registry} {q : Query} {p : Pipeline} {c : Context}
    (h : (q.bind registry).Yields {} p c) : p.Bound := by
  have keeps := Expr.bindArguments_keeps (Term.typed_invariant registry)
  refine bind_keeps (Pipeline.keepsGrowing registry) (fun _ hp => hp.bound) ?_ ?_ h
  · intro clause a ha
    exact ⟨keeps clause a ha (), fun _ _ => keeps clause a ha ()⟩
  · intro codec
    exact ⟨⟨nofun, nofun, .field⟩, rfl⟩

end QueryPipeline
