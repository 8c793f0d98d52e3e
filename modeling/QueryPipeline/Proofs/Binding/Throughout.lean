import QueryPipeline.Proofs.Binding.Inheritance
import QueryPipeline.Proofs.Grouping.Placement

/-!
What the terms of a bound pipeline inherit. Besides what binding writes into any term, a
pipeline has paths of its own: the rows of a group read their key from a field, member by
member if it is a record, and an unwound array and the mark of a class are read by a path. So
where all paths from the row have a property that bound terms inherit, and of a record only the
names count for it, all terms of a bound pipeline have it.
-/

namespace QueryPipeline

open Term (Everywhere Inherited)

/-- A property of the terms of a pipeline and of all terms below them. -/
structure Pipeline.Throughout (holds : Term → Prop) (p : Pipeline) : Prop where
  stages : ∀ s ∈ p.stages, ∀ t ∈ s.terms, t.Everywhere holds
  projector : p.projector.Everywhere holds
  result : ∀ r ∈ p.result, r.source.Everywhere holds

namespace Pipeline

variable {registry : Registry} {holds : Term → Prop} {p p' : Pipeline} {t : Term}

namespace Throughout

theorem mono {holds' : Term → Prop} (h : p.Throughout holds)
    (sub : ∀ t : Term, t.Everywhere holds → t.Everywhere holds') : p.Throughout holds' where
  stages s hs t ht := sub t (h.stages s hs t ht)
  projector := sub _ h.projector
  result r hr := sub _ (h.result r hr)

theorem push {s : Stage} (h : p.Throughout holds) (hs : ∀ t ∈ s.terms, t.Everywhere holds) :
    (p.push s).Throughout holds := by
  refine ⟨?_, h.projector, h.result⟩
  intro s' hs'
  rcases List.mem_append.mp hs' with hs' | hs'
  · exact h.stages s' hs'
  · exact List.mem_singleton.mp hs' ▸ hs

theorem flush (h : p.Throughout holds) : p.flush.Throughout holds := by
  refine ⟨?_, h.projector, h.result⟩
  intro s hs
  rcases List.mem_append.mp hs with hs | hs
  · exact h.stages s hs
  · simp only [Bounds.stages, List.mem_append, Option.mem_toList, Option.map_eq_some_iff] at hs
    rcases hs with ⟨n, -, rfl⟩ | ⟨n, -, rfl⟩
    · exact nofun
    · exact nofun

theorem withProjector (h : p.Throughout holds) (ht : t.Everywhere holds) :
    ({ p with projector := t } : Pipeline).Throughout holds :=
  ⟨h.stages, ht, h.result⟩

theorem withResult {kind : TerminalKind} (h : p.Throughout holds) (ht : t.Everywhere holds) :
    (p.withResult kind t).Throughout holds := by
  refine ⟨h.stages, h.projector, ?_⟩
  intro r hr
  obtain rfl := Option.some.inj hr
  exact ht

theorem withPaging {paging : Window} (h : p.Throughout holds) :
    ({ p with paging } : Pipeline).Throughout holds :=
  ⟨h.stages, h.projector, h.result⟩

theorem withSortOpen {sortOpen : Bool} (h : p.Throughout holds) :
    ({ p with sortOpen } : Pipeline).Throughout holds :=
  ⟨h.stages, h.projector, h.result⟩

theorem filter (h : p.Throughout holds) (ht : t.Everywhere holds) :
    (p.filter t).Throughout holds :=
  h.flush.push (List.forall_mem_singleton.mpr ht)

theorem openGroup (h : p.Throughout holds) (ht : t.Everywhere holds) :
    (p.openGroup t).1.Throughout holds :=
  h.flush.push (List.forall_mem_singleton.mpr ht)

theorem extendSort {key : RowKey} (h : p.Throughout holds) (hkey : key.key.Everywhere holds)
    (hextend : p.extendSort? key = some p') : p'.Throughout holds := by
  unfold extendSort? at hextend
  split at hextend
  · rename_i keys hlast
    cases hextend
    have sorted : Stage.sort keys ∈ p.stages := List.mem_of_getLast? hlast
    refine ⟨?_, h.projector, h.result⟩
    intro s hs t ht
    rcases List.mem_append.mp hs with hs | hs
    · exact h.stages s (List.dropLast_subset _ hs) t ht
    · obtain rfl := List.mem_singleton.mp hs
      simp only [Stage.terms, List.map_append, List.mem_append, List.map_cons, List.map_nil,
        List.mem_singleton] at ht
      rcases ht with ht | rfl
      · exact h.stages _ sorted t ht
      · exact hkey
  · cases hextend

variable (inv : Inherited registry holds)
include inv

theorem any (h : p.Throughout holds) : p.any.Throughout holds :=
  withResult h.withPaging inv.const

theorem anyMatching {predicate : Option Lambda} (h : p.Throughout holds)
    (hl : ∀ l ∈ predicate, l.body.Everywhere holds) :
    (predicate.elim p fun l => p.filter l.body).any.Throughout holds := by
  cases predicate with
  | none => exact h.any inv
  | some l => exact (h.filter (hl l rfl)).any inv

theorem aggregate {kind : Aggregate} (h : p.Throughout holds) (ht : t.Everywhere holds) :
    (p.aggregate kind t).Throughout holds := by
  cases kind with
  | count | longCount => exact h.withResult inv.const
  | _ => exact h.withResult ht

end Throughout

/-- A property that bound terms inherit, that all paths from the row have, and for which only
the names of a record count. -/
structure Inherits (registry : Registry) (holds : Term → Prop) : Prop
    extends Inherited registry holds where
  row {path codec} : path.var = none → holds (.field path codec)
  reread {fields fields'} : fields.map Prod.fst = fields'.map Prod.fst →
    holds (.document fields) → holds (.document fields')

namespace Inherits

variable (inv : Inherits registry holds)
include inv

theorem rowPath {path : FieldPath} {codec : Codec} (h : path.var = none) :
    (Term.field path codec).Everywhere holds :=
  Term.everywhere_field (inv.row h)

theorem asGroupKey (ht : t.Everywhere holds) : t.asGroupKey.Everywhere holds := by
  unfold Term.asGroupKey
  split
  · rename_i fields
    refine Term.everywhere_iff.mpr ⟨inv.reread (by simp) ht.self, ?_⟩
    simp only [Term.children, List.map_map, List.mem_map, Function.comp_apply]
    rintro u ⟨f, -, rfl⟩
    exact inv.rowPath rfl
  · exact inv.rowPath rfl

theorem unwind {collection item : Term} {site : String} (hp : p.Throughout holds)
    (h : p.unwind collection site = .ok (p', item)) :
    p'.Throughout holds ∧ item.Everywhere holds := by
  unfold Pipeline.unwind at h
  split at h
  · split at h
    · rename_i path codec hpath
      split at h
      · cases h
        simp only [FieldPath.isRowField, Bool.and_eq_true, Option.isNone_iff_eq_none] at hpath
        exact ⟨hp.flush.push nofun, inv.rowPath hpath.1⟩
      · cases h
      · cases h
    · cases h
  · cases h

theorem groupBy {key element : Term} {site : String} (hp : p.Throughout holds)
    (hkey : key.Everywhere holds) (helement : element.Everywhere holds)
    (h : p.groupBy key element site = .ok p') : p'.Throughout holds := by
  unfold Pipeline.groupBy at h
  split at h
  · cases h
  · cases h
    exact (hp.openGroup hkey).withProjector
      (inv.built rfl (by simp [Term.children, inv.asGroupKey hkey, helement]))

theorem distinct {site : String} (hp : p.Throughout holds) (h : p.distinct site = .ok p') :
    p'.Throughout holds := by
  unfold Pipeline.distinct at h
  split at h
  · cases h
  · cases h
    exact (hp.openGroup hp.projector).withProjector (inv.asGroupKey hp.projector)

theorem ofType {m : ClassMap} {site : String} (hp : p.Throughout holds)
    (h : p.ofType m site = .ok p') : p'.Throughout holds := by
  unfold Pipeline.ofType at h
  split at h
  · rename_i mark path codec _ hprojector
    cases h
    have hpath {path' : FieldPath} {codec' : Codec} (same : path'.var = path.var) :
        (Term.field path' codec').Everywhere holds := by
      cases hvar : path.var with
      | none => exact inv.rowPath (same.trans hvar)
      | some var => exact inv.variablePath (by rw [same, hvar]; rfl)
    refine Throughout.withProjector (hp.filter ?_) (hpath rfl)
    exact inv.binary (hpath rfl) inv.const
  · cases h

/-- Operators on the rows of a pipeline pass on what its terms inherit. -/
theorem invariant : SequenceInvariant registry Pipeline Pipeline (Everywhere holds)
    (Throughout holds) (fun _ => Everywhere holds) (Throughout holds) where
  inner_outer _ ht := ht
  inner_groupKey := .groupKey
  inner_item hp := hp.projector
  lambda_element _ hbody := hbody
  closeSort hp := hp.withSortOpen
  filter hp hl h := by
    cases h
    exact hp.filter hl
  project hp hl h := by
    cases h
    exact hp.withProjector hl
  unwind hp _ h := ⟨(inv.unwind hp h).1, (inv.unwind hp h).2, fun _ hu => hu, fun _ hl => hl⟩
  groupBy := by
    intro p p' key element site hp hkey helement h
    refine ⟨inv.groupBy hp hkey ?_ h, fun _ hl => hl⟩
    cases element with
    | none => exact hp.projector
    | some l => exact helement l rfl
  distinct hp h := inv.distinct hp h
  sortBy hp hl h := by
    cases h
    refine Throughout.withSortOpen (hp.flush.push ?_)
    exact List.forall_mem_singleton.mpr hl
  thenBy hp hl h := by
    simp only [Sequence.thenBy] at h
    split at h
    · rename_i hextend
      cases h
      exact hp.extendSort hl hextend
    · cases h
  skip hp h := by
    cases h
    exact hp.withPaging
  take hp h := by
    cases h
    exact hp.withPaging
  ofType hp _ h := inv.ofType hp h
  combine _ _ h := nomatch h
  collect hp h := by
    obtain ⟨rfl, rfl⟩ := BindM.yields_pure.mp h
    exact ⟨hp, rfl⟩
  any hp hl h := by
    cases h
    exact hp.anyMatching inv.toInherited hl
  all hp hl h := by
    cases h
    exact hp.withResult hl
  contains hp ht h := by
    cases h
    refine hp.anyMatching inv.toInherited ?_
    intro l hl
    obtain rfl := Option.some.inj hl
    exact inv.foldBinary hp.projector ht
  aggregate := by
    intro p kind selector site c r c' hp hl h
    obtain ⟨rfl, rfl⟩ := BindM.yields_pure.mp h
    refine ⟨hp.aggregate inv.toInherited ?_, rfl⟩
    cases selector with
    | none => exact hp.projector
    | some l => exact hl l rfl
  element hp h := by
    obtain ⟨rfl, rfl⟩ := BindM.yields_pure.mp h
    exact ⟨hp.withPaging.withResult hp.projector, rfl⟩

theorem ofRoot (codec : Codec) : (Pipeline.ofRoot codec).Throughout holds :=
  ⟨nofun, inv.rowPath rfl, nofun⟩

end Inherits

end Pipeline

/-- **What bound terms and paths inherit holds throughout a bound pipeline.** -/
theorem Query.bind_throughout {registry : Registry} {holds : Term → Prop}
    (inv : Pipeline.Inherits registry holds) (accumulators : ∀ a : Accumulator, holds a.term)
    {q : Query} {p : Pipeline} {c : Context} (h : (q.bind registry).Yields {} p c) :
    p.Throughout holds := by
  have keeps := Expr.bindArguments_keeps (inv.toInherited.invariant accumulators)
  refine Query.bind_keeps inv.invariant (fun _ hp => hp) ?_ inv.ofRoot h
  intro clause a ha
  exact ⟨keeps clause a ha (), fun _ _ => keeps clause a ha ()⟩

end QueryPipeline
