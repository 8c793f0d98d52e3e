import QueryPipeline.Proofs.Grouping.Rows
import QueryPipeline.Proofs.Term.Transform

/-!
Groups that are read as values. A projector or a result that ends with a group gets a record
of its key and its elements, and the accumulator that collects the elements belongs to the
group. What was placed stays placed, and groups are left in the sources of accumulators only,
where attaching them will refuse them.
-/

namespace QueryPipeline

/-! ### Terms -/

namespace Term

/-- Groups occur in the sources of accumulators only. -/
inductive Spelled : Term → Prop where
  | accumulator {group kind source output codec} :
      Spelled (.accumulator group kind source output codec)
  | plain {t} : t.isPlain → (∀ u ∈ t.children, Spelled u) → Spelled t

/-- What becomes of a placed term when its groups are turned into records. -/
def SpelledOut (t u : Term) : Prop :=
  ∀ near place, Placed near place t → Placed near place u ∧ u.Spelled

theorem Spelled.of_bare {t : Term} (h : t.contains isGrouping = false) : t.Spelled := by
  induction t using inductionOn with
  | step t ih =>
    cases t with
    | grouping =>
      rw [contains_of_self rfl] at h
      cases h
    | accumulator => exact .accumulator
    | _ => exact .plain rfl fun u hu => ih u hu (not_contains_child hu h)

end Term

/-! ### Records -/

/-- The record of a group reads what the group reads. -/
theorem spelledOut_record {group : Nat} {key element : Term} {distinct : Bool}
    {kind : AccumulatorKind} {output : String} {codec : Codec} :
    Term.SpelledOut (.grouping group key element none distinct)
      (.document [("Key", key), ("Elements", .accumulator group kind element output codec)])
      := by
  intro near place h
  obtain ⟨⟨hholds, hbare, hkey⟩, helement, -⟩ := h.grouping_holds
  constructor
  · exact .of_two rfl rfl hkey (.accumulator hholds.sees helement.as_source)
  · refine .plain rfl ?_
    intro u hu
    simp only [Term.children, List.map_cons, List.map_nil, List.mem_cons, List.not_mem_nil,
      or_false] at hu
    rcases hu with rfl | rfl
    · exact .of_bare hbare
    · exact .accumulator

/-- Turning groups into records, when it does not fail, reads the same groups. -/
theorem groupsToRecords_sound :
    groupsToRecords.Sound (fun s => s.fault = none) (fun _ => True) (fun t => t.isPlain)
      Term.SpelledOut where
  enter_reflects t := by
    cases t with
    | grouping group key element predicate distinct =>
      intro s hend
      cases predicate with
      | none => exact hend
      | some predicate => cases hend
    | _ => exact reflects_pure
  leave_reflects _ := reflects_pure
  enter t := by
    cases t with
    | grouping group key element predicate distinct =>
      intro s hend _
      cases predicate with
      | none => exact ⟨trivial, spelledOut_record⟩
      | some predicate => cases hend
    | accumulator => exact ensures_pure fun _ _ h => ⟨h, .accumulator⟩
    | _ => exact ensures_pure rfl
  leave := by
    intro t parts plain hparts
    refine ensures_pure ?_
    intro near place h
    have hplain : (t.withChildren parts).isPlain := by
      rwa [Term.withChildren_form.1]
    have hchildren := Term.children_withChildren hparts.length_eq.symm
    have spelled : ∀ v ∈ parts, Term.Placed near place v ∧ v.Spelled := by
      intro v hv
      obtain ⟨u, hu, huv⟩ := exists_of_mem_right hparts hv
      exact huv near place (h.parts plain u hu)
    constructor
    · refine .plain hplain ?_
      rw [hchildren]
      exact fun v hv => (spelled v hv).1
    · refine .plain hplain ?_
      rw [hchildren]
      exact fun v hv => (spelled v hv).2

/-- Turning groups into records keeps a property that terms pass on to their parts, if it stays
when other parts with the property are put in, and if the record of a group has it. -/
theorem groupsToRecords_keeps {holds : Term → Prop}
    (child : ∀ {t u}, holds t → u ∈ t.children → holds u)
    (withChildren : ∀ {t parts}, holds t → parts.length = t.children.length →
      (∀ u ∈ parts, holds u) → holds (t.withChildren parts))
    (record : ∀ {group key element distinct kind n},
      holds (.grouping group key element none distinct) →
        holds (.document [("Key", key), ("Elements", .accumulator group kind element
          (accumulatorName n) (.arrayOf element.codec))])) :
    groupsToRecords.Sound (fun s => s.fault = none) (fun _ => True) (fun _ => True)
      (fun t u => holds t → holds u) where
  enter_reflects := groupsToRecords_sound.enter_reflects
  leave_reflects := groupsToRecords_sound.leave_reflects
  enter t := by
    cases t with
    | grouping group key element predicate distinct =>
      intro s hend _
      cases predicate with
      | none => exact ⟨trivial, record⟩
      | some predicate => cases hend
    | accumulator => exact ensures_pure id
    | _ => exact ensures_pure trivial
  leave := by
    intro t parts _ hparts
    refine ensures_pure fun h => withChildren h hparts.length_eq.symm ?_
    intro v hv
    obtain ⟨u, hu, huv⟩ := exists_of_mem_right hparts hv
    exact huv (child h hu)

/-! ### Pipelines -/

namespace Pipeline

/-- Resolving groups spells them out, attaches what they compute and reduces the result. -/
theorem phases_of_resolveGroups {p resolved : Pipeline} {next : Nat}
    (h : p.resolveGroups next = .ok resolved) :
    ∃ spelled attached, p.spellOutGroups next = .ok spelled ∧
      spelled.collectAccumulators = .ok attached ∧ resolved = attached.reduceResult := by
  unfold resolveGroups at h
  obtain ⟨spelled, hspelled, h⟩ := bind_eq_ok.mp h
  obtain ⟨attached, hattached, h⟩ := bind_eq_ok.mp h
  exact ⟨spelled, attached, hspelled, hattached, (pure_eq_ok.mp h).symm⟩

/-- Groups that are read as values are turned into records, and the stages are the same. -/
structure SpelledOut (p p' : Pipeline) : Prop where
  stages : p'.stages = p.stages
  paging : p'.paging = p.paging
  projector : p.projector.SpelledOut p'.projector
  result : Option.Rel (Terminal.Related Term.SpelledOut) p.result p'.result

/-- Spelling out groups, phase by phase. -/
theorem spellOutGroups_eq (p : Pipeline) (next : Nat) :
    p.spellOutGroups next =
      let projector := (p.projector.transformM groupsToRecords).run { next }
      let result := (transformTerminal groupsToRecords p.result).run projector.2
      match result.2.fault with
      | some fault => .error fault
      | none => .ok { p with projector := projector.1, result := result.1 } :=
  rfl

/-- However turning groups into records relates terms, spelling out groups relates the
projector and the source of the result to what becomes of them. -/
theorem related_of_spellOutGroups {entered : Term → Prop} {rel : Term → Term → Prop}
    (sound : groupsToRecords.Sound (fun s => s.fault = none) (fun _ => True) entered rel)
    {p p' : Pipeline} {next : Nat} (h : p.spellOutGroups next = .ok p') :
    p'.stages = p.stages ∧ p'.paging = p.paging ∧ rel p.projector p'.projector ∧
      Option.Rel (Terminal.Related rel) p.result p'.result := by
  rw [spellOutGroups_eq] at h
  extract_lets projector result at h
  split at h
  · cases h
  · rename_i hend
    cases h
    have hprojector := reflects_transformTerminal sound.reflects p.result projector.2 hend
    have projected := sound.ensures p.projector _ hprojector trivial
    have answered := ensures_transformTerminal (fun x _ => sound.ensures x.source)
      projector.2 hend trivial
    exact ⟨rfl, rfl, projected.2, answered.2⟩

theorem spelledOut_of_eq_ok {p p' : Pipeline} {next : Nat}
    (h : p.spellOutGroups next = .ok p') : p.SpelledOut p' := by
  obtain ⟨stages, paging, projector, result⟩ :=
    related_of_spellOutGroups groupsToRecords_sound h
  exact ⟨stages, paging, projector, result⟩

end Pipeline

end QueryPipeline
