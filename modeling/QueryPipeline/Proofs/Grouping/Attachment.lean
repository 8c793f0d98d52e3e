import QueryPipeline.Proofs.Term.Transform

/-!
Accumulators become fields. Attaching walks through all terms of a pipeline; where it does
not fail, each accumulator has been replaced by the field of an accumulator that was found
before or is found there, and every one that was found is listed by its group stage.
-/

namespace QueryPipeline

/-! ### Terms -/

namespace Term

/-- What becomes of a term when its accumulators are replaced by fields: each by the field of
an accumulator that is computed, of the same group and kind, and with what becomes of its
source. -/
inductive Attached (computes : Accumulator → Prop) : Term → Term → Prop where
  | accumulator {group kind source source' output codec} {b : Accumulator} :
      Attached computes source source' → computes b → b.group = group → b.kind = kind →
      (b.source = source' ∨ b.source.same source') →
      Attached computes (.accumulator group kind source output codec)
        (.field (.field b.output) codec)
  | other {t parts} :
      t.isAccumulator = false → parts.length = t.children.length →
      (∀ p ∈ t.children.zip parts, Attached computes p.1 p.2) →
      Attached computes t (t.withChildren parts)

variable {computes computes' : Accumulator → Prop} {t u : Term}

theorem Attached.mono (sub : ∀ b, computes b → computes' b) (h : t.Attached computes u) :
    t.Attached computes' u := by
  induction h with
  | accumulator _ hb hgroup hkind hsource ih =>
    exact .accumulator ih (sub _ hb) hgroup hkind hsource
  | other hother hlength _ ih => exact .other hother hlength ih

/-- No accumulator is left. -/
theorem Attached.not_contains (h : t.Attached computes u) :
    u.contains isAccumulator = false := by
  induction h with
  | accumulator => rfl
  | @other t parts hother hlength _ ih =>
    rw [contains_eq, withChildren_form.2, hother, children_withChildren hlength,
      Bool.false_or, List.any_eq_false]
    have hparts := List.forall₂_iff_zip.mpr ⟨hlength.symm, fun hmem => ih _ hmem⟩
    intro v hv
    obtain ⟨u, -, hbare⟩ := exists_of_mem_right hparts hv
    simpa using hbare

/-- All accumulators of the term can be attached to their groups. -/
def Attachable (groups : List Nat) (t : Term) : Prop :=
  ∀ a : Accumulator, a.term ∈ t.subterms → a.fault? groups = none

end Term

/-- An accumulator can be attached if it aggregates no group and its group exists. -/
theorem Accumulator.fault?_eq_none {groups : List Nat} {a : Accumulator} :
    a.fault? groups = none ↔
      a.source.contains (Term.dependsOnGroup a.group) = false ∧ a.group ∈ groups := by
  unfold fault?
  split
  · rename_i hnested
    simp [hnested]
  · rename_i hnested
    simp [hnested]

/-! ### Finding accumulators -/

namespace Attachments

/-- Nothing failed, and what was found is among the accumulators found in the end. -/
def Within (final : List Accumulator) (s : Attachments) : Prop :=
  s.fault = none ∧ ∀ b ∈ s.found, b ∈ final

/-- Groups can compute what was found: no accumulators are left in the sources. -/
def Computable (groups : List Nat) (s : Attachments) : Prop :=
  ∀ b ∈ s.found, b.group ∈ groups ∧ b.source.contains Term.isAccumulator = false

end Attachments

open Attachments

variable {groups : List Nat} {final : List Accumulator}

theorem computedField_run (a : Accumulator) (s : Attachments) :
    (computedField a).run s =
      match s.found.find? fun b =>
        b.group == a.group && b.kind == a.kind && b.source.same a.source with
      | some b => (.field (.field b.output) a.codec, s)
      | none => (.field (.field a.output) a.codec, { s with found := s.found ++ [a] }) := by
  unfold computedField
  rw [StateT.run_bind]
  change (match s.found.find? fun b =>
      b.group == a.group && b.kind == a.kind && b.source.same a.source with
    | some b => _
    | none => _ : StateM Attachments Term).run s = _
  split <;> rfl

theorem reflects_computedField (a : Accumulator) :
    Reflects (Within final) (computedField a) := by
  intro s hend
  rw [computedField_run] at hend
  split at hend
  · exact hend
  · exact ⟨hend.1, fun b hb => hend.2 b (List.mem_append_left _ hb)⟩

/-- The field of an accumulator is that of one with its group, its kind and its source. -/
theorem ensures_computedField {a : Accumulator} (hgroup : a.group ∈ groups)
    (hsource : a.source.contains Term.isAccumulator = false) :
    Ensures (Within final) (Computable groups) (computedField a) fun u =>
      ∃ b ∈ final, b.group = a.group ∧ b.kind = a.kind ∧
        (b.source = a.source ∨ b.source.same a.source) ∧
        u = .field (.field b.output) a.codec := by
  intro s hend hinv
  rw [computedField_run] at hend ⊢
  split
  · rename_i b hfind
    rw [hfind] at hend
    have hsame := List.find?_some hfind
    simp only [Bool.and_eq_true, beq_iff_eq] at hsame
    obtain ⟨⟨hgroup, hkind⟩, hsource⟩ := hsame
    have hb := hend.2 b (List.mem_of_find?_eq_some hfind)
    exact ⟨hinv, b, hb, hgroup, hkind, .inr hsource, rfl⟩
  · rename_i hfind
    rw [hfind] at hend
    constructor
    · intro b hb
      rcases List.mem_append.mp hb with hb | hb
      · exact hinv b hb
      · obtain rfl := List.mem_singleton.mp hb
        exact ⟨hgroup, hsource⟩
    · exact ⟨a, hend.2 a (by simp), rfl, rfl, .inl rfl, rfl⟩

/-! ### Attaching -/

/-- What attaching makes of a term that it does not fail on. -/
def AttachedWithin (groups : List Nat) (final : List Accumulator) (t u : Term) : Prop :=
  t.Attached (· ∈ final) u ∧ t.Attachable groups

theorem leave_of_not_accumulator {t : Term} (h : t.isAccumulator = false) :
    (accumulatorsToFields groups).leave t = pure t := by
  cases t with
  | accumulator => cases h
  | _ => rfl

/-- The parts of a term can be attached, and so can the term itself. -/
theorem attachable_of_parts {t : Term}
    (self : ∀ a : Accumulator, t = a.term → a.fault? groups = none)
    (parts : ∀ u ∈ t.children, u.Attachable groups) : t.Attachable groups := by
  intro a ha
  rcases Term.mem_subterms_cases ha with heq | ⟨u, hu, ha⟩
  · exact self a heq.symm
  · exact parts u hu a ha

section Unfailing

variable {well inv : Attachments → Prop} (unfailing : ∀ s, well s → s.fault = none)
include unfailing

/-- Where nothing may fail in the end, entering a term changes nothing. -/
theorem reflects_enter (t : Term) : Reflects well ((accumulatorsToFields groups).enter t) := by
  cases t with
  | accumulator group kind source output codec =>
    simp only [accumulatorsToFields]
    split
    · intro s hend
      cases unfailing _ hend
    · exact reflects_pure
  | _ => exact reflects_pure

/-- No term is replaced as a whole then, and an accumulator can be attached. -/
theorem ensures_enter {rel : Term → Term → Prop} (t : Term) :
    Ensures well inv ((accumulatorsToFields groups).enter t) fun replaced =>
      replaced.elim (∀ a : Accumulator, t = a.term → a.fault? groups = none) (rel t) := by
  cases t with
  | accumulator group kind source output codec =>
    simp only [accumulatorsToFields]
    split
    · intro s hend
      cases unfailing _ hend
    · rename_i hfault
      refine ensures_pure ?_
      intro a ha
      cases a
      cases ha
      exact hfault
  | _ => exact ensures_pure nofun

omit unfailing in
theorem reflects_leave (field : ∀ a, Reflects well (computedField a)) (t : Term) :
    Reflects well ((accumulatorsToFields groups).leave t) := by
  cases t with
  | accumulator => exact field _
  | _ => exact reflects_pure

end Unfailing

theorem accumulatorsToFields_sound (groups : List Nat) (final : List Accumulator) :
    (accumulatorsToFields groups).Sound (Within final) (Computable groups)
      (fun t => ∀ a : Accumulator, t = a.term → a.fault? groups = none)
      (AttachedWithin groups final) where
  enter_reflects := reflects_enter fun _ (h : Within final _) => h.1
  leave_reflects := reflects_leave reflects_computedField
  enter := ensures_enter fun _ (h : Within final _) => h.1
  leave := by
    intro t parts hentered hparts
    have hattachable : t.Attachable groups := by
      refine attachable_of_parts hentered ?_
      intro u hu
      obtain ⟨v, -, huv⟩ := exists_of_mem_right hparts.flip hu
      exact huv.2
    cases hform : t.isAccumulator with
    | false =>
      rw [leave_of_not_accumulator (Term.withChildren_form.2.trans hform)]
      obtain ⟨hlength, hzip⟩ := List.forall₂_iff_zip.mp hparts
      exact ensures_pure ⟨.other hform hlength.symm fun p hp => (hzip hp).1, hattachable⟩
    | true =>
      cases t with
      | accumulator group kind source output codec =>
        obtain ⟨source', rest, hsource, hrest, rfl⟩ :=
          List.forall₂_cons_left_iff.mp hparts
        obtain rfl := List.forall₂_nil_left_iff.mp hrest
        have hgroup : group ∈ groups :=
          (Accumulator.fault?_eq_none.mp (hentered ⟨_, _, _, _, _⟩ rfl)).2
        refine ensures_imp (ensures_computedField hgroup hsource.1.not_contains) ?_
        rintro u ⟨b, hb, hbgroup, hkind, hbsource, rfl⟩
        exact ⟨.accumulator hsource.1 hb hbgroup hkind hbsource, hattachable⟩
      | _ => cases hform

/-! ### Pipelines -/

theorem mem_groupPositions {stages : List Stage} {i : Nat} :
    i ∈ groupPositions stages ↔ isGroupAt stages i := by
  simp only [groupPositions, List.mem_filterMap, isGroupAt, Option.any_eq_true]
  constructor
  · rintro ⟨⟨s, j⟩, hmem, hi⟩
    rw [List.mem_zipIdx_iff_getElem?] at hmem
    simp only at hi
    split at hi
    · rename_i hgroup
      obtain rfl := Option.some.inj hi
      exact ⟨s, hmem, hgroup⟩
    · cases hi
  · rintro ⟨s, hs, hgroup⟩
    exact ⟨(s, i), List.mem_zipIdx_iff_getElem?.mpr hs, by simp [hgroup]⟩

theorem isGroupAt_related {rel : Term → Term → Prop} {added : Accumulator → Prop}
    {stages stages' : List Stage}
    (h : List.Forall₂ (Stage.Related rel added) stages stages') (i : Nat) :
    isGroupAt stages' i = isGroupAt stages i := by
  induction h generalizing i with
  | nil => rfl
  | cons hs _ ih =>
    cases i with
    | zero => simpa [isGroupAt] using hs.isGroup
    | succ i => simpa [isGroupAt] using ih i

/-- An accumulator is listed by the stage of its group. -/
def Computes (stages : List Stage) (a : Accumulator) : Prop :=
  ∃ id accumulators, stages[a.group]? = some (.group id accumulators) ∧ a ∈ accumulators

/-- What was found for a group is listed by its stage. -/
theorem computes_withAccumulators {stages : List Stage} {found : List Accumulator}
    {b : Accumulator} (hb : b ∈ found) (hgroup : isGroupAt stages b.group) :
    Computes (withAccumulators stages found) b := by
  obtain ⟨s, hs, hgroup⟩ := (Option.any_eq_true _ _).mp hgroup
  cases s with
  | group id accumulators =>
    refine ⟨id, accumulators ++ found.filter (·.group == b.group), ?_, ?_⟩
    · simp [withAccumulators, hs]
    · simp [hb]
  | _ => cases hgroup

/-- The accumulators that are found are added to stages that are related already. -/
theorem related_withAccumulators {rel : Term → Term → Prop} {stages stages' : List Stage}
    {found : List Accumulator}
    (h : List.Forall₂ (Stage.Related rel fun _ => False) stages stages') :
    List.Forall₂ (Stage.Related rel (· ∈ found)) stages (withAccumulators stages' found) := by
  rw [List.forall₂_iff_get] at h ⊢
  refine ⟨by simp [withAccumulators, h.1], ?_⟩
  intro i hi hi'
  have hrel := h.2 i hi (by simpa [withAccumulators] using hi')
  simp only [withAccumulators, List.get_eq_getElem, List.getElem_map, List.getElem_zipIdx]
    at hrel ⊢
  revert hrel
  generalize stages[i] = s
  generalize stages'[i] = s'
  intro hrel
  cases hrel with
  | group hid haccumulators hnone =>
    simp only [List.append_assoc]
    refine .group hid haccumulators ?_
    intro a ha
    rcases List.mem_append.mp ha with ha | ha
    · exact (hnone a ha).elim
    · exact List.mem_of_mem_filter ha
  | filter h => exact .filter h
  | project h => exact .project h
  | sort h => exact .sort h
  | skip => exact .skip
  | limit => exact .limit
  | unwind => exact .unwind

namespace Pipeline

/-- What collecting accumulators makes of a pipeline: those that were found can be computed
and are listed by their groups, and the terms have become what they are attached to. -/
structure Collected (p p' : Pipeline) (found : List Accumulator) : Prop where
  bare : ∀ b ∈ found, b.source.contains Term.isAccumulator = false
  listed : ∀ b ∈ found, Computes p'.stages b
  related : p.Related (AttachedWithin (groupPositions p.stages) found) (· ∈ found) p'

theorem ensures_attached (p : Pipeline) (groups : List Nat) (final : List Accumulator) :
    Ensures (Within final) (Computable groups) (do
        let stages ← p.stages.mapM (Stage.transformM (accumulatorsToFields groups))
        let projector ← p.projector.transformM (accumulatorsToFields groups)
        let result ← transformTerminal (accumulatorsToFields groups) p.result
        return { p with stages, projector, result })
      (p.Related (AttachedWithin groups final) fun _ => False) :=
  have sound := accumulatorsToFields_sound groups final
  ensures_transform sound.reflects (fun _ _ t _ => sound.ensures t)
    (sound.ensures p.projector) fun x _ => sound.ensures x.source

/-- What groups can compute is listed by them once it is added. -/
theorem Collected.of_related {p p' : Pipeline} {s : Attachments}
    (computable : Computable (groupPositions p.stages) s)
    (related : p.Related (AttachedWithin (groupPositions p.stages) s.found) (fun _ => False)
      p') :
    p.Collected { p' with stages := withAccumulators p'.stages s.found } s.found where
  bare b hb := (computable b hb).2
  listed b hb := by
    refine computes_withAccumulators hb ?_
    rw [isGroupAt_related related.stages]
    exact mem_groupPositions.mp (computable b hb).1
  related := ⟨related_withAccumulators related.stages, related.projector, related.result⟩

theorem collected_of_eq_ok {p p' : Pipeline} (h : p.collectAccumulators = .ok p') :
    ∃ found, p.Collected p' found := by
  have ensures := fun final => ensures_attached p (groupPositions p.stages) final {}
  unfold collectAccumulators at h
  simp only at h
  split at h
  rename_i transformed s hrun
  split at h
  · cases h
  · rename_i hfault
    cases h
    specialize ensures s.found
    rw [hrun] at ensures
    obtain ⟨computable, related⟩ := ensures ⟨hfault, fun _ hb => hb⟩ nofun
    exact ⟨s.found, .of_related computable related⟩

end Pipeline

end QueryPipeline
