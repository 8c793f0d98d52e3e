import QueryPipeline.Proofs.Binding.Ledger
import QueryPipeline.Proofs.Options
import QueryPipeline.Proofs.Term.SelfSame

/-!
The names of the fields that a group computes. An accumulator that stands in several places
is found in each of them, and it is only because the first one is found again, as the same
accumulator, that its group does not list it twice. The ledger says that what has one name is
one accumulator (`Query.bind_entered`), and attaching makes the same of its source in each
place (`Term.attachedTo`); so the name of a field is given twice only for an accumulator that
differs from itself, since a constant in its source does (`Query.outputs_apart`).
-/

namespace QueryPipeline

open Term (Entered Listed)

/-! ### Groups that are spelled out -/

/-- When as many names are given out as the ledger lists, the step adds to the ledger what it
gives names to, and gives a value with a property for it. -/
def Spells {α : Type} (step : StateM GroupNaming α) (ledger : List Accumulator)
    (post : List Accumulator → α → Prop) : Prop :=
  ∀ s, s.next = ledger.length → ∃ ledger', ledger <+: ledger' ∧
    (step.run s).2.next = ledger'.length ∧ post ledger' (step.run s).1

section Spells

variable {α β : Type} {ledger : List Accumulator} {post : List Accumulator → α → Prop}
  {post' : List Accumulator → β → Prop}

theorem spells_pure {a : α} (h : post ledger a) : Spells (pure a) ledger post :=
  fun _ hs => ⟨ledger, List.prefix_rfl, hs, h⟩

theorem spells_bind {step : StateM GroupNaming α} {next : α → StateM GroupNaming β}
    (h : Spells step ledger post)
    (hnext : ∀ {ledger' a}, ledger <+: ledger' → post ledger' a → Spells (next a) ledger' post') :
    Spells (step >>= next) ledger post' := by
  intro s hs
  obtain ⟨ledger₁, growth₁, hs₁, ha⟩ := h s hs
  obtain ⟨ledger₂, growth₂, hs₂, hb⟩ := hnext growth₁ ha _ hs₁
  exact ⟨ledger₂, growth₁.trans growth₂, hs₂, hb⟩

theorem spells_mapM {f : Term → StateM GroupNaming Term} {ts : List Term}
    (h : ∀ t ∈ ts, ∀ ledger, t.Entered ledger →
      Spells (f t) ledger fun ledger u => u.Entered ledger)
    (hts : ∀ t ∈ ts, t.Entered ledger) :
    Spells (ts.mapM f) ledger fun ledger us =>
      us.length = ts.length ∧ ∀ u ∈ us, u.Entered ledger := by
  induction ts generalizing ledger with
  | nil => exact spells_pure ⟨rfl, nofun⟩
  | cons t ts ih =>
    obtain ⟨first, rest⟩ := List.forall_mem_cons.mp h
    obtain ⟨ht, hts⟩ := List.forall_mem_cons.mp hts
    rw [List.mapM_cons]
    refine spells_bind (first ledger ht) ?_
    intro ledger₁ u growth hu
    refine spells_bind (ih rest fun t' ht' => (hts t' ht').grow growth) ?_
    rintro ledger₂ us growth₂ ⟨length, hus⟩
    exact spells_pure ⟨by simp [length], List.forall_mem_cons.mpr ⟨hu.grow growth₂, hus⟩⟩

/-- The record of a group has one accumulator, which gets the next name. -/
theorem spells_groupRecord {stage : Nat} {key element : Term} {predicate : Option Term}
    {distinct : Bool} (h : (Term.grouping stage key element predicate distinct).Entered ledger) :
    Spells (groupRecord stage key element predicate distinct) ledger
      fun ledger t => t.Entered ledger := by
  intro s hs
  cases predicate with
  | some predicate => exact ⟨ledger, List.prefix_rfl, hs, h⟩
  | none =>
    let a : Accumulator := ⟨stage, if distinct then .addToSet else .push, element,
      accumulatorName s.next, .arrayOf element.codec⟩
    have growth : ledger <+: ledger ++ [a] := List.prefix_append _ _
    have hkey : key.Entered ledger := h.child (by simp [Term.children])
    have helements : a.term.Entered (ledger ++ [a]) :=
      Entered.accumulator (h.child (by simp [a, Term.children])) (by simp [a, hs])
    refine ⟨ledger ++ [a], growth, ?_, Term.everywhere_iff.mpr ⟨trivial, ?_⟩⟩
    · change s.next + 1 = _
      simp [hs]
    · exact List.forall_mem_cons.mpr
        ⟨hkey.grow growth, List.forall_mem_singleton.mpr helements⟩

/-- **Turning groups into records** adds to the ledger, and the term is entered. -/
theorem spells_groupsToRecords (t : Term) (ledger : List Accumulator) (h : t.Entered ledger) :
    Spells (t.transformM groupsToRecords) ledger fun ledger u => u.Entered ledger := by
  induction t using Term.inductionOn generalizing ledger with
  | step t ih =>
    rw [Term.transformM_eq]
    have parts (plain : t.isAccumulator = false) : Spells (do
        let parts ← t.children.mapM (Term.transformM groupsToRecords)
        groupsToRecords.leave (t.withChildren parts)) ledger fun ledger u => u.Entered ledger := by
      refine spells_bind (spells_mapM ih fun u hu => h.child hu) ?_
      rintro ledger₁ us growth ⟨length, hus⟩
      refine spells_pure (Term.everywhere_iff.mpr ⟨?_, ?_⟩)
      · exact Term.listed_of_not_accumulator (Term.withChildren_form.2.trans plain)
      · rwa [Term.children_withChildren length]
    cases t with
    | grouping stage key element predicate distinct =>
      simp only [groupsToRecords, map_eq_pure_bind, bind_assoc, pure_bind]
      exact spells_bind (spells_groupRecord h) fun _ hu => spells_pure hu
    | accumulator => exact spells_pure h
    | _ => exact parts rfl

theorem spells_transformTerminal {result : Option Terminal}
    (h : ∀ r ∈ result, r.source.Entered ledger) :
    Spells (Pipeline.transformTerminal groupsToRecords result) ledger
      fun ledger o => ∀ r ∈ o, r.source.Entered ledger := by
  cases result with
  | none => exact spells_pure nofun
  | some r =>
    refine spells_bind (spells_groupsToRecords r.source ledger (h r rfl)) ?_
    intro ledger₁ source _ hsource
    refine spells_pure ?_
    rintro r' ⟨⟩
    exact hsource

/-- Spelling out the groups of a pipeline whose accumulators are listed only adds to the
ledger. -/
theorem Pipeline.entered_of_spellOutGroups {p spelled : Pipeline}
    (hp : p.Throughout (Listed ledger)) (h : p.spellOutGroups ledger.length = .ok spelled) :
    ∃ ledger', spelled.Throughout (Listed ledger') := by
  rw [spellOutGroups_eq] at h
  extract_lets projector result at h
  split at h
  · cases h
  · cases h
    obtain ⟨ledger₁, growth₁, next₁, hprojector⟩ :=
      spells_groupsToRecords p.projector ledger hp.projector { next := ledger.length } rfl
    have entered : ∀ r ∈ p.result, r.source.Entered ledger₁ := fun r hr =>
      Entered.grow (hp.result r hr) growth₁
    obtain ⟨ledger₂, growth₂, -, hresult⟩ := spells_transformTerminal entered _ next₁
    refine ⟨ledger₂, ?_, hprojector.grow growth₂, hresult⟩
    intro s hs t ht
    exact Entered.grow (hp.stages s hs t ht) (growth₁.trans growth₂)

end Spells

/-! ### What terms are attached to -/

/-- Whether the field of another accumulator is read in place of an accumulator: it is of
the same group and kind, and its source is the same. -/
def Accumulator.isServedBy (a b : Accumulator) : Bool :=
  b.group == a.group && b.kind == a.kind && b.source.same a.source

/-- The name under which an accumulator is read, when it is known which ones are found in the
end. One that differs from itself is not found again. -/
def Accumulator.outputAmong (final : List Accumulator) (a : Accumulator) : String :=
  if a.isServedBy a then ((final.find? a.isServedBy).getD a).output else a.output

/-- Replaces accumulators by the fields under which they are read, when it is known which ones
are found in the end. -/
def fieldsAmong (final : List Accumulator) : Transform Id where
  enter _ := none
  leave
    | .accumulator group kind source output codec =>
      .field (.field (Accumulator.outputAmong final ⟨group, kind, source, output, codec⟩)) codec
    | t => t

namespace Term

/-- What becomes of a term when its accumulators are attached. -/
def attachedTo (final : List Accumulator) (t : Term) : Term :=
  Id.run (t.transformM (fieldsAmong final))

variable {final : List Accumulator} {t : Term}

theorem attachedTo_eq : t.attachedTo final =
    Id.run ((fieldsAmong final).leave (t.withChildren (t.children.map (attachedTo final)))) := by
  rw [attachedTo, transformM_eq]
  change Id.run (t.children.mapM (transformM (fieldsAmong final)) >>= fun parts =>
    (fieldsAmong final).leave (t.withChildren parts)) = _
  rw [Id.run_bind, List.idRun_mapM]
  rfl

theorem attachedTo_of_not_accumulator (h : t.isAccumulator = false) :
    t.attachedTo final = t.withChildren (t.children.map (attachedTo final)) := by
  rw [attachedTo_eq]
  have form : (t.withChildren (t.children.map (attachedTo final))).isAccumulator = false :=
    withChildren_form.2.trans h
  generalize t.withChildren (t.children.map (attachedTo final)) = u at form
  cases u with
  | accumulator => cases form
  | _ => rfl

theorem attachedTo_accumulator (a : Accumulator) : a.term.attachedTo final =
    .field (.field ({ a with source := a.source.attachedTo final }.outputAmong final))
      a.codec :=
  attachedTo_eq

/-- Fields add no constants. -/
theorem attachedTo_addsNoConstant (t : Term) : t.AddsNoConstant (t.attachedTo final) := by
  induction t using inductionOn with
  | step t ih =>
    cases form : t.isAccumulator with
    | false =>
      rw [attachedTo_of_not_accumulator form]
      exact addsNoConstant_withChildren (List.forall₂_map_right_iff.mpr
        (List.forall₂_same.mpr ih))
    | true =>
      cases t with
      | accumulator group kind source output codec =>
        rintro v ⟨codec', hmem⟩
        rw [show accumulator group kind source output codec =
          Accumulator.term ⟨group, kind, source, output, codec⟩ from rfl,
          attachedTo_accumulator] at hmem
        cases List.mem_singleton.mp hmem
      | _ => cases form

end Term

/-! ### Attaching -/

namespace Attachments

/-- Nothing failed, and what was found comes first among the accumulators found in the end. -/
def Before (final : List Accumulator) (s : Attachments) : Prop :=
  s.fault = none ∧ s.found <+: final

/-- What was found are listed accumulators with what becomes of their sources, whose constants
have a property. Where two have one name, they are one accumulator, which differs from
itself. -/
structure Booked (ledger final : List Accumulator) (constants : Value → Prop)
    (s : Attachments) : Prop where
  listed : ∀ b ∈ s.found, ∃ a : Accumulator, a.term.Listed ledger ∧
    b = { a with source := a.source.attachedTo final }
  constants : ∀ b ∈ s.found, ∀ v, b.source.HasConstant v → constants v
  apart : s.found.Pairwise fun b b' =>
    b.output = b'.output → b = b' ∧ b.source.same b.source = false

end Attachments

open Attachments

variable {ledger final : List Accumulator} {constants : Value → Prop} {groups : List Nat}

theorem Accumulator.isServedBy_self {a : Accumulator} :
    a.isServedBy a = a.source.same a.source := by
  simp [isServedBy]

/-- Either a field that serves is found, or the accumulator is added. -/
theorem computedField_cases (a : Accumulator) (s : Attachments) :
    (∃ b, s.found.find? a.isServedBy = some b ∧
      (computedField a).run s = (.field (.field b.output) a.codec, s)) ∨
    s.found.find? a.isServedBy = none ∧
      (computedField a).run s =
        (.field (.field a.output) a.codec, { s with found := s.found ++ [a] }) := by
  have run := computedField_run a s
  rw [show (fun b : Accumulator => b.group == a.group && b.kind == a.kind &&
    b.source.same a.source) = a.isServedBy from rfl] at run
  cases hfind : s.found.find? a.isServedBy with
  | none => exact .inr ⟨rfl, by rw [run, hfind]⟩
  | some b => exact .inl ⟨b, rfl, by rw [run, hfind]⟩

theorem reflects_computedField_before (a : Accumulator) :
    Reflects (Before final) (computedField a) := by
  intro s hend
  rcases computedField_cases a s with ⟨b, -, hrun⟩ | ⟨-, hrun⟩
  · rwa [hrun] at hend
  · rw [hrun] at hend
    exact ⟨hend.1, (List.prefix_append _ _).trans hend.2⟩

/-- An accumulator that is found already agrees with itself, so the end has the same one
first. -/
theorem outputAmong_of_served {b c : Accumulator} {s : Attachments}
    (wellFormed : ∀ v, constants v → v.WellFormed) (hinv : Booked ledger final constants s)
    (hb : ∀ v, b.source.HasConstant v → constants v) (before : Before final s)
    (hfind : s.found.find? b.isServedBy = some c) : b.outputAmong final = c.output := by
  have same : c.source.same b.source = true := by
    have serves := List.find?_some hfind
    simp only [Accumulator.isServedBy, Bool.and_eq_true] at serves
    exact serves.2
  have hc := hinv.constants c (List.mem_of_find?_eq_some hfind)
  have self : b.isServedBy b = true := by
    rw [Accumulator.isServedBy_self]
    exact Term.same_right (fun v hv => wellFormed v (hc v hv))
      (fun v hv => wellFormed v (hb v hv)) same
  rw [Accumulator.outputAmong, if_pos self, before.2.find?_eq_some hfind]
  rfl

/-- One that is not found yet is read under its own name. -/
theorem outputAmong_of_added {b : Accumulator} {s : Attachments}
    (added : s.found ++ [b] <+: final) (hfind : s.found.find? b.isServedBy = none) :
    b.outputAmong final = b.output := by
  unfold Accumulator.outputAmong
  split
  · rename_i self
    have found : (s.found ++ [b]).find? b.isServedBy = some b := by
      simp [List.find?_append, hfind, self]
    rw [added.find?_eq_some found]
    rfl
  · rfl

/-- An accumulator that is added though one of its name was found is that one, and differs
from itself. -/
theorem Attachments.Booked.add {a : Accumulator} {s : Attachments}
    (hinv : Booked ledger final constants s) (listed : a.term.Listed ledger)
    (hconstants : ∀ v, (a.source.attachedTo final).HasConstant v → constants v)
    (hfind : s.found.find?
      (Accumulator.isServedBy { a with source := a.source.attachedTo final }) = none) :
    Booked ledger final constants
      { s with found := s.found ++ [{ a with source := a.source.attachedTo final }] } where
  listed b hb := by
    rcases List.mem_append.mp hb with hb | hb
    · exact hinv.listed b hb
    · exact ⟨a, listed, List.mem_singleton.mp hb⟩
  constants b hb := by
    rcases List.mem_append.mp hb with hb | hb
    · exact hinv.constants b hb
    · exact List.mem_singleton.mp hb ▸ hconstants
  apart := by
    refine List.pairwise_append.mpr ⟨hinv.apart, List.pairwise_singleton _ _, ?_⟩
    intro b hb b' hb' name
    obtain rfl := List.mem_singleton.mp hb'
    obtain ⟨a', listed', rfl⟩ := hinv.listed b hb
    obtain rfl := Listed.unique listed' listed name
    have differs := List.find?_eq_none.mp hfind _ hb
    rw [Accumulator.isServedBy_self, Bool.not_eq_true] at differs
    exact ⟨rfl, differs⟩

/-- **What an accumulator is read as** is known from what is found in the end. -/
theorem ensures_computedField_booked (wellFormed : ∀ v, constants v → v.WellFormed)
    {a : Accumulator} (listed : a.term.Listed ledger)
    (hconstants : ∀ v, a.source.HasConstant v → constants v) :
    Ensures (Before final) (Booked ledger final constants)
      (computedField { a with source := a.source.attachedTo final })
      fun u => a.term.attachedTo final = u := by
  have attached : ∀ v, (a.source.attachedTo final).HasConstant v → constants v := fun v hv =>
    hconstants v (Term.attachedTo_addsNoConstant a.source v hv)
  rw [Term.attachedTo_accumulator]
  intro s hend hinv
  rcases computedField_cases { a with source := a.source.attachedTo final } s with
    ⟨b, hfind, hrun⟩ | ⟨hfind, hrun⟩
  · rw [hrun] at hend ⊢
    rw [outputAmong_of_served wellFormed hinv attached hend hfind]
    exact ⟨hinv, rfl⟩
  · rw [hrun] at hend ⊢
    rw [outputAmong_of_added hend.2 hfind]
    exact ⟨hinv.add listed attached hfind, rfl⟩

/-- **Attaching makes the same of a term wherever it stands.** -/
theorem ensures_attachedTo (wellFormed : ∀ v, constants v → v.WellFormed) {t : Term}
    (entered : t.Entered ledger) (hconstants : ∀ v, t.HasConstant v → constants v) :
    Ensures (Before final) (Booked ledger final constants)
      (t.transformM (accumulatorsToFields groups)) fun u => t.attachedTo final = u := by
  have child {t u : Term} (h : t.Entered ledger ∧ ∀ v, t.HasConstant v → constants v)
      (hu : u ∈ t.children) : u.Entered ledger ∧ ∀ v, u.HasConstant v → constants v :=
    ⟨h.1.child hu, fun v hv => h.2 v (hv.of_child hu)⟩
  have unfailing (s : Attachments) (h : Before final s) : s.fault = none := h.1
  let rel (t u : Term) : Prop := t.attachedTo final = u
  have enter {t : Term} (_ : t.Entered ledger ∧ ∀ v, t.HasConstant v → constants v) :
      Ensures (Before final) (Booked ledger final constants)
        ((accumulatorsToFields groups).enter t) fun replaced =>
          replaced.elim (∀ a : Accumulator, t = a.term → a.fault? groups = none) (rel t) :=
    ensures_enter unfailing t
  refine Transform.ensures_term child (reflects_enter unfailing)
    (reflects_leave reflects_computedField_before) enter ?_ ⟨entered, hconstants⟩
  intro t parts h _ hparts
  have attached : t.children.map (Term.attachedTo final) = parts := by
    rwa [← List.forall₂_eq_eq_eq, List.forall₂_map_left_iff]
  cases form : t.isAccumulator with
  | false =>
    rw [leave_of_not_accumulator (Term.withChildren_form.2.trans form), ← attached]
    exact ensures_pure (Term.attachedTo_of_not_accumulator form)
  | true =>
    cases t with
    | accumulator group kind source output codec =>
      subst attached
      let a : Accumulator := ⟨group, kind, source, output, codec⟩
      exact ensures_computedField_booked (a := a) wellFormed h.1.self
        (child h List.mem_cons_self).2
    | _ => cases form

/-! ### Pipelines -/

namespace Pipeline

/-- What attaching finds in a pipeline is booked, and its stages list it. -/
theorem booked_of_eq_ok {p p' : Pipeline} (h : p.collectAccumulators = .ok p')
    (entered : p.Throughout (Listed ledger)) (wellFormed : ∀ v, constants v → v.WellFormed)
    (hconstants : ∀ v, p.HasConstant v → constants v) :
    ∃ s stages, Booked ledger s.found constants s ∧
      p'.stages = withAccumulators stages s.found ∧
      List.Forall₂ (Stage.Related (fun _ _ => True) fun _ => False) p.stages stages := by
  have term (final : List Accumulator) {i : Nat} {t : Term} (ht : p.HasTerm i t)
      (everywhere : t.Entered ledger) :
      Ensures (Before final) (Booked ledger final constants)
        (t.transformM (accumulatorsToFields (groupPositions p.stages)))
        fun u => t.attachedTo final = u :=
    ensures_attachedTo wellFormed everywhere fun v hv => hconstants v ⟨i, t, ht, hv⟩
  have reflects (final : List Accumulator) (t : Term) : Reflects (Before final)
      (t.transformM (accumulatorsToFields (groupPositions p.stages))) :=
    Transform.reflects_term (reflects_enter fun s (h : Before final s) => h.1)
      (reflects_leave reflects_computedField_before) t
  have ensures (final : List Accumulator) := ensures_transform (reflects final)
    (fun s hs t ht => by
      obtain ⟨i, hi⟩ := List.getElem?_of_mem hs
      exact term final (.stage hi ht) (entered.stages s hs t ht))
    (term final .projector entered.projector)
    (fun r hr => term final (.result hr) (entered.result r hr))
  unfold collectAccumulators at h
  simp only at h
  split at h
  rename_i transformed s hrun
  split at h
  · cases h
  · rename_i hfault
    cases h
    have ended := ensures s.found {}
    rw [hrun] at ended
    obtain ⟨booked, related⟩ := ended ⟨hfault, List.prefix_rfl⟩ ⟨nofun, nofun, .nil⟩
    refine ⟨s, transformed.stages, booked, rfl, related.stages.imp ?_⟩
    exact fun _ _ => .mono (fun _ _ _ => trivial) fun _ => id

end Pipeline

theorem accumulatorName_ne_keyField (n : Nat) : accumulatorName n ≠ keyField := by
  intro same
  have letters := congrArg String.toList same
  simp [accumulatorName, keyField] at letters

/-- The outputs of a group's accumulators are not the name of its key, and two of one name
belong to one accumulator, with a constant in its source that differs from itself. -/
def Stage.OutputsApart (constants : Value → Prop) : Stage → Prop
  | .group _ accumulators =>
    keyField ∉ accumulators.map Accumulator.output ∧
      accumulators.Pairwise fun a b => a.output = b.output →
        a = b ∧ ∃ v, constants v ∧ a.source.HasConstant v ∧ v.same v = false
  | _ => True

/-- Names differ where no constant differs from itself. -/
theorem Stage.OutputsApart.hasDistinctFields {s : Stage} (h : s.OutputsApart constants)
    (reflexive : ∀ v, constants v → v.same v = true) : s.HasDistinctFields := by
  cases s with
  | group id accumulators =>
    refine List.nodup_cons.mpr ⟨h.1, List.pairwise_map.mpr (h.2.imp ?_)⟩
    intro a b differ same
    obtain ⟨-, v, hv, -, hsame⟩ := differ same
    rw [reflexive v hv] at hsame
    cases hsame
  | _ => trivial

/-- A group may compute what is booked, in part or as a whole. -/
theorem Attachments.Booked.outputsApart {s : Attachments}
    (h : Booked ledger final constants s) {id : Term} {accumulators : List Accumulator}
    (sub : accumulators.Sublist s.found) :
    (Stage.group id accumulators).OutputsApart constants := by
  constructor
  · intro hkey
    obtain ⟨b, hb, named⟩ := List.mem_map.mp hkey
    obtain ⟨a, ⟨n, name, -⟩, rfl⟩ := h.listed b (sub.subset hb)
    exact accumulatorName_ne_keyField n (name.symm.trans named)
  · refine (h.apart.sublist sub).imp_of_mem ?_
    intro a b ha _ differ same
    obtain ⟨rfl, hsame⟩ := differ same
    obtain ⟨v, hv, hvsame⟩ := Term.hasConstant_of_not_same_self hsame
    exact ⟨rfl, v, h.constants a (sub.subset ha) v hv, hv, hvsame⟩

/-- Reducing the result adds a group with one output at most. -/
theorem Pipeline.outputsApart_reduceResult {p : Pipeline}
    (h : ∀ s ∈ p.stages, s.OutputsApart constants) :
    ∀ s ∈ p.reduceResult.stages, s.OutputsApart constants := by
  have paged : ∀ s ∈ p.flush.stages, s.OutputsApart constants := by
    intro s hs
    rcases List.mem_append.mp hs with hs | hs
    · exact h s hs
    · simp only [Bounds.stages, List.mem_append, Option.mem_toList,
        Option.map_eq_some_iff] at hs
      rcases hs with ⟨n, -, rfl⟩ | ⟨n, -, rfl⟩
      · trivial
      · trivial
  rcases reduceResult_cases p with ⟨kept, -⟩ | ⟨a, codec, houtput, hstages, -⟩
  · rwa [kept]
  · rw [hstages]
    intro s hs
    rcases List.mem_append.mp hs with hs | hs
    · exact paged s hs
    · obtain rfl := List.mem_singleton.mp hs
      refine ⟨?_, List.pairwise_singleton _ _⟩
      rw [List.map_singleton, houtput]
      decide

/-! ### Queries -/

/-- **What a group computes has a name of its own.** In a query that is bound and resolved, no
accumulator of a group has the name of the key, and no two accumulators have one name unless
they are one accumulator, which is listed again where a constant in its source differs from
itself. So nothing is overwritten by anything else; and where each constant agrees with itself,
the fields of every group have distinct names. -/
theorem Query.outputs_apart {registry : Registry} {q : Query} {p r : Pipeline} {c : Context}
    (bound : (q.bind registry).Yields {} p c) (resolved : p.resolveGroups c.minted = .ok r)
    (wellFormed : ∀ v, p.HasConstant v → v.WellFormed) :
    (∀ s ∈ r.stages, s.OutputsApart p.HasConstant) ∧
      ((∀ v, p.HasConstant v → v.same v = true) → ∀ s ∈ r.stages, s.HasDistinctFields) := by
  suffices apart : ∀ s ∈ r.stages, s.OutputsApart p.HasConstant from
    ⟨apart, fun reflexive s hs => (apart s hs).hasDistinctFields reflexive⟩
  obtain ⟨spelled, attached, hspelled, hattached, rfl⟩ :=
    Pipeline.phases_of_resolveGroups resolved
  obtain ⟨ledger, minted, entered⟩ := Query.bind_entered bound
  obtain ⟨ledger', entered'⟩ :=
    Pipeline.entered_of_spellOutGroups entered (minted ▸ hspelled)
  obtain ⟨found, stages, booked, listed, related⟩ := Pipeline.booked_of_eq_ok hattached entered'
    wellFormed fun v hv => hv.of_spelledOut hspelled
  have bare : ∀ s ∈ spelled.stages, s.isBare = true :=
    (Pipeline.spelledOut_of_eq_ok hspelled).stages ▸ (Query.bind_bound bound).stages
  refine Pipeline.outputsApart_reduceResult ?_
  intro s hs
  cases s with
  | group id accumulators =>
    obtain ⟨i, hi⟩ := List.getElem?_of_mem hs
    obtain rfl := accumulators_of_getElem? bare related (listed ▸ hi)
    exact booked.outputsApart List.filter_sublist
  | _ => trivial

/-! ### Counts that share a field, and a maximum that is listed twice -/

/-- How many inhabitants the cities have, twice as many, and the age of the oldest one. -/
def cityNumbers : Query where
  collection := "people"
  itemType := .document "Person"
  clauses := [
    ⟨"Queryable", "GroupBy", [], [.lambda ["x"] (.member (.param "x") "City")]⟩,
    ⟨"Queryable", "Select", [], [.lambda ["g"] (.new [
      ("N", .call (.param "g") ⟨"Enumerable", "Count", [], []⟩),
      ("Twice", .binary .add (.call (.param "g") ⟨"Enumerable", "Count", [], []⟩)
        (.call (.param "g") ⟨"Enumerable", "Count", [], []⟩)),
      ("Oldest", .call (.param "g")
        ⟨"Enumerable", "Max", [], [.lambda ["z"] (.member (.param "z") "Age")]⟩)])]⟩]

/-- As it is bound, each call has an accumulator. -/
def cityNumbersBound : Pipeline where
  stages := [.group (.field (.field "city") .string) []]
  projector := .document [
    ("N", .accumulator 0 .count (.int32 1) "__agg0" .int32),
    ("Twice", .binary .add (.accumulator 0 .count (.int32 1) "__agg1" .int32)
      (.accumulator 0 .count (.int32 1) "__agg2" .int32)),
    ("Oldest", .accumulator 0 .max (.field (.field "age") .int32) "__agg3" .int32)]

/-- As it is resolved, the inhabitants are counted once. -/
def cityNumbersResolved : Pipeline where
  stages := [.group (.field (.field "city") .string) [
    ⟨0, .count, .int32 1, "__agg0", .int32⟩,
    ⟨0, .max, .field (.field "age") .int32, "__agg3", .int32⟩]]
  projector := .document [
    ("N", .field (.field "__agg0") .int32),
    ("Twice", .binary .add (.field (.field "__agg0") .int32) (.field (.field "__agg0") .int32)),
    ("Oldest", .field (.field "__agg3") .int32)]

theorem cityNumbers_apart :
    (cityNumbers.bind inhabitants).Yields {} cityNumbersBound ⟨{}, 4⟩ ∧
      cityNumbersBound.resolveGroups 4 = .ok cityNumbersResolved ∧
      (∀ v, cityNumbersBound.HasConstant v → v = .int32 1) ∧
      (∀ s ∈ cityNumbersResolved.stages, s.OutputsApart cityNumbersBound.HasConstant) ∧
      ∀ s ∈ cityNumbersResolved.stages, s.HasDistinctFields := by
  have bound : (cityNumbers.bind inhabitants).Yields {} cityNumbersBound ⟨{}, 4⟩ := rfl
  have resolved : cityNumbersBound.resolveGroups 4 = .ok cityNumbersResolved := rfl
  have constants : ∀ v, cityNumbersBound.HasConstant v → v = .int32 1 := by
    rintro v ⟨i, t, ht, codec, hmem⟩
    cases ht with
    | stage hs ht =>
      obtain rfl := List.mem_singleton.mp (List.mem_of_getElem? hs)
      obtain rfl := List.mem_singleton.mp ht
      cases List.mem_singleton.mp hmem
    | projector =>
      simp [cityNumbersBound, Term.subterms, Term.fieldSubterms, Term.int32] at hmem
      exact hmem.1
    | result hr => cases hr
  have wellFormed : ∀ v, cityNumbersBound.HasConstant v → v.WellFormed := by
    intro v hv
    rw [constants v hv]
    exact .intro List.nodup_nil fun w hw => absurd hw List.not_mem_nil
  obtain ⟨apart, distinct⟩ := Query.outputs_apart bound resolved wellFormed
  refine ⟨bound, resolved, constants, apart, distinct ?_⟩
  intro v hv
  rw [constants v hv]
  rfl

/-- The greatest of the numbers that are none in each city, read twice. -/
def undefinedMaxima : Query where
  collection := "people"
  itemType := .document "Person"
  clauses := [
    ⟨"Queryable", "GroupBy", [], [.lambda ["x"] (.member (.param "x") "City")]⟩,
    ⟨"Queryable", "Select", [], [.lambda ["g"] (.call (.param "g") ⟨"Enumerable", "Max", [],
      [.lambda ["z"] (.const (.double ⟨0x7FF8000000000000⟩) .double)]⟩)]⟩,
    ⟨"Queryable", "Select", [], [.lambda ["y"] (.new
      [("A", .param "y"), ("B", .param "y")])]⟩]

/-- The accumulator of their maximum. -/
def undefinedMaximum : Accumulator :=
  ⟨0, .max, .const (.double ⟨0x7FF8000000000000⟩) .double, "__agg0", .double⟩

/-- As it is bound, one accumulator stands in two places. -/
def undefinedMaximaBound : Pipeline where
  stages := [.group (.field (.field "city") .string) []]
  projector := .document [("A", undefinedMaximum.term), ("B", undefinedMaximum.term)]

/-- As it is resolved, the group lists it for each of them. -/
def undefinedMaximaResolved : Pipeline where
  stages := [.group (.field (.field "city") .string) [undefinedMaximum, undefinedMaximum]]
  projector := .document [
    ("A", .field (.field "__agg0") .double), ("B", .field (.field "__agg0") .double)]

/-- What differs from itself is not found again, so a group lists two fields of one name. -/
theorem undefinedMaxima_listed_twice :
    (undefinedMaxima.bind inhabitants).Yields {} undefinedMaximaBound ⟨{}, 1⟩ ∧
      undefinedMaximaBound.resolveGroups 1 = .ok undefinedMaximaResolved ∧
      ¬ ∀ s ∈ undefinedMaximaResolved.stages, s.HasDistinctFields := by
  refine ⟨rfl, rfl, ?_⟩
  simp [undefinedMaximaResolved, Stage.HasDistinctFields]

end QueryPipeline
