import QueryPipeline.Proofs.Binding.Rows
import QueryPipeline.Proofs.Grouping.Collection
import QueryPipeline.Proofs.Grouping.Ungrouped

/-!
What the last group of a resolved pipeline computes. Accumulators in the source of another
one belong to earlier groups, so the last group computes what the projector reads as such,
whose fields stand in the projector, and what a result reads that is the row itself. The
result is spelled out like the projector but for the names that its accumulators get, so
what it adds fails only where something that the projector reads does.
-/

namespace QueryPipeline

/-! ### Groups before a place -/

/-- The groups that may be read at a place come before this position. -/
def Place.bound : Place → Nat
  | .stage position => position
  | .source group | .elements group => group + 1

section Placed

variable {near : Nat → Option Nat} (earlier : ∀ i g, near i = some g → g < i)
include earlier

theorem Place.Sees.lt_bound {place : Place} {group : Nat} (h : place.Sees near group) :
    group < place.bound := by
  cases place with
  | stage position => exact earlier _ _ h
  | source outer | elements outer =>
    rcases h with rfl | h
    · exact Nat.lt_succ_self _
    · exact Nat.lt_succ_of_lt (earlier _ _ h)

namespace Term

/-- What lies below a placed term is placed, and reads no later groups. -/
theorem Placed.subterm {place : Place} {t u : Term} (h : Placed near place t)
    (hu : u ∈ t.subterms) : ∃ place', place'.bound ≤ place.bound ∧ Placed near place' u := by
  induction h with
  | @accumulator place group kind source output codec hsees hsource ih =>
    rcases mem_subterms_cases hu with rfl | ⟨v, hv, hbelow⟩
    · exact ⟨place, Nat.le_refl _, .accumulator hsees hsource⟩
    · obtain rfl := List.mem_singleton.mp hv
      obtain ⟨place', hle, hplaced⟩ := ih hbelow
      exact ⟨place', Nat.le_trans hle (hsees.lt_bound earlier), hplaced⟩
  | @grouping place group key element predicate distinct hholds hbare hkey helement
    hpredicate ihkey ihelement ihpredicate =>
    have inside : (Place.elements group).bound ≤ place.bound :=
      hholds.sees.lt_bound earlier
    rcases mem_subterms_cases hu with rfl | ⟨v, hv, hbelow⟩
    · exact ⟨place, Nat.le_refl _, .grouping hholds hbare hkey helement hpredicate⟩
    · simp only [children, List.cons_append, List.nil_append, List.mem_cons,
        Option.mem_toList] at hv
      rcases hv with rfl | rfl | hv
      · exact ihkey hbelow
      · obtain ⟨place', hle, hplaced⟩ := ihelement hbelow
        exact ⟨place', Nat.le_trans hle inside, hplaced⟩
      · obtain ⟨place', hle, hplaced⟩ := ihpredicate v hv hbelow
        exact ⟨place', Nat.le_trans hle inside, hplaced⟩
  | @plain place t plain hparts ih =>
    rcases mem_subterms_cases hu with rfl | ⟨v, hv, hbelow⟩
    · exact ⟨place, Nat.le_refl _, .plain plain hparts⟩
    · exact ih v hv hbelow

/-- The term reads an accumulator of the group. -/
def Names (t : Term) (group : Nat) : Prop :=
  ∃ a : Accumulator, a.term ∈ t.subterms ∧ a.group = group

theorem Placed.names_lt {place : Place} {t : Term} {group : Nat} (h : Placed near place t)
    (names : t.Names group) : group < place.bound := by
  obtain ⟨a, ha, rfl⟩ := names
  obtain ⟨place', hle, hplaced⟩ := h.subterm earlier ha
  exact Nat.lt_of_lt_of_le (hplaced.accumulator_sees.1.lt_bound earlier) hle

/-- An accumulator of the last group is not read in the source of another one. -/
theorem Found.shows {t u : Term} {b : Accumulator} {position : Nat} {groups : List Nat}
    (h : t.Found u b) (placed : Placed near (.stage position) t)
    (attachable : t.Attachable groups) (last : position ≤ b.group + 1) :
    ∃ source, source.Attached (fun _ => True) b.source ∧ t.Shows { b with source } ∧
      ∃ codec, .field (.field b.output) codec ∈ u.subterms := by
  obtain ⟨source, hsource, ⟨hshows, hfield⟩ | ⟨a, ha, hb⟩⟩ := h
  · exact ⟨source, hsource, hshows, hfield⟩
  · exfalso
    obtain ⟨place', hle, hplaced⟩ := placed.subterm earlier ha
    obtain ⟨hsees, hinner⟩ := hplaced.accumulator_sees
    have outer : a.group < position :=
      Nat.lt_of_lt_of_le (hsees.lt_bound earlier) hle
    have inner : b.group < a.group + 1 := hinner.names_lt earlier ⟨_, hb, rfl⟩
    have apart : b.group ≠ a.group := by
      intro same
      have free := (Accumulator.fault?_eq_none.mp (attachable a ha)).1
      rw [contains, List.any_eq_false] at free
      exact free _ hb (by simp [Accumulator.term, dependsOnGroup, same])
    omega

end Term

end Placed

/-! ### Attaching one term twice -/

theorem forall₂_common {α β γ : Type} {r : α → β → Prop} {r' : α → γ → Prop}
    {rel : β → γ → Prop} {as : List α} {bs : List β} {cs : List γ}
    (h : List.Forall₂ r as bs) (h' : List.Forall₂ r' as cs)
    (common : ∀ a ∈ as, ∀ b c, r a b → r' a c → rel b c) : List.Forall₂ rel bs cs := by
  induction h generalizing cs with
  | nil =>
    cases h'
    exact .nil
  | cons hab _ ih =>
    cases h' with
    | cons hac h' =>
      exact .cons (common _ List.mem_cons_self _ _ hab hac)
        (ih h' fun a ha => common a (List.mem_cons_of_mem _ ha))

namespace Term

variable {computes computes' : Accumulator → Prop} {t u v : Term} {a : Accumulator}

/-- However its accumulators become fields, a term fails or it does not. -/
theorem Attached.failsLike (h : t.Attached computes u) (h' : t.Attached computes' v) :
    u.FailsLike v := by
  induction h generalizing v with
  | accumulator =>
    cases h' with
    | accumulator => exact fun _ => rfl
    | other hother => cases hother
  | @other t parts hother hlength hparts ih =>
    cases h' with
    | accumulator => cases hother
    | @other _ parts' _ hlength' hparts' =>
      have fails : List.Forall₂ (fun w p => ∀ v, w.Attached computes' v → p.FailsLike v)
          t.children parts :=
        List.forall₂_iff_zip.mpr ⟨hlength.symm, fun hmem _ hv => ih _ hmem hv⟩
      have related := List.forall₂_iff_zip.mpr ⟨hlength'.symm, fun hmem => hparts' _ hmem⟩
      exact failsLike_withChildren hlength hlength'
        (forall₂_common fails related fun _ _ _ v h hv => h v hv)

/-- An accumulator that a term shows was attached to one of its group that has what becomes
of its source. -/
theorem Attached.of_shows (h : t.Attached computes u) (shows : t.Shows a) :
    ∃ b source, computes b ∧ b.group = a.group ∧ a.source.Attached computes source ∧
      (b.source = source ∨ b.source.same source) := by
  induction shows generalizing u with
  | self =>
    simp only [Accumulator.term] at h
    cases h with
    | accumulator hsource hb hgroup _ hsame => exact ⟨_, _, hb, hgroup, hsource, hsame⟩
    | other hother => cases hother
  | part hother hu _ ih =>
    cases h with
    | accumulator => cases hother
    | other _ hlength hparts =>
      have related := List.forall₂_iff_zip.mpr ⟨hlength.symm, fun hmem => hparts _ hmem⟩
      obtain ⟨v, -, hv⟩ := exists_of_mem_right related.flip hu
      exact ih hv

/-- A term that is no accumulator shows what its parts show. -/
theorem Shows.of_other (h : t.Shows a) (form : t.isAccumulator = false) :
    ∃ u ∈ t.children, u.Shows a := by
  cases h with
  | self => cases form
  | part _ hu h => exact ⟨_, hu, h⟩

/-! ### Spelling one term out twice -/

/-- The terms are the same but for the names of the accumulators that they show. -/
inductive Twin : Term → Term → Prop where
  | accumulator {group kind source output output' codec} :
      Twin (.accumulator group kind source output codec)
        (.accumulator group kind source output' codec)
  | other {t : Term} {ps qs : List Term} :
      t.isAccumulator = false → ps.length = t.children.length →
      qs.length = t.children.length → (∀ p ∈ ps.zip qs, Twin p.1 p.2) →
      Twin (t.withChildren ps) (t.withChildren qs)

theorem Twin.refl (t : Term) : t.Twin t := by
  induction t using inductionOn with
  | step t ih =>
    cases form : t.isAccumulator with
    | true =>
      cases t with
      | accumulator => exact .accumulator
      | _ => cases form
    | false =>
      have parts := List.forall₂_same.mpr ih
      have twin := Twin.other form rfl rfl fun _ hp => (List.forall₂_iff_zip.mp parts).2 hp
      rwa [withChildren_children] at twin

/-- What one of two twins shows, the other one shows under another name. -/
theorem Twin.shows (h : t.Twin u) (shows : u.Shows a) :
    ∃ output, t.Shows { a with output } := by
  induction h with
  | @accumulator _ _ _ output =>
    cases a
    cases shows with
    | self => exact ⟨output, .self⟩
    | part form => cases form
  | @other t ps qs form hps hqs _ ih =>
    have hform (parts : List Term) : (t.withChildren parts).isAccumulator = false :=
      withChildren_form.2.trans form
    obtain ⟨v, hv, shows⟩ := shows.of_other (hform qs)
    rw [children_withChildren hqs] at hv
    have related : List.Forall₂
        (fun u v => v.Shows a → ∃ output, u.Shows { a with output }) ps qs :=
      List.forall₂_iff_zip.mpr ⟨hps.trans hqs.symm, fun hmem => ih _ hmem⟩
    obtain ⟨u, hu, inherits⟩ := exists_of_mem_right related hv
    obtain ⟨output, hshows⟩ := inherits shows
    exact ⟨output, .part (hform ps) (by rwa [children_withChildren hps]) hshows⟩

/-- Records of one key have twins as elements. -/
theorem twin_record {key elements elements' : Term} (h : elements.Twin elements') :
    (document [("Key", key), ("Elements", elements)]).Twin
      (document [("Key", key), ("Elements", elements')]) := by
  have parts : ∀ p ∈ [key, elements].zip [key, elements'], Twin p.1 p.2 := by
    simp [Twin.refl, h]
  exact @Twin.other (document [("Key", key), ("Elements", elements)]) [key, elements]
    [key, elements'] rfl rfl rfl parts

/-- Going through a list of terms twice gives twins if each step does. -/
theorem twins_mapM {f : Term → StateM GroupNaming Term} {ts : List Term}
    (h : ∀ t ∈ ts, ∀ s s', ((f t).run s).1.Twin ((f t).run s').1) (s s' : GroupNaming) :
    ((ts.mapM f).run s).1.length = ts.length ∧
      List.Forall₂ Twin ((ts.mapM f).run s).1 ((ts.mapM f).run s').1 := by
  induction ts generalizing s s' with
  | nil => exact ⟨rfl, .nil⟩
  | cons t ts ih =>
    obtain ⟨hlength, htwins⟩ := ih (fun u hu => h u (List.mem_cons_of_mem _ hu))
      ((f t).run s).2 ((f t).run s').2
    simp only [List.mapM_cons, StateT.run_bind]
    exact ⟨congrArg (· + 1) hlength, .cons (h t List.mem_cons_self s s') htwins⟩

/-- Spelling out a term twice gives twins, whatever names are given. -/
theorem twin_spelledOut (t : Term) (s s' : GroupNaming) :
    ((t.transformM groupsToRecords).run s).1.Twin
      ((t.transformM groupsToRecords).run s').1 := by
  induction t using inductionOn generalizing s s' with
  | step t ih =>
    cases plain : t.isPlain with
    | true =>
      have form : t.isAccumulator = false := by
        cases t with
        | accumulator => cases plain
        | _ => rfl
      have spelled : t.transformM groupsToRecords = do
          let parts ← t.children.mapM (transformM groupsToRecords)
          return t.withChildren parts := by
        rw [transformM_eq, groupsToRecords_idle.enter plain, pure_bind]
        rfl
      obtain ⟨hlength, htwins⟩ := twins_mapM ih s s'
      rw [spelled]
      exact .other form hlength (htwins.length_eq.symm.trans hlength) fun _ hp =>
        (List.forall₂_iff_zip.mp htwins).2 hp
    | false =>
      rw [transformM_eq]
      cases t with
      | accumulator => exact .accumulator
      | grouping group key element predicate distinct =>
        cases predicate with
        | some predicate => exact .refl _
        | none =>
          exact twin_record .accumulator
      | _ => cases plain

end Term

/-! ### The last group -/

namespace Pipeline

variable {p spelled attached : Pipeline} {next : Nat}

/-- A result that is the row is spelled out as its twin. -/
theorem twin_of_spellOutGroups (h : p.spellOutGroups next = .ok spelled)
    (picked : ∀ r ∈ p.result, r.source = p.projector) :
    ∀ r ∈ spelled.result, spelled.projector.Twin r.source := by
  rw [spellOutGroups_eq] at h
  extract_lets projector result at h
  split at h
  · cases h
  · cases h
    obtain ⟨stages, term, _ | r, paging, sortOpen⟩ := p
    · nofun
    · intro r' hr
      obtain rfl := Option.some.inj hr
      obtain rfl : r.source = term := picked r rfl
      exact Term.twin_spelledOut r.source _ _

end Pipeline

/-- A group stage computes what was found for it, if it computed nothing when it was bound. -/
theorem accumulators_of_getElem? {rel : Term → Term → Prop} {stages stages' : List Stage}
    {i : Nat} {id : Term} {found accumulators : List Accumulator}
    (bare : ∀ s ∈ stages, s.isBare = true)
    (related : List.Forall₂ (Stage.Related rel fun _ => False) stages stages')
    (hget : (withAccumulators stages' found)[i]? = some (.group id accumulators)) :
    accumulators = found.filter (·.group == i) := by
  have hlt' : i < stages'.length := by
    simpa [withAccumulators] using (List.getElem?_eq_some_iff.mp hget).1
  have hlt : i < stages.length := related.length_eq ▸ hlt'
  have hstage := related.get hlt hlt'
  have hbare := bare _ (List.getElem_mem hlt)
  simp only [withAccumulators, List.getElem?_map, List.getElem?_zipIdx,
    List.getElem?_eq_getElem hlt', Option.map_some, Option.some.injEq] at hget
  revert hget hstage hbare
  simp only [List.get_eq_getElem]
  generalize stages[i] = s
  generalize stages'[i] = s'
  intro hstage hbare hget
  cases hstage with
  | @group _ _ computed _ more _ hcomputed hmore =>
    obtain rfl : computed = [] := List.isEmpty_iff.mp hbare
    obtain rfl := List.forall₂_nil_left_iff.mp hcomputed
    obtain rfl : more = [] := List.eq_nil_iff_forall_not_mem.mpr hmore
    simpa using (Stage.group.inj hget).2.symm
  | _ => cases hget

/-- So does one at the end. -/
theorem accumulators_of_last {rel : Term → Term → Prop} {stages stages' before : List Stage}
    {id : Term} {found accumulators : List Accumulator}
    (bare : ∀ s ∈ stages, s.isBare = true)
    (related : List.Forall₂ (Stage.Related rel fun _ => False) stages stages')
    (last : withAccumulators stages' found = before ++ [.group id accumulators]) :
    stages.length = before.length + 1 ∧
      accumulators = found.filter (·.group == before.length) := by
  have hlength : stages.length = before.length + 1 := by
    simpa [withAccumulators, related.length_eq] using congrArg List.length last
  have hget : (withAccumulators stages' found)[before.length]? =
      some (.group id accumulators) := by
    simp [last]
  exact ⟨hlength, accumulators_of_getElem? bare related hget⟩

/-- The accumulators come in two parts: the fields of the first ones stand in the term, and
each of the others fails where one of those does. -/
def Term.CoversFailures (t : Term) (accumulators : List Accumulator) : Prop :=
  ∃ shown hidden, accumulators = shown ++ hidden ∧
    (∀ b ∈ shown, ∃ codec, .field (.field b.output) codec ∈ t.subterms) ∧
    ∀ b ∈ hidden, ∃ b' ∈ shown, b'.source.FailsLike b.source

namespace Pipeline

theorem earlier_nearestGroup {stages : List Stage} (i g : Nat)
    (h : nearestGroup stages i = some g) : g < i :=
  (nearestGroup_eq_some_iff.mp h).1

section Findings

variable {p spelled attached : Pipeline} {ofStages ofProjector ofResult : List Accumulator}
  (findings : spelled.Findings attached ofStages ofProjector ofResult)
  (spelledOut : p.SpelledOut spelled) (placed : p.Placed)
include findings spelledOut placed

/-- The terms that accumulators are attached to are placed still, and could be attached. -/
theorem Findings.of_hasTerm {i : Nat} {t : Term} (ht : spelled.HasTerm i t) :
    t.Placed (nearestGroup p.stages) (.stage i) ∧
      t.Attachable (groupPositions spelled.stages) := by
  obtain ⟨u, -, hu⟩ := findings.collected.related.hasTerm ht
  exact ⟨(spelledOut.of_hasTerm placed ht).1, hu.2⟩

/-- No stage reads an accumulator of the last one. -/
theorem Findings.staged_lt {b : Accumulator} (hb : b ∈ ofStages) :
    b.group + 1 < spelled.stages.length := by
  obtain ⟨s, hs, t, ht, u, hfound⟩ := findings.stages b hb
  obtain ⟨source, -, hmem⟩ := hfound.origin
  obtain ⟨i, hi⟩ := List.getElem?_of_mem hs
  have hlt := (List.getElem?_eq_some_iff.mp hi).1
  have hplaced := (findings.of_hasTerm spelledOut placed (.stage hi ht)).1
  have hgroup : b.group < i := hplaced.names_lt earlier_nearestGroup ⟨_, hmem, rfl⟩
  omega

/-- The projector reads what was found in it of the last group. -/
theorem Findings.projector_reads {b : Accumulator} (hb : b ∈ ofProjector)
    (last : spelled.stages.length ≤ b.group + 1) :
    ∃ codec, .field (.field b.output) codec ∈ attached.projector.subterms := by
  obtain ⟨hplaced, hattachable⟩ := findings.of_hasTerm spelledOut placed .projector
  obtain ⟨-, -, -, hfield⟩ :=
    (findings.projector b hb).shows earlier_nearestGroup hplaced hattachable last
  exact hfield

/-- What only the result reads of the last group fails where something does that was found in
the projector, if the two are twins. -/
theorem Findings.result_fails (twin : ∀ r ∈ spelled.result, spelled.projector.Twin r.source)
    {b : Accumulator} (hb : b ∈ ofResult) (last : spelled.stages.length ≤ b.group + 1) :
    ∃ b' ∈ ofProjector, b'.group = b.group ∧ b'.source.FailsLike b.source := by
  obtain ⟨r, hr, u, hfound⟩ := findings.result b hb
  obtain ⟨hplaced, hattachable⟩ := findings.of_hasTerm spelledOut placed (.result hr)
  obtain ⟨source, hsource, hshows, -⟩ :=
    hfound.shows earlier_nearestGroup hplaced hattachable last
  obtain ⟨output, hshows⟩ := (twin r hr).shows hshows
  obtain ⟨b', source', hb', hgroup, hsource', hsame⟩ := findings.attached.of_shows hshows
  have hgroup : b'.group = b.group := hgroup
  have shown : b' ∈ ofProjector := by
    rcases List.mem_append.mp hb' with hb' | hb'
    · have hlt := findings.staged_lt spelledOut placed hb'
      omega
    · exact hb'
  have alike : b'.source.FailsLike source' := by
    rcases hsame with rfl | hsame
    · exact fun _ => rfl
    · exact Term.failsLike_of_same hsame
  refine ⟨b', shown, hgroup, ?_⟩
  intro scope
  exact (alike scope).trans (hsource'.failsLike hsource scope)

end Findings

/-- **What the last group computes** is read by the projector, or fails only where something
before it does that is. -/
theorem covers_last_group {p spelled attached : Pipeline} {next : Nat} {before : List Stage}
    {id : Term} {accumulators : List Accumulator}
    (placed : p.Placed) (bound : p.Bound) (picked : ∀ r ∈ p.result, r.source = p.projector)
    (hspelled : p.spellOutGroups next = .ok spelled)
    (hattached : spelled.collectAccumulators = .ok attached)
    (last : attached.stages = before ++ [.group id accumulators]) :
    attached.projector.CoversFailures accumulators := by
  have spelledOut := spelledOut_of_eq_ok hspelled
  have twin := twin_of_spellOutGroups hspelled picked
  obtain ⟨ofStages, ofProjector, ofResult, findings⟩ := findings_of_eq_ok hattached
  obtain ⟨stages, listed, related⟩ := findings.listed
  have bare : ∀ s ∈ spelled.stages, s.isBare = true := spelledOut.stages ▸ bound.stages
  obtain ⟨hlength, rfl⟩ := accumulators_of_last bare related (listed ▸ last)
  have none_staged : ofStages.filter (·.group == before.length) = [] := by
    rw [List.filter_eq_nil_iff]
    intro b hb hgroup
    have hlt := findings.staged_lt spelledOut placed hb
    rw [beq_iff_eq] at hgroup
    omega
  refine ⟨ofProjector.filter (·.group == before.length),
    ofResult.filter (·.group == before.length), ?_, ?_, ?_⟩
  · rw [List.filter_append, List.filter_append, none_staged, List.nil_append]
  · intro b hb
    obtain ⟨hb, hgroup⟩ := List.mem_filter.mp hb
    rw [beq_iff_eq] at hgroup
    exact findings.projector_reads spelledOut placed hb (by omega)
  · intro b hb
    obtain ⟨hb, hgroup⟩ := List.mem_filter.mp hb
    rw [beq_iff_eq] at hgroup
    obtain ⟨b', hb', hgroup', alike⟩ :=
      findings.result_fails spelledOut placed twin hb (by omega)
    exact ⟨b', List.mem_filter.mpr ⟨hb', beq_iff_eq.mpr (hgroup'.trans hgroup)⟩, alike⟩

end Pipeline

end QueryPipeline
