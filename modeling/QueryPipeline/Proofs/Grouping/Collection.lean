import QueryPipeline.Proofs.Emission.Failure
import QueryPipeline.Proofs.Grouping.Resolution

/-!
What attaching finds. Accumulators are only ever added behind those that were found before,
so a pass that does not fail leaves them in three runs: those found in the stages, those
found in the projector and those found in the result. An accumulator that was found either
has its field where the term read it, or it was read in the source of another one, which
belongs to a later group.
-/

namespace QueryPipeline

open Attachments

variable {groups : List Nat}

/-! ### Steps that find accumulators -/

section Steps

variable {α β : Type}

/-- A step that does not fail adds accumulators behind those found before, and they have a
property together with its value. -/
def Finds (groups : List Nat) (step : StateM Attachments α)
    (post : α → List Accumulator → Prop) : Prop :=
  ∀ s, (step.run s).2.fault = none → Computable groups s →
    Computable groups (step.run s).2 ∧
      ∃ more, (step.run s).2.found = s.found ++ more ∧ post (step.run s).1 more

theorem finds_pure {a : α} {post : α → List Accumulator → Prop} (h : post a []) :
    Finds groups (pure a) post :=
  fun _ _ hs => ⟨hs, [], (List.append_nil _).symm, h⟩

theorem finds_imp {step : StateM Attachments α} {post post' : α → List Accumulator → Prop}
    (h : Finds groups step post) (imp : ∀ a more, post a more → post' a more) :
    Finds groups step post' := by
  intro s hend hs
  obtain ⟨hs, more, hmore, hpost⟩ := h s hend hs
  exact ⟨hs, more, hmore, imp _ _ hpost⟩

theorem finds_bind {step : StateM Attachments α} {next : α → StateM Attachments β}
    {post : α → List Accumulator → Prop} {post' : β → List Accumulator → Prop}
    (h : Finds groups step post)
    (reflects : ∀ a, Reflects (fun s => s.fault = none) (next a))
    (hnext : ∀ a more, post a more →
      Finds groups (next a) fun b more' => post' b (more ++ more')) :
    Finds groups (step >>= next) post' := by
  intro s hend hs
  obtain ⟨hs, more, hmore, hpost⟩ := h s (reflects _ _ hend) hs
  obtain ⟨hs, more', hmore', hpost'⟩ := hnext _ _ hpost _ hend hs
  refine ⟨hs, more ++ more', ?_, hpost'⟩
  rw [← List.append_assoc, ← hmore]
  exact hmore'

/-- What a list of steps finds was found by one of them. -/
theorem finds_mapM {f : α → StateM Attachments β} {new : α → β → Accumulator → Prop}
    {as : List α} (reflects : ∀ a ∈ as, Reflects (fun s => s.fault = none) (f a))
    (h : ∀ a ∈ as, Finds groups (f a) fun b more => ∀ x ∈ more, new a b x) :
    Finds groups (as.mapM f) fun bs more =>
      bs.length = as.length ∧ ∀ x ∈ more, ∃ p ∈ as.zip bs, new p.1 p.2 x := by
  induction as with
  | nil => exact finds_pure ⟨rfl, nofun⟩
  | cons a as ih =>
    have rest : ∀ a' ∈ as, Reflects (fun s => s.fault = none) (f a') := fun a' ha' =>
      reflects a' (List.mem_cons_of_mem _ ha')
    rw [List.mapM_cons]
    refine finds_bind (h a List.mem_cons_self) ?_ ?_
    · intro b
      exact reflects_bind (reflects_mapM rest) fun _ => reflects_pure
    · intro b more hmore
      refine finds_bind (ih rest fun a' ha' => h a' (List.mem_cons_of_mem _ ha'))
        (fun _ => reflects_pure) ?_
      rintro bs more' ⟨hlength, hmore'⟩
      refine finds_pure ⟨by simp [hlength], ?_⟩
      intro x hx
      rw [List.append_nil] at hx
      rcases List.mem_append.mp hx with hx | hx
      · exact ⟨(a, b), List.mem_cons_self, hmore x hx⟩
      · obtain ⟨p, hp, hnew⟩ := hmore' x hx
        exact ⟨p, List.mem_cons_of_mem _ hp, hnew⟩

/-- A step finds only accumulators with a property. -/
def FindsOnly (groups : List Nat) (step : StateM Attachments α) (new : Accumulator → Prop) :
    Prop :=
  Finds groups step fun _ more => ∀ x ∈ more, new x

variable {new : Accumulator → Prop}

theorem findsOnly_pure {a : α} : FindsOnly groups (pure a) new :=
  finds_pure nofun

theorem findsOnly_bind {step : StateM Attachments α} {next : α → StateM Attachments β}
    (h : FindsOnly groups step new)
    (reflects : ∀ a, Reflects (fun s => s.fault = none) (next a))
    (hnext : ∀ a, FindsOnly groups (next a) new) : FindsOnly groups (step >>= next) new := by
  refine finds_bind h reflects ?_
  intro a more hmore
  refine finds_imp (hnext a) ?_
  intro b more' hmore' x hx
  rcases List.mem_append.mp hx with hx | hx
  · exact hmore x hx
  · exact hmore' x hx

/-- What is made of the value in the end finds nothing. -/
theorem findsOnly_return {step : StateM Attachments α} {f : α → β}
    (h : FindsOnly groups step new) : FindsOnly groups (do return f (← step)) new :=
  findsOnly_bind h (fun _ => reflects_pure) fun _ => findsOnly_pure

theorem findsOnly_mapM {f : α → StateM Attachments β} {as : List α}
    (reflects : ∀ a ∈ as, Reflects (fun s => s.fault = none) (f a))
    (h : ∀ a ∈ as, FindsOnly groups (f a) new) : FindsOnly groups (as.mapM f) new := by
  have found : Finds groups (as.mapM f) fun bs more =>
      bs.length = as.length ∧ ∀ x ∈ more, ∃ p ∈ as.zip bs, new x := finds_mapM reflects h
  refine finds_imp found ?_
  rintro bs more ⟨-, hmore⟩ x hx
  obtain ⟨-, -, hnew⟩ := hmore x hx
  exact hnew

end Steps

/-! ### Terms -/

namespace Term

/-- The term reads the accumulator where it stands itself, and not in the source of another
one. -/
inductive Shows (a : Accumulator) : Term → Prop where
  | self : Shows a a.term
  | part {t u} : t.isAccumulator = false → u ∈ t.children → Shows a u → Shows a t

variable {t u : Term} {a b : Accumulator}

theorem Shows.mem_subterms (h : t.Shows a) : a.term ∈ t.subterms := by
  induction h with
  | self => exact mem_subterms_self _
  | part _ hu _ ih => exact mem_subterms_of_child hu ih

/-- The accumulator was found where a term became another one: it was read in the term,
with a source that has become its own, and its field stands there now; or it was read in the
source of another accumulator. -/
def Found (t u : Term) (b : Accumulator) : Prop :=
  ∃ source, source.Attached (fun _ => True) b.source ∧
    (t.Shows { b with source } ∧
        (∃ codec, .field (.field b.output) codec ∈ u.subterms) ∨
      ∃ a : Accumulator, a.term ∈ t.subterms ∧
        Accumulator.term { b with source } ∈ a.source.subterms)

/-- The accumulator that was found is that of a term below, up to what has become of its
source. -/
theorem Found.origin (h : t.Found u b) :
    ∃ source, source.Attached (fun _ => True) b.source ∧
      Accumulator.term { b with source } ∈ t.subterms := by
  obtain ⟨source, hsource, ⟨hshows, -⟩ | ⟨a, ha, hb⟩⟩ := h
  · exact ⟨source, hsource, hshows.mem_subterms⟩
  · refine ⟨source, hsource, mem_subterms_trans ha ?_⟩
    exact mem_subterms_of_child (by simp [Accumulator.term, children]) hb

/-- What is found below a part of a term is found below the term. -/
theorem Found.of_part {parts : List Term} (other : t.isAccumulator = false)
    (hlength : parts.length = t.children.length) {p : Term × Term}
    (hp : p ∈ t.children.zip parts) (h : p.1.Found p.2 b) :
    t.Found (t.withChildren parts) b := by
  obtain ⟨hchild, hpart⟩ := List.of_mem_zip hp
  obtain ⟨source, hsource, ⟨hshows, codec, hfield⟩ | ⟨a, ha, hb⟩⟩ := h
  · refine ⟨source, hsource, .inl ⟨.part other hchild hshows, codec, ?_⟩⟩
    refine mem_subterms_of_child ?_ hfield
    rwa [children_withChildren hlength]
  · exact ⟨source, hsource, .inr ⟨a, mem_subterms_of_child hchild ha, hb⟩⟩

/-- What is found in the source of an accumulator stands in its source. -/
theorem Found.of_source {w : Term} (h : a.source.Found u b) : a.term.Found w b := by
  have below : a.source ∈ a.term.children := by simp [Accumulator.term, children]
  obtain ⟨source, hsource, ⟨hshows, -⟩ | ⟨a', ha', hb⟩⟩ := h
  · exact ⟨source, hsource, .inr ⟨a, mem_subterms_self _, hshows.mem_subterms⟩⟩
  · exact ⟨source, hsource, .inr ⟨a', mem_subterms_of_child below ha', hb⟩⟩

end Term

/-! ### Attaching -/

/-- What has not failed in the end had not failed before, whatever is found. -/
theorem reflects_unfailing {α : Type} {step : StateM Attachments α}
    (h : ∀ final, Reflects (Within final) step) : Reflects (fun s => s.fault = none) step :=
  fun s hend => (h _ s ⟨hend, fun _ hb => hb⟩).1

theorem reflects_attaching (t : Term) :
    Reflects (fun s => s.fault = none) (t.transformM (accumulatorsToFields groups)) :=
  reflects_unfailing fun final => (accumulatorsToFields_sound groups final).reflects t

theorem transformM_of_not_accumulator {t : Term} (h : t.isAccumulator = false) :
    t.transformM (accumulatorsToFields groups) = do
      let parts ← t.children.mapM (Term.transformM (accumulatorsToFields groups))
      return t.withChildren parts := by
  have enter : (accumulatorsToFields groups).enter t = pure none := by
    cases t with
    | accumulator => cases h
    | _ => rfl
  rw [Term.transformM_eq, enter, pure_bind]
  refine bind_congr ?_
  intro parts
  exact leave_of_not_accumulator (Term.withChildren_form.2.trans h)

/-- An accumulator that can be attached becomes its field once its source is attached. -/
theorem transformM_accumulator {a : Accumulator} (h : a.fault? groups = none) :
    a.term.transformM (accumulatorsToFields groups) = (do
      let source ← a.source.transformM (accumulatorsToFields groups)
      computedField { a with source }) := by
  have enter : (accumulatorsToFields groups).enter a.term = pure none := by
    simp only [accumulatorsToFields, Accumulator.term]
    rw [h]
  rw [Term.transformM_eq, enter, pure_bind]
  simp [Accumulator.term, Term.children, Term.withChildren, accumulatorsToFields]

/-- One that cannot be attached makes the pass fail. -/
theorem fault_of_fault? {a : Accumulator} {fault : AccumulationError}
    (h : a.fault? groups = some fault) (s : Attachments) :
    ((a.term.transformM (accumulatorsToFields groups)).run s).2.fault = some fault := by
  rw [Term.transformM_eq]
  simp only [accumulatorsToFields, Accumulator.term]
  rw [h]
  rfl

/-- Looking up the field of an accumulator adds at most the accumulator. -/
theorem finds_computedField {a : Accumulator} (hgroup : a.group ∈ groups)
    (hsource : a.source.contains Term.isAccumulator = false) :
    Finds groups (computedField a) fun u more =>
      more = [] ∨ more = [a] ∧ u = .field (.field a.output) a.codec := by
  intro s hend hs
  have within : Within ((computedField a).run s).2.found ((computedField a).run s).2 :=
    ⟨hend, fun _ h => h⟩
  have ensures := ensures_computedField hgroup hsource s within hs
  refine ⟨ensures.1, ?_⟩
  rw [computedField_run]
  split
  · exact ⟨[], (List.append_nil _).symm, .inl rfl⟩
  · exact ⟨[a], rfl, .inr ⟨rfl, rfl⟩⟩

/-- An accumulator finds what its source finds, and itself where its field is not that of
another one. -/
theorem finds_accumulator {a : Accumulator}
    (source : Finds groups (a.source.transformM (accumulatorsToFields groups)) fun u more =>
      a.source.Attached (fun _ => True) u ∧ ∀ b ∈ more, a.source.Found u b) :
    Finds groups (a.term.transformM (accumulatorsToFields groups)) fun u more =>
      ∀ b ∈ more, a.term.Found u b := by
  cases hfault : a.fault? groups with
  | some fault =>
    intro s hend
    rw [fault_of_fault? hfault] at hend
    cases hend
  | none =>
    have hgroup := (Accumulator.fault?_eq_none.mp hfault).2
    rw [transformM_accumulator hfault]
    refine finds_bind source ?_ ?_
    · intro source'
      exact reflects_unfailing fun final => reflects_computedField _
    · rintro source' more ⟨hattached, hmore⟩
      refine finds_imp (finds_computedField hgroup hattached.not_contains) ?_
      rintro u own hown b hb
      rcases List.mem_append.mp hb with hb | hb
      · exact (hmore b hb).of_source
      · rcases hown with rfl | ⟨rfl, rfl⟩
        · cases hb
        · obtain rfl := List.mem_singleton.mp hb
          exact ⟨a.source, hattached, .inl ⟨.self, a.codec, Term.mem_subterms_self _⟩⟩

/-- **What attaching finds in a term** is what the term reads, and what is not read in the
source of another accumulator has its field there. -/
theorem finds_attaching (t : Term) :
    Finds groups (t.transformM (accumulatorsToFields groups)) fun u more =>
      t.Attached (fun _ => True) u ∧ ∀ b ∈ more, t.Found u b := by
  induction t using Term.inductionOn with
  | step t ih =>
    intro s hend hs
    -- What becomes of the term is known without looking at what is found.
    have attached := ((accumulatorsToFields_sound groups _).ensures t s
      ⟨hend, fun _ h => h⟩ hs).2.1.mono fun _ _ => trivial
    suffices found : Finds groups (t.transformM (accumulatorsToFields groups))
        fun u more => ∀ b ∈ more, t.Found u b by
      obtain ⟨hs, more, hmore, hfound⟩ := found s hend hs
      exact ⟨hs, more, hmore, attached, hfound⟩
    cases form : t.isAccumulator with
    | true =>
      cases t with
      | accumulator group kind source output codec =>
        exact finds_accumulator (a := ⟨group, kind, source, output, codec⟩)
          (ih source (by simp [Term.children]))
      | _ => cases form
    | false =>
      rw [transformM_of_not_accumulator form]
      have parts : Finds groups
          (t.children.mapM (Term.transformM (accumulatorsToFields groups)))
          fun us more => us.length = t.children.length ∧
            ∀ b ∈ more, ∃ p ∈ t.children.zip us, p.1.Found p.2 b :=
        finds_mapM (fun u _ => reflects_attaching u) fun u hu =>
          finds_imp (ih u hu) fun _ _ h => h.2
      refine finds_bind parts (fun _ => reflects_pure) ?_
      rintro us more ⟨hlength, hmore⟩
      refine finds_pure ?_
      intro b hb
      rw [List.append_nil] at hb
      obtain ⟨p, hp, hfound⟩ := hmore b hb
      exact hfound.of_part form hlength hp

/-! ### Stages and results -/

theorem reflects_attachingStage (s : Stage) :
    Reflects (fun s => s.fault = none) (s.transformM (accumulatorsToFields groups)) :=
  s.reflects_transformM reflects_attaching

/-- What attaching finds in a stage is what its terms read. -/
theorem finds_attachingStage (s : Stage) :
    FindsOnly groups (s.transformM (accumulatorsToFields groups)) fun b =>
      ∃ t ∈ s.terms, ∃ u, t.Found u b := by
  have part {t : Term} (ht : t ∈ s.terms) :
      FindsOnly groups (t.transformM (accumulatorsToFields groups)) fun b =>
        ∃ t ∈ s.terms, ∃ u, t.Found u b :=
    finds_imp (finds_attaching t) fun u _ h b hb => ⟨t, ht, u, h.2 b hb⟩
  cases s with
  | filter t | project t => exact findsOnly_return (part (by simp [Stage.terms]))
  | group id accumulators =>
    have reflects (a : Accumulator) : Reflects (fun s => s.fault = none) (do
        return { a with source := ← a.source.transformM (accumulatorsToFields groups) }) :=
      reflects_bind (reflects_attaching a.source) fun _ => reflects_pure
    refine findsOnly_bind (part List.mem_cons_self) ?_ ?_
    · intro _
      exact reflects_bind (reflects_mapM fun a _ => reflects a) fun _ => reflects_pure
    · intro _
      refine findsOnly_return (findsOnly_mapM (fun a _ => reflects a) ?_)
      intro a ha
      exact findsOnly_return (part (List.mem_cons_of_mem _ (List.mem_map_of_mem ha)))
  | sort keys =>
    refine findsOnly_return (findsOnly_mapM ?_ ?_)
    · intro k _
      exact reflects_bind (reflects_attaching k.key) fun _ => reflects_pure
    · intro k hk
      exact findsOnly_return (part (List.mem_map_of_mem hk))
  | skip | limit | unwind => exact findsOnly_pure

theorem reflects_attachingTerminal (result : Option Terminal) :
    Reflects (fun s => s.fault = none)
      (Pipeline.transformTerminal (accumulatorsToFields groups) result) :=
  Pipeline.reflects_transformTerminal reflects_attaching result

/-- What attaching finds in a result is what its source reads. -/
theorem finds_attachingTerminal (result : Option Terminal) :
    FindsOnly groups (Pipeline.transformTerminal (accumulatorsToFields groups) result)
      fun b => ∃ r ∈ result, ∃ u, r.source.Found u b := by
  cases result with
  | none => exact findsOnly_pure
  | some r =>
    refine findsOnly_return ?_
    exact finds_imp (finds_attaching r.source) fun u _ h b hb => ⟨r, rfl, u, h.2 b hb⟩

/-! ### Pipelines -/

namespace Pipeline

/-- Collecting accumulators, phase by phase. -/
theorem collectAccumulators_eq (p : Pipeline) :
    p.collectAccumulators =
      let transform := accumulatorsToFields (groupPositions p.stages)
      let stages := (p.stages.mapM (Stage.transformM transform)).run {}
      let projector := (p.projector.transformM transform).run stages.2
      let result := (transformTerminal transform p.result).run projector.2
      match result.2.fault with
      | some fault => .error fault
      | none => .ok { p with
          stages := withAccumulators stages.1 result.2.found
          projector := projector.1
          result := result.1 } :=
  rfl

/-- What collecting finds: first the accumulators of the stages, then those of the projector
that no stage reads, and at last those that only the result reads. The stages list all of
them, and their fields stand in the terms; in the projector only those of the first two
kinds do. -/
structure Findings (p p' : Pipeline) (ofStages ofProjector ofResult : List Accumulator) :
    Prop where
  collected : p.Collected p' (ofStages ++ ofProjector ++ ofResult)
  listed : ∃ stages,
    p'.stages = withAccumulators stages (ofStages ++ ofProjector ++ ofResult) ∧
      List.Forall₂ (Stage.Related (Term.Attached (· ∈ ofStages ++ ofProjector ++ ofResult))
        fun _ => False) p.stages stages
  attached : p.projector.Attached (· ∈ ofStages ++ ofProjector) p'.projector
  stages : ∀ b ∈ ofStages, ∃ s ∈ p.stages, ∃ t ∈ s.terms, ∃ u, t.Found u b
  projector : ∀ b ∈ ofProjector, p.projector.Found p'.projector b
  result : ∀ b ∈ ofResult, ∃ r ∈ p.result, ∃ u, r.source.Found u b

theorem findings_of_eq_ok {p p' : Pipeline} (h : p.collectAccumulators = .ok p') :
    ∃ ofStages ofProjector ofResult, p.Findings p' ofStages ofProjector ofResult := by
  rw [collectAccumulators_eq] at h
  extract_lets transform stages projector result at h
  split at h
  · cases h
  · rename_i hend
    cases h
    -- No phase has failed, since the last one has not.
    have hprojector := reflects_attachingTerminal p.result projector.2 hend
    have hstages := reflects_attaching p.projector stages.2 hprojector
    have findsStages : FindsOnly (groupPositions p.stages)
        (p.stages.mapM (Stage.transformM transform))
        fun b => ∃ s ∈ p.stages, ∃ t ∈ s.terms, ∃ u, t.Found u b := by
      refine findsOnly_mapM (fun s _ => reflects_attachingStage s) ?_
      intro s hs
      exact finds_imp (finds_attachingStage s) fun _ _ h b hb => ⟨s, hs, h b hb⟩
    obtain ⟨computable, ofStages, hfound, newStages⟩ := findsStages {} hstages nofun
    obtain ⟨computable', ofProjector, hfound', -, newProjector⟩ :=
      finds_attaching p.projector stages.2 hprojector computable
    obtain ⟨-, ofResult, hfound'', newResult⟩ :=
      finds_attachingTerminal p.result projector.2 hend computable'
    have staged : stages.2.found = ofStages := hfound
    have shown : projector.2.found = ofStages ++ ofProjector := staged ▸ hfound'
    have all : result.2.found = ofStages ++ ofProjector ++ ofResult := shown ▸ hfound''
    obtain ⟨computes, related⟩ := ensures_attached p (groupPositions p.stages)
      result.2.found {} ⟨hend, fun _ hb => hb⟩ nofun
    refine ⟨ofStages, ofProjector, ofResult, ?_, ⟨stages.1, ?_, ?_⟩, ?_, newStages,
      newProjector, newResult⟩
    · rw [← all]
      exact .of_related computes related
    · rw [all]
    · rw [← all]
      exact related.stages.imp fun _ _ => .mono (fun _ _ h => h.1) fun _ => id
    · have sound := accumulatorsToFields_sound (groupPositions p.stages) projector.2.found
      rw [← shown]
      exact (sound.ensures p.projector stages.2 ⟨hprojector, fun _ hb => hb⟩ computable).2.1

/-- All terms are attached to what is found, which the stages list in the end. -/
theorem Findings.related {p p' : Pipeline} {ofStages ofProjector ofResult : List Accumulator}
    (h : p.Findings p' ofStages ofProjector ofResult) :
    p.Related (Term.Attached (· ∈ ofStages ++ ofProjector ++ ofResult))
      (· ∈ ofStages ++ ofProjector ++ ofResult) p' :=
  h.collected.related.mono (fun _ _ h => h.1) fun _ => id

/-- What is found was read with a source that a term of the pipeline holds. -/
theorem Findings.origin {p p' : Pipeline} {ofStages ofProjector ofResult : List Accumulator}
    (h : p.Findings p' ofStages ofProjector ofResult) {b : Accumulator}
    (hb : b ∈ ofStages ++ ofProjector ++ ofResult) :
    ∃ i t u, p.HasTerm i t ∧ t.Found u b := by
  rcases List.mem_append.mp hb with hb | hb
  · rcases List.mem_append.mp hb with hb | hb
    · obtain ⟨s, hs, t, ht, u, hfound⟩ := h.stages b hb
      obtain ⟨i, hi⟩ := List.getElem?_of_mem hs
      exact ⟨i, t, u, .stage hi ht, hfound⟩
    · exact ⟨_, _, _, .projector, h.projector b hb⟩
  · obtain ⟨r, hr, u, hfound⟩ := h.result b hb
    exact ⟨_, _, u, .result hr, hfound⟩

end Pipeline

end QueryPipeline
