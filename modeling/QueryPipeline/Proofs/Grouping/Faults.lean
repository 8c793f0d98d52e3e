import QueryPipeline.Proofs.Options

/-!
Failures that no query can cause (`Query.internal_failures_unreachable`), and what the others
are about. Three errors report that the compiler has gone wrong itself: an accumulator whose
group is no group stage, two fields of one name in the record of a group, and an accumulator
that is still there when its term is written. Binding places accumulators and groups where a
group stage comes before them, and spelling out groups leaves them there, so whatever the
accumulator pass looks up is a group; and a pass that does not fail leaves no accumulators
behind. What any other failure to write a query is about stands in one of its terms, once its
groups are resolved (`Query.subject_standsIn`).
-/

namespace QueryPipeline

/-! ### Steps that keep a condition -/

section Steps

variable {σ α β : Type} {inv : σ → Prop}

/-- A step keeps a condition on the state, whether it ends well or not. -/
def Preserves (inv : σ → Prop) (step : StateM σ α) : Prop :=
  ∀ s, inv s → inv (step.run s).2

theorem preserves_pure {a : α} : Preserves inv (pure a : StateM σ α) :=
  fun _ h => h

theorem preserves_bind {step : StateM σ α} {next : α → StateM σ β}
    (h : Preserves inv step) (hnext : ∀ a, Preserves inv (next a)) :
    Preserves inv (step >>= next) :=
  fun s hs => hnext _ _ (h s hs)

/-- What a step ensures however it ends, it keeps. -/
theorem Ensures.preserves {step : StateM σ α} {post : α → Prop}
    (h : Ensures (fun _ => True) inv step post) : Preserves inv step :=
  fun s hs => (h s trivial hs).1

theorem Preserves.ensures {step : StateM σ α} {post : α → Prop} (h : Preserves inv step)
    (always : ∀ a, post a) : Ensures (fun _ => True) inv step post :=
  fun s _ hs => ⟨h s hs, always _⟩

end Steps

/-! ### Transformations that keep a condition -/

section Transformations

variable {σ : Type} {inv : σ → Prop} {r : Transform (StateM σ)}
  (leave : ∀ t, Preserves inv (r.leave t))
include leave

/-- A transformation keeps what it keeps on the way in, at each term that it may come to, and
on the way out. -/
theorem Term.ensures_transformM {t : Term}
    (enter : ∀ u ∈ t.subterms, Preserves inv (r.enter u)) :
    Ensures (fun _ => True) inv (t.transformM r) fun _ => True := by
  have below {t u : Term} (h : ∀ v ∈ t.subterms, Preserves inv (r.enter v))
      (hu : u ∈ t.children) : ∀ v ∈ u.subterms, Preserves inv (r.enter v) :=
    fun v hv => h v (mem_subterms_of_child hu hv)
  have entered {t : Term} (h : ∀ v ∈ t.subterms, Preserves inv (r.enter v)) :
      Ensures (fun _ => True) inv (r.enter t) fun replaced =>
        replaced.elim True fun _ => True := by
    refine (h t (mem_subterms_self t)).ensures ?_
    intro replaced
    cases replaced with
    | none => trivial
    | some u => trivial
  exact Transform.ensures_term below (fun _ => reflects_true) (fun _ => reflects_true) entered
    (fun _ _ _ => (leave _).ensures fun _ => trivial) enter

theorem Term.preserves_transformM (t : Term)
    (enter : ∀ u ∈ t.subterms, Preserves inv (r.enter u)) : Preserves inv (t.transformM r) :=
  (ensures_transformM leave enter).preserves

/-- A pipeline whose terms a transformation comes to keeps the condition as they do. -/
theorem Pipeline.preserves_transform (p : Pipeline)
    (enter : ∀ i t, p.HasTerm i t → ∀ u ∈ t.subterms, Preserves inv (r.enter u)) :
    Preserves inv (do
        let stages ← p.stages.mapM (Stage.transformM r)
        let projector ← p.projector.transformM r
        let result ← transformTerminal r p.result
        return { p with stages, projector, result }) := by
  have term {i : Nat} {t : Term} (ht : p.HasTerm i t) :
      Ensures (fun _ => True) inv (t.transformM r) fun _ => True :=
    Term.ensures_transformM leave (enter i t ht)
  have staged : ∀ s ∈ p.stages, ∀ t ∈ s.terms,
      Ensures (fun _ => True) inv (t.transformM r) fun _ => True := by
    intro s hs t ht
    obtain ⟨i, hi⟩ := List.getElem?_of_mem hs
    exact term (.stage hi ht)
  exact (ensures_transform (fun _ => reflects_true) staged (term .projector)
    fun x hx => term (.result hx)).preserves

theorem Pipeline.preserves_transformTerminal (result : Option Terminal)
    (enter : ∀ x ∈ result, ∀ u ∈ x.source.subterms, Preserves inv (r.enter u)) :
    Preserves inv (transformTerminal r result) := by
  have source : Ensures (fun _ => True) inv (transformTerminal r result)
      (Option.Rel (Terminal.Related fun _ _ => True) result) :=
    ensures_transformTerminal fun x hx => Term.ensures_transformM leave (enter x hx)
  exact source.preserves

end Transformations

/-! ### Spelling out groups -/

/-- So far only filtered groups have failed to be spelled out. -/
def GroupNaming.OnlyFiltered (s : GroupNaming) : Prop :=
  ∀ fault ∈ s.fault, ∃ element, fault = .filteredGroup element

/-- The record of a group fails for a predicate only: its two fields have different names. -/
theorem groupRecord_preserves (stage : Nat) (key element : Term) (predicate : Option Term)
    (distinct : Bool) :
    Preserves GroupNaming.OnlyFiltered (groupRecord stage key element predicate distinct) := by
  intro s hs
  cases predicate with
  | none => exact hs
  | some predicate =>
    intro fault hfault
    exact ⟨element, (Option.some.inj hfault).symm⟩

theorem Pipeline.fault_of_spellOutGroups {p : Pipeline} {next : Nat}
    {fault : AccumulationError} (h : p.spellOutGroups next = .error fault) :
    ∃ element, fault = .filteredGroup element := by
  have enter (t : Term) : Preserves GroupNaming.OnlyFiltered (groupsToRecords.enter t) := by
    cases t with
    | grouping stage key element predicate distinct =>
      have record := groupRecord_preserves stage key element predicate distinct
      exact preserves_bind record fun _ => preserves_pure
    | _ => exact preserves_pure
  have leave (t : Term) : Preserves GroupNaming.OnlyFiltered (groupsToRecords.leave t) :=
    preserves_pure
  rw [spellOutGroups_eq] at h
  extract_lets projector result at h
  have projected : projector.2.OnlyFiltered :=
    Term.preserves_transformM leave p.projector (fun u _ => enter u) _ nofun
  have ended : result.2.OnlyFiltered :=
    preserves_transformTerminal leave p.result (fun _ _ u _ => enter u) _ projected
  split at h
  · rename_i found hfound
    cases h
    exact ended fault hfound
  · cases h

/-! ### Groups that terms name -/

namespace Term

/-- The group that a term itself is about: the one it aggregates, or the one whose rows it
is. -/
def group? : Term → Option Nat
  | .accumulator group .. | .grouping group .. => some group
  | _ => none

/-- Every group that an accumulator or a group in the term names is one of these. -/
def NamesOnly (groups : List Nat) (t : Term) : Prop :=
  ∀ u ∈ t.subterms, ∀ g ∈ u.group?, g ∈ groups

variable {near : Nat → Option Nat} {groups : List Nat}

/-- A term names those groups that are seen where it is placed, groups around it and groups
that are near to those. -/
theorem Placed.namesOnly (nearby : ∀ i g, near i = some g → g ∈ groups) {place : Place}
    {t : Term} (h : Placed near place t) (seen : ∀ g, place.Sees near g → g ∈ groups) :
    t.NamesOnly groups := by
  have around {g : Nat} (hg : g ∈ groups) : ∀ g', g' = g ∨ near g = some g' → g' ∈ groups := by
    rintro g' (rfl | hnear)
    · exact hg
    · exact nearby g g' hnear
  intro u hu g hgroup
  induction h with
  | @accumulator place group kind source output codec hsees _ ih =>
    have hmem := seen group hsees
    rcases mem_subterms_cases hu with rfl | ⟨v, hv, hbelow⟩
    · exact Option.some.inj hgroup ▸ hmem
    · obtain rfl := List.mem_singleton.mp hv
      exact ih (around hmem) hbelow
  | @grouping place group key element predicate distinct hholds _ _ _ _ ihkey ihelement
    ihpredicate =>
    have hmem := seen group hholds.sees
    rcases mem_subterms_cases hu with rfl | ⟨v, hv, hbelow⟩
    · exact Option.some.inj hgroup ▸ hmem
    · simp only [children, List.cons_append, List.nil_append, List.mem_cons,
        Option.mem_toList] at hv
      rcases hv with rfl | rfl | hv
      · exact ihkey seen hbelow
      · exact ihelement (around hmem) hbelow
      · exact ihpredicate v hv (around hmem) hbelow
  | plain plain _ ih =>
    rcases mem_subterms_cases hu with rfl | ⟨v, hv, hbelow⟩
    · cases u with
      | accumulator | grouping => cases plain
      | _ => cases hgroup
    · exact ih v hv seen hbelow

end Term

theorem mem_groupPositions_of_nearest {stages : List Stage} {i g : Nat}
    (h : nearestGroup stages i = some g) : g ∈ groupPositions stages :=
  mem_groupPositions.mpr (nearestGroup_eq_some_iff.mp h).2.1

/-- **Whatever the accumulator pass looks up is a group stage.** -/
theorem Pipeline.SpelledOut.namesOnly {p spelled : Pipeline} (h : p.SpelledOut spelled)
    (placed : p.Placed) {i : Nat} {t : Term} (ht : spelled.HasTerm i t) :
    t.NamesOnly (groupPositions spelled.stages) := by
  rw [h.stages]
  exact (h.of_hasTerm placed ht).1.namesOnly (fun _ _ => mem_groupPositions_of_nearest)
    fun _ => mem_groupPositions_of_nearest

/-! ### Attaching accumulators -/

/-- So far only aggregates of groups in their own aggregates have failed to be attached. -/
def Attachments.OnlyNested (s : Attachments) : Prop :=
  ∀ fault ∈ s.fault, ∃ source, fault = .nestedGroup source

theorem computedField_preserves (a : Accumulator) :
    Preserves Attachments.OnlyNested (computedField a) := by
  intro s hs
  rw [computedField_run]
  split
  · exact hs
  · exact hs

/-- An accumulator of a group stage can only fail to be attached because it aggregates the
group itself. -/
theorem Accumulator.fault?_of_mem {groups : List Nat} {a : Accumulator}
    {fault : AccumulationError} (hgroup : a.group ∈ groups)
    (h : a.fault? groups = some fault) : fault = .nestedGroup a.source := by
  unfold fault? at h
  split at h
  · exact (Option.some.inj h).symm
  · rw [if_pos (List.contains_iff_mem.mpr hgroup)] at h
    cases h

theorem attaching_preserves {groups : List Nat} {t : Term}
    (named : ∀ g ∈ t.group?, g ∈ groups) :
    Preserves Attachments.OnlyNested ((accumulatorsToFields groups).enter t) := by
  cases t with
  | accumulator group kind source output codec =>
    simp only [accumulatorsToFields]
    split
    · rename_i fault hfault
      intro s hs fault' hfault'
      obtain rfl := Option.some.inj hfault'
      exact ⟨source, Accumulator.fault?_of_mem (named group rfl) hfault⟩
    · exact preserves_pure
  | _ => exact preserves_pure

theorem Pipeline.fault_of_collectAccumulators {p : Pipeline} {fault : AccumulationError}
    (named : ∀ i t, p.HasTerm i t → t.NamesOnly (groupPositions p.stages))
    (h : p.collectAccumulators = .error fault) : ∃ source, fault = .nestedGroup source := by
  have leave (t : Term) : Preserves Attachments.OnlyNested
      ((accumulatorsToFields (groupPositions p.stages)).leave t) := by
    cases t with
    | accumulator => exact computedField_preserves _
    | _ => exact preserves_pure
  have enter {i : Nat} {t : Term} (ht : p.HasTerm i t) : ∀ u ∈ t.subterms,
      Preserves Attachments.OnlyNested ((accumulatorsToFields (groupPositions p.stages)).enter u) :=
    fun u hu => attaching_preserves (named i t ht u hu)
  have preserves := p.preserves_transform leave (fun _ _ => enter) {} nofun
  unfold collectAccumulators at h
  simp only at h
  split at h
  rename_i transformed s hrun
  rw [hrun] at preserves
  split at h
  · rename_i found hfound
    cases h
    exact preserves fault hfound
  · cases h

/-- Resolving groups fails only for groups that are not computed as such: filtered ones that
are read as values, and those that are aggregated in their own aggregates. -/
theorem Pipeline.fault_of_resolveGroups {p : Pipeline} {next : Nat}
    {fault : AccumulationError} (placed : p.Placed)
    (h : p.resolveGroups next = .error fault) :
    (∃ element, fault = .filteredGroup element) ∨ ∃ source, fault = .nestedGroup source := by
  unfold resolveGroups at h
  cases hspelled : p.spellOutGroups next with
  | error e =>
    rw [hspelled] at h
    cases h
    exact .inl (fault_of_spellOutGroups hspelled)
  | ok spelled =>
    rw [hspelled] at h
    cases hattached : spelled.collectAccumulators with
    | error e =>
      obtain rfl : e = fault := by
        simpa [Bind.bind, Except.bind, hattached] using h
      have spelledOut := spelledOut_of_eq_ok hspelled
      exact .inr (fault_of_collectAccumulators (fun _ _ => spelledOut.namesOnly placed)
        hattached)
    | ok attached =>
      simp [Bind.bind, Except.bind, hattached, pure, Except.pure] at h

/-! ### Writing terms -/

theorem FieldPath.fault_of_emit {path : FieldPath} {scope : List String} {fault : EmitError}
    (h : failure? (path.emit scope) = some fault) : ∃ var, fault = .unboundVariable var := by
  unfold emit at h
  split at h
  · cases h
  · rename_i var _
    split at h
    · cases h
    · exact ⟨var, (Option.some.inj h).symm⟩

theorem fault_of_emitItemKeys {input : Term} {keys : List ItemKey} {fault : EmitError}
    (h : failure? (emitItemKeys input keys) = some fault) :
    fault = .invalidItemKeys input keys := by
  unfold emitItemKeys at h
  split at h
  · cases h
  · rw [failure?_bind_pure, failure?_mapM] at h
    obtain ⟨k, -, hkey⟩ := List.exists_of_findSome?_eq_some h
    split at hkey
    · cases hkey
    · exact (Option.some.inj hkey).symm

theorem fault_of_emitSortKeys {keys : List RowKey} {fault : EmitError}
    (h : failure? (emitSortKeys keys) = some fault) :
    ∃ k ∈ keys, fault = .invalidSortKey k.key := by
  unfold emitSortKeys at h
  rw [failure?_bind_pure, failure?_mapM] at h
  obtain ⟨k, hk, hkey⟩ := List.exists_of_findSome?_eq_some h
  refine ⟨k, hk, ?_⟩
  split at hkey
  · split at hkey
    · cases hkey
    · exact (Option.some.inj hkey).symm
  · exact (Option.some.inj hkey).symm

namespace Term

variable {t : Term} {fault : EmitError}

/-- A term below this one, or this one itself, fails of its own. -/
def Causes (t : Term) (fault : EmitError) : Prop :=
  ∃ u ∈ t.subterms, ∃ scope, u.ownFailure? scope = some fault

theorem Causes.of_child {u : Term} (hu : u ∈ t.children) (h : u.Causes fault) :
    t.Causes fault := by
  obtain ⟨w, hw, own⟩ := h
  exact ⟨w, mem_subterms_of_child hu hw, own⟩

theorem causes_of_emit {scope : List String} (h : failure? (t.emit scope) = some fault) :
    t.Causes fault := by
  induction t using inductionOn generalizing scope with
  | step t ih =>
    rw [failure?_emit] at h
    rcases Option.or_eq_some_iff.mp h with hown | ⟨-, hparts⟩
    · exact ⟨t, mem_subterms_self t, scope, hown⟩
    · obtain ⟨p, hp, hpart⟩ := List.exists_of_findSome?_eq_some hparts
      have hchild := (List.of_mem_zip hp).1
      exact (ih p.1 hchild hpart).of_child hchild

theorem causes_of_emitProjected (h : failure? t.emitProjected = some fault) :
    t.Causes fault := by
  induction t using inductionOn with
  | step t ih =>
    unfold emitProjected at h
    split at h
    · cases h
    · rename_i fields
      rw [failure?_bind_pure, failure?_emitProjectedFields] at h
      obtain ⟨u, hu, hfails⟩ := List.exists_of_findSome?_eq_some h
      exact (ih u hu hfails).of_child hu
    · exact causes_of_emit h

theorem causes_of_emitProjection (h : failure? t.emitProjection = some fault) :
    t.Causes fault := by
  unfold emitProjection at h
  simp only [pure_bind] at h
  split at h
  · rw [failure?_bind_pure, failure?_emitProjectedFields] at h
    obtain ⟨u, hu, hfails⟩ := List.exists_of_findSome?_eq_some h
    exact (causes_of_emitProjected hfails).of_child hu
  · rw [failure?_bind_pure] at h
    exact causes_of_emitProjected h

/-- Writing fails for an accumulator only where there is one. -/
theorem Causes.contains_accumulator {output : String}
    (h : t.Causes (.unattachedAccumulator output)) : t.contains isAccumulator = true := by
  obtain ⟨u, hu, scope, hown⟩ := h
  suffices form : u.isAccumulator = true from List.any_eq_true.mpr ⟨u, hu, form⟩
  cases u with
  | accumulator => rfl
  | field | item =>
    obtain ⟨_, hvar⟩ := FieldPath.fault_of_emit hown
    cases hvar
  | sortArray => cases fault_of_emitItemKeys hown
  | _ => cases hown

end Term

/-- What the failure is about is found in the term. -/
def Subject.StandsIn (t : Term) : Subject → Prop
  | .term u => u ∈ t.subterms
  | .itemSort input keys => .sortArray input keys ∈ t.subterms

/-- **What a failure is about stands in the term that cannot be written.** -/
theorem Term.Causes.standsIn {t : Term} {fault : EmitError} {subject : Subject}
    (h : t.Causes fault) (about : fault.subject? = some subject) : subject.StandsIn t := by
  obtain ⟨u, hu, scope, hown⟩ := h
  cases u with
  | field | item =>
    obtain ⟨_, rfl⟩ := FieldPath.fault_of_emit hown
    cases about
  | accumulator =>
    obtain rfl := Option.some.inj hown
    cases about
  | sortArray =>
    obtain rfl := fault_of_emitItemKeys hown
    obtain rfl := Option.some.inj about
    exact hu
  | grouping group key element predicate distinct =>
    obtain rfl := Option.some.inj hown
    obtain rfl := Option.some.inj about
    have below : element ∈ (grouping group key element predicate distinct).subterms :=
      mem_subterms_of_child (by simp [children]) (mem_subterms_self element)
    exact mem_subterms_trans hu below
  | _ => cases hown

namespace Stage

variable {s : Stage} {queryLanguage : Bool} {fault : EmitError}

/-- A stage that cannot be written has a term that cannot, or a sort key that is no field. -/
theorem causes_of_emit (h : failure? (s.emit queryLanguage) = some fault) :
    ∃ t ∈ s.terms, t.Causes fault ∨ fault = .invalidSortKey t := by
  cases s with
  | filter predicate =>
    rw [failure?_emit _ queryLanguage false] at h
    have written : failure? predicate.exprQuery = some fault :=
      (failure?_bind_pure _ _).symm.trans h
    rw [Term.exprQuery, failure?_bind_pure] at written
    exact ⟨predicate, List.mem_cons_self, .inl (Term.causes_of_emit written)⟩
  | project selector =>
    have written : failure? selector.emitProjection = some fault :=
      (failure?_bind_pure _ _).symm.trans h
    exact ⟨selector, List.mem_cons_self, .inl (Term.causes_of_emitProjection written)⟩
  | group id accumulators =>
    have written : failure? (emitGroup id accumulators) = some fault :=
      (failure?_bind_pure _ _).symm.trans h
    rw [failure?_emitGroup] at written
    rcases Option.or_eq_some_iff.mp written with hid | ⟨-, hsource⟩
    · exact ⟨id, List.mem_cons_self, .inl (Term.causes_of_emit hid)⟩
    · obtain ⟨a, ha, hfails⟩ := List.exists_of_findSome?_eq_some hsource
      exact ⟨a.source, List.mem_cons_of_mem _ (List.mem_map_of_mem ha),
        .inl (Term.causes_of_emit hfails)⟩
  | sort keys =>
    have written : failure? (emitSortKeys keys) = some fault :=
      (failure?_bind_pure _ _).symm.trans h
    obtain ⟨k, hk, hfault⟩ := fault_of_emitSortKeys written
    exact ⟨k.key, List.mem_map_of_mem hk, .inr hfault⟩
  | skip | limit | unwind => cases h

end Stage

/-- The terms of a plan's stages are terms of the pipeline. -/
theorem Pipeline.hasTerm_of_plan {p : Pipeline} {s : Stage} {t : Term}
    (hs : s ∈ p.plan.stages) (ht : t ∈ s.terms) : ∃ i, p.HasTerm i t := by
  rcases List.mem_append.mp hs with hs | hs
  · rcases List.mem_append.mp hs with hs | hs
    · obtain ⟨i, hi⟩ := List.getElem?_of_mem hs
      exact ⟨i, .stage hi ht⟩
    · rw [(Bounds.terms_eq_nil hs).2] at ht
      cases ht
  · split at hs
    · cases hs
    · obtain rfl := List.mem_singleton.mp hs
      obtain rfl := List.mem_singleton.mp ht
      exact ⟨_, .projector⟩

/-- A pipeline that cannot be written has a term that cannot, or a sort key that is no field. -/
theorem Pipeline.causes_of_emitAll {p : Pipeline} {queryLanguage : Bool} {fault : EmitError}
    (h : failure? (Stage.emitAll queryLanguage p.plan.stages) = some fault) :
    ∃ i t, p.HasTerm i t ∧ (t.Causes fault ∨ fault = .invalidSortKey t) := by
  rw [Stage.failure?_emitAll] at h
  obtain ⟨s, hs, hfails⟩ := List.exists_of_findSome?_eq_some h
  obtain ⟨t, ht, causes⟩ := Stage.causes_of_emit hfails
  obtain ⟨i, hterm⟩ := hasTerm_of_plan hs ht
  exact ⟨i, t, hterm, causes⟩

/-! ### Queries -/

theorem BindingError.code_lt (e : BindingError) : e.code < 2000 := by
  cases e <;> simp [code]

/-- What the failures of the compiler itself are. -/
def CompileError.isInternal : CompileError → Bool
  | .accumulation (.notAGroup _) | .accumulation (.duplicateField _)
  | .emit (.unattachedAccumulator _) => true
  | _ => false

/-- The internal failures are those with these numbers. -/
theorem CompileError.isInternal_iff {e : CompileError} :
    e.isInternal = true ↔ e.code = 2003 ∨ e.code = 2004 ∨ e.code = 4001 := by
  cases e with
  | bind e =>
    have hlt := e.code_lt
    simp only [isInternal, code, Bool.false_eq_true, false_iff]
    omega
  | accumulation e => cases e <;> simp [isInternal, code, AccumulationError.code]
  | emit e => cases e <;> simp [isInternal, code, EmitError.code]

section Failures

variable {registry : Registry} {q : Query} {o : Options}

/-- The phase that fails to compile a query, which the options have no part in. -/
theorem Query.failure?_compile (registry : Registry) (q : Query) (o : Options) :
    failure? (q.compile registry o) =
      match q.bound registry with
      | (.error e, _) => some (.bind e)
      | (.ok bound, context) =>
        match bound.resolveGroups context.minted with
        | .error e => some (.accumulation e)
        | .ok resolved => (failure? (Stage.emitAll true resolved.plan.stages)).map .emit := by
  have observed : failure? ((q.compile registry o).map fun c => (c.collection, c.result)) =
      failure? (q.compile registry o) := failure?_map _ _
  rw [← observed, compile_phases]
  cases hbound : q.bound registry with
  | mk outcome context =>
    cases outcome with
    | error e => rfl
    | ok bound =>
      cases hresolved : bound.resolveGroups context.minted with
      | error e => simp only [hresolved, failure?]
      | ok resolved =>
        have covers := Pipeline.covers_resolved (bind_placed hbound) (bind_bound hbound) hresolved
        simp only [hresolved, Plan.failure?_optimized o covers]
        cases failure? (Stage.emitAll true resolved.plan.stages) <;> rfl

/-- A query that cannot be written has a term that cannot, or a sort key that is no field, once
its groups are resolved. -/
theorem Query.causes_of_compile {fault : EmitError}
    (h : failure? (q.compile registry o) = some (.emit fault)) :
    ∃ bound context resolved, q.bound registry = (.ok bound, context) ∧
      bound.resolveGroups context.minted = .ok resolved ∧
      ∃ i t, resolved.HasTerm i t ∧ (t.Causes fault ∨ fault = .invalidSortKey t) := by
  rw [failure?_compile] at h
  split at h
  · cases h
  · rename_i bound context hbound
    split at h
    · cases h
    · rename_i resolved hresolved
      obtain ⟨fault', hfault, hemit⟩ := Option.map_eq_some_iff.mp h
      obtain rfl := CompileError.emit.inj hemit
      exact ⟨bound, context, resolved, hbound, hresolved, Pipeline.causes_of_emitAll hfault⟩

/-- **What a failure to write a query is about stands in the query**, in a term that it has
once its groups are resolved. -/
theorem Query.subject_standsIn {fault : EmitError} {subject : Subject}
    (h : q.compile registry o = .error (.emit fault))
    (about : fault.subject? = some subject) :
    ∃ bound context resolved, q.bound registry = (.ok bound, context) ∧
      bound.resolveGroups context.minted = .ok resolved ∧
      ∃ i t, resolved.HasTerm i t ∧ subject.StandsIn t := by
  obtain ⟨bound, context, resolved, hbound, hresolved, i, t, ht, causes⟩ :=
    causes_of_compile (by rw [h]; rfl)
  refine ⟨bound, context, resolved, hbound, hresolved, i, t, ht, ?_⟩
  rcases causes with causes | rfl
  · exact causes.standsIn about
  · obtain rfl := Option.some.inj about
    exact Term.mem_subterms_self t

/-- A query that cannot be compiled is not to blame on the compiler. -/
theorem Query.not_internal {e : CompileError} (h : failure? (q.compile registry o) = some e) :
    e.isInternal = false := by
  cases e with
  | bind e => rfl
  | accumulation fault =>
    rw [failure?_compile] at h
    split at h
    · cases h
    · rename_i bound context hbound
      split at h
      · rename_i fault' hfault
        obtain rfl := CompileError.accumulation.inj (Option.some.inj h)
        rcases Pipeline.fault_of_resolveGroups (bind_placed hbound) hfault with
          ⟨_, rfl⟩ | ⟨_, rfl⟩
        · rfl
        · rfl
      · obtain ⟨_, -, hemit⟩ := Option.map_eq_some_iff.mp h
        cases hemit
  | emit fault =>
    obtain ⟨bound, context, resolved, -, hresolved, i, t, ht, causes⟩ := causes_of_compile h
    cases fault with
    | unattachedAccumulator output =>
      -- Resolving groups has left no accumulator behind.
      have bare := Pipeline.bare_of_resolveGroups hresolved i t ht
      rcases causes with causes | hkey
      · rw [causes.contains_accumulator] at bare
        cases bare
      · cases hkey
    | _ => rfl

end Failures

/-- **The failures of the compiler itself cannot be reached.** No query, codecs and options
make compilation fail with one of them; and where the accumulators of a bound query are
looked up, every group that an accumulator or a group names is a group stage. -/
theorem Query.internal_failures_unreachable (registry : Registry) (q : Query) (o : Options) :
    (∀ e, q.compile registry o = .error e → e.code ≠ 2003 ∧ e.code ≠ 2004 ∧ e.code ≠ 4001) ∧
      ∀ bound context spelled, q.bound registry = (.ok bound, context) →
        bound.spellOutGroups context.minted = .ok spelled →
        ∀ i t u g, spelled.HasTerm i t → u ∈ t.subterms → u.group? = some g →
          g ∈ groupPositions spelled.stages := by
  constructor
  · intro e h
    have external : e.isInternal = false := not_internal (by rw [h]; rfl)
    have numbers := mt CompileError.isInternal_iff.mpr (Bool.eq_false_iff.mp external)
    rwa [not_or, not_or] at numbers
  · intro bound context spelled hbound hspelled i t u g ht hu hgroup
    have spelledOut := Pipeline.spelledOut_of_eq_ok hspelled
    exact spelledOut.namesOnly (bind_placed hbound) ht u hu g hgroup

/-- The young inhabitants of the cities, which no accumulator can collect. -/
def youngInhabitants : Query where
  collection := "people"
  itemType := .document "Person"
  clauses := [
    ⟨"Queryable", "GroupBy", [], [.lambda ["x"] (.member (.param "x") "City")]⟩,
    ⟨"Queryable", "Select", [], [.lambda ["g"] (.call (.param "g")
      ⟨"Enumerable", "Where", [], [.lambda ["z"] (.binary .lt
        (.member (.param "z") "Age") (.const (.int32 30) .int32))]⟩)]⟩]

/-- Its failure is about the inhabitants, who are the elements of the groups. -/
def youngInhabitantsFailure : CompileError :=
  .accumulation (.filteredGroup (.root (.document (.mk "Person" none
    [.mk "City" "city" (.static .string), .mk "Age" "age" (.static .int32)]))))

/-- Once its last group is spelled out, `oldestAges` reads two groups. -/
def oldestAgesSpelled : Pipeline :=
  { oldestAgesBound with
    projector := .document [("Key", .field (.field keyField) .int32),
      ("Elements", .accumulator 1 .push
        (.accumulator 0 .max (.field (.field "age") .int32) "__agg0" .int32) "__agg1"
        (.arrayOf .int32))] }

theorem inhabitants_fail_externally :
    (youngInhabitants.compile inhabitants {} = .error youngInhabitantsFailure ∧
      (youngInhabitantsFailure.code ≠ 2003 ∧ youngInhabitantsFailure.code ≠ 2004 ∧
        youngInhabitantsFailure.code ≠ 4001)) ∧
    (oldestAges.bound inhabitants = (.ok oldestAgesBound, ⟨{}, 1⟩) ∧
      oldestAgesBound.spellOutGroups 1 = .ok oldestAgesSpelled ∧
      1 ∈ groupPositions oldestAgesSpelled.stages) := by
  have filtered : youngInhabitants.compile inhabitants {} =
      .error youngInhabitantsFailure := rfl
  have bound : oldestAges.bound inhabitants = (.ok oldestAgesBound, ⟨{}, 1⟩) := rfl
  have spelled : oldestAgesBound.spellOutGroups 1 = .ok oldestAgesSpelled := rfl
  have read : Term.accumulator 1 .push
      (.accumulator 0 .max (.field (.field "age") .int32) "__agg0" .int32) "__agg1"
      (.arrayOf .int32) ∈ oldestAgesSpelled.projector.subterms := by
    simp [oldestAgesSpelled, Term.subterms, Term.fieldSubterms]
  refine ⟨⟨filtered, ?_⟩, bound, spelled, ?_⟩
  · exact (Query.internal_failures_unreachable inhabitants youngInhabitants {}).1 _ filtered
  · exact (Query.internal_failures_unreachable inhabitants oldestAges {}).2 _ _ _ bound spelled
      _ _ _ _ .projector read rfl

end QueryPipeline
