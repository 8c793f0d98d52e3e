import QueryPipeline.Compile
import QueryPipeline.Proofs.Grouping.Resolution

/-!
Pipelines without groups. Binding places accumulators and groups at group stages only, so
where there is none the terms hold neither. Resolving has nothing to replace then: it
succeeds, and all it does is to reduce the result.
-/

namespace QueryPipeline

/-- Going through a list with steps that give its elements gives the list. -/
theorem mapM_eq_pure {m : Type → Type} [Monad m] [LawfulMonad m] {α : Type} {f : α → m α}
    {as : List α} (h : ∀ a ∈ as, f a = pure a) : as.mapM f = pure as := by
  induction as with
  | nil => rfl
  | cons a as ih =>
    rw [List.mapM_cons, h a List.mem_cons_self,
      ih fun a' ha' => h a' (List.mem_cons_of_mem _ ha')]
    simp

namespace Term

section Transform

variable {m : Type → Type} [Monad m] [LawfulMonad m]

/-- The transformation leaves every term alone that is neither an accumulator nor a
group. -/
structure IsIdle (r : Transform m) : Prop where
  enter {t : Term} : t.isPlain → r.enter t = pure none
  leave {t : Term} : t.isPlain → r.leave t = pure t

/-- A term that is placed where no group is near has nothing to transform. -/
theorem Placed.transformM_of_unseen {r : Transform m} (idle : IsIdle r) {near : Nat → Option Nat}
    {place : Place} {t : Term} (unseen : ∀ g, ¬ place.Sees near g)
    (h : Placed near place t) : t.transformM r = pure t := by
  -- On the way down the place stays one that sees no group.
  induction h with
  | accumulator hsees => exact absurd hsees (unseen _)
  | grouping hholds => exact absurd hholds.sees (unseen _)
  | @plain place t plain _ ih =>
    have parts : t.children.mapM (transformM r) = pure t.children :=
      mapM_eq_pure fun u hu => ih u hu unseen
    rw [transformM_eq, idle.enter plain, pure_bind]
    simp only [parts, pure_bind, withChildren_children, idle.leave plain]

end Transform

end Term

open Term (IsIdle)

theorem groupsToRecords_idle : IsIdle groupsToRecords where
  enter {t} plain := by
    cases t with
    | accumulator | grouping => cases plain
    | _ => rfl
  leave _ := rfl

theorem accumulatorsToFields_idle (groups : List Nat) :
    IsIdle (accumulatorsToFields groups) where
  enter {t} plain := by
    cases t with
    | accumulator => cases plain
    | _ => rfl
  leave {t} plain := by
    cases t with
    | accumulator => cases plain
    | _ => rfl

/-- Stages whose terms stay as they are do so, too. -/
theorem Stage.transformM_eq {m : Type → Type} [Monad m] [LawfulMonad m] {r : Transform m}
    {s : Stage} (h : ∀ t ∈ s.terms, t.transformM r = pure t) : s.transformM r = pure s := by
  cases s with
  | filter t | project t =>
    have kept := h t (List.mem_singleton.mpr rfl)
    simp only [transformM, kept, pure_bind]
  | group id accumulators =>
    have sources : (accumulators.mapM fun a : Accumulator => do
        return { a with source := ← a.source.transformM r }) = pure accumulators := by
      refine mapM_eq_pure ?_
      intro a ha
      have kept := h a.source (List.mem_cons_of_mem _ (List.mem_map_of_mem ha))
      simp only [kept, pure_bind]
    have kept := h id List.mem_cons_self
    simp only [transformM, kept, sources, pure_bind]
  | sort keys =>
    have parts : (keys.mapM fun k : RowKey => do
        return { k with key := ← k.key.transformM r }) = pure keys := by
      refine mapM_eq_pure ?_
      intro k hk
      have kept := h k.key (List.mem_map_of_mem hk)
      simp only [kept, pure_bind]
    simp only [transformM, parts, pure_bind]
  | skip | limit | unwind => rfl

/-- Without group stages no group is near. -/
theorem nearestGroup_eq_none {stages : List Stage} (h : ∀ s ∈ stages, s.isGroup = false)
    (i : Nat) : nearestGroup stages i = none := by
  induction i with
  | zero => rfl
  | succ i ih =>
    have hi : isGroupAt stages i = false := by
      unfold isGroupAt
      cases hget : stages[i]? with
      | none => rfl
      | some s => exact h s (List.mem_of_getElem? hget)
    rw [nearestGroup, hi, ← ih]
    rfl

/-- Where no accumulator was found, stages stay as they are. -/
theorem withAccumulators_nil (stages : List Stage) : withAccumulators stages [] = stages := by
  refine Eq.trans (List.map_congr_left (g := Prod.fst) ?_) (List.zipIdx_map_fst 0 stages)
  rintro ⟨s, i⟩ -
  cases s <;> simp

namespace Pipeline

/-- **Resolving a pipeline without groups reduces its result** and does nothing else. -/
theorem resolveGroups_of_no_group {p : Pipeline} (h : p.Placed)
    (no_group : ∀ s ∈ p.stages, s.isGroup = false) (next : Nat) :
    p.resolveGroups next = .ok p.reduceResult := by
  have unseen (i : Nat) : ∀ g, ¬ (Place.stage i).Sees (nearestGroup p.stages) g := by
    intro g hg
    cases (nearestGroup_eq_none no_group i).symm.trans hg
  have kept {m : Type → Type} [Monad m] [LawfulMonad m] {r : Transform m} (idle : IsIdle r)
      {i : Nat} {t : Term} (ht : p.HasTerm i t) : t.transformM r = pure t :=
    (h.of_hasTerm ht).transformM_of_unseen idle (unseen i)
  have kept_result {m : Type → Type} [Monad m] [LawfulMonad m] {r : Transform m}
      (idle : IsIdle r) : transformTerminal r p.result = pure p.result := by
    cases hresult : p.result with
    | none => rfl
    | some result => simp [transformTerminal, kept idle (.result hresult)]
  have spelled : p.spellOutGroups next = .ok p := by
    unfold spellOutGroups
    rw [kept groupsToRecords_idle .projector, kept_result groupsToRecords_idle]
    rfl
  have collected : p.collectAccumulators = .ok p := by
    have idle := accumulatorsToFields_idle (groupPositions p.stages)
    have stages : p.stages.mapM (Stage.transformM (accumulatorsToFields (groupPositions p.stages)))
        = pure p.stages := by
      refine mapM_eq_pure ?_
      intro s hs
      obtain ⟨i, hi⟩ := List.getElem?_of_mem hs
      exact Stage.transformM_eq fun t ht => kept idle (.stage hi ht)
    unfold collectAccumulators
    simp only [stages, kept idle .projector, kept_result idle, pure_bind]
    change Except.ok { p with stages := withAccumulators p.stages [] } = _
    rw [withAccumulators_nil]
  rw [resolveGroups, spelled]
  change (p.collectAccumulators >>= fun p => pure p.reduceResult) = _
  rw [collected]
  rfl

end Pipeline

/-- **Compiling a query without groups** writes its pipeline down, with the result reduced. -/
theorem Query.compile_of_no_group {registry : Registry} {q : Query} {p : Pipeline}
    {c : Context} (bound : q.bound registry = (.ok p, c))
    (no_group : ∀ s ∈ p.stages, s.isGroup = false) (o : Options) :
    (q.compile registry o).map Command.pipeline =
      (Stage.emitAll o.queryLanguage (p.reduceResult.plan.optimized o).stages).mapError
        CompileError.emit := by
  have resolved : p.resolveGroups c.minted = .ok p.reduceResult :=
    Pipeline.resolveGroups_of_no_group (Query.bind_placed bound) no_group c.minted
  unfold Query.compile
  simp only [bound, resolved, Except.mapError, Bind.bind, Except.bind]
  cases Stage.emitAll o.queryLanguage (p.reduceResult.plan.optimized o).stages <;> rfl

end QueryPipeline
