import Mathlib.Data.List.Forall2
import QueryPipeline.Proofs.Grouping.Placement

/-!
Transformations that carry a state. A pass over terms may note a failure in its state and go
on, so what it gives counts only if it *ends* well. A step `Reflects` such a condition if it
started well whenever it ends well, and `Ensures` a property of its value under the condition
that it ends well.

`Transform.Sound` says that a transformation relates every term to what becomes of it, if it
does so for a term whose parts are related already; stages and results follow.
-/

namespace QueryPipeline

/-! ### Steps that end well -/

section Steps

variable {σ α β : Type}

/-- A step that ends well started well. -/
def Reflects (well : σ → Prop) (step : StateM σ α) : Prop :=
  ∀ s, well (step.run s).2 → well s

/-- A step that ends well keeps an invariant and gives a value with a property. -/
def Ensures (well inv : σ → Prop) (step : StateM σ α) (post : α → Prop) : Prop :=
  ∀ s, well (step.run s).2 → inv s → inv (step.run s).2 ∧ post (step.run s).1

variable {well inv : σ → Prop}

theorem reflects_pure {a : α} : Reflects well (pure a : StateM σ α) :=
  fun _ h => h

theorem reflects_true {step : StateM σ α} : Reflects (fun _ => True) step :=
  fun _ _ => trivial

theorem reflects_bind {step : StateM σ α} {next : α → StateM σ β} (h : Reflects well step)
    (hnext : ∀ a, Reflects well (next a)) : Reflects well (step >>= next) := by
  intro s hend
  exact h s (hnext _ _ hend)

theorem reflects_mapM {f : α → StateM σ β} {as : List α}
    (h : ∀ a ∈ as, Reflects well (f a)) : Reflects well (as.mapM f) := by
  induction as with
  | nil => exact reflects_pure
  | cons a as ih =>
    rw [List.mapM_cons]
    refine reflects_bind (h a List.mem_cons_self) ?_
    intro b
    refine reflects_bind (ih ?_) fun _ => reflects_pure
    intro a' ha'
    exact h a' (List.mem_cons_of_mem _ ha')

theorem ensures_pure {a : α} {post : α → Prop} (h : post a) :
    Ensures well inv (pure a : StateM σ α) post :=
  fun _ _ hinv => ⟨hinv, h⟩

theorem ensures_imp {step : StateM σ α} {post post' : α → Prop}
    (h : Ensures well inv step post) (imp : ∀ a, post a → post' a) :
    Ensures well inv step post' := by
  intro s hend hinv
  obtain ⟨hinv, hpost⟩ := h s hend hinv
  exact ⟨hinv, imp _ hpost⟩

theorem ensures_bind {step : StateM σ α} {next : α → StateM σ β} {post : α → Prop}
    {post' : β → Prop} (h : Ensures well inv step post)
    (reflects : ∀ a, Reflects well (next a))
    (hnext : ∀ a, post a → Ensures well inv (next a) post') :
    Ensures well inv (step >>= next) post' := by
  intro s hend hinv
  obtain ⟨hinv, hpost⟩ := h s (reflects _ _ hend) hinv
  exact hnext _ hpost _ hend hinv

theorem ensures_mapM {f : α → StateM σ β} {rel : α → β → Prop}
    {as : List α} (reflects : ∀ a ∈ as, Reflects well (f a))
    (h : ∀ a ∈ as, Ensures well inv (f a) (rel a)) :
    Ensures well inv (as.mapM f) (List.Forall₂ rel as) := by
  induction as with
  | nil => exact ensures_pure .nil
  | cons a as ih =>
    rw [List.mapM_cons]
    refine ensures_bind (h a List.mem_cons_self) ?_ ?_
    · intro b
      refine reflects_bind (reflects_mapM ?_) fun _ => reflects_pure
      intro a' ha'
      exact reflects a' (List.mem_cons_of_mem _ ha')
    · intro b hb
      refine ensures_bind (ih ?_ ?_) (fun _ => reflects_pure) ?_
      · intro a' ha'
        exact reflects a' (List.mem_cons_of_mem _ ha')
      · intro a' ha'
        exact h a' (List.mem_cons_of_mem _ ha')
      · intro bs hbs
        exact ensures_pure (.cons hb hbs)

end Steps

/-- Each element of the second of two related lists is related to one of the first. -/
theorem exists_of_mem_right {α β : Type} {rel : α → β → Prop} {as : List α} {bs : List β}
    (h : List.Forall₂ rel as bs) {b : β} (hb : b ∈ bs) : ∃ a ∈ as, rel a b := by
  induction h with
  | nil => cases hb
  | cons hrel _ ih =>
    rcases List.mem_cons.mp hb with rfl | hb
    · exact ⟨_, List.mem_cons_self, hrel⟩
    · obtain ⟨a, ha, hab⟩ := ih hb
      exact ⟨a, List.mem_cons_of_mem _ ha, hab⟩

/-- Related options both hold an element or both hold none. -/
theorem exists_of_rel {α β : Type} {rel : α → β → Prop} {o : Option α} {o' : Option β}
    (h : Option.Rel rel o o') :
    (∀ a, o = some a → ∃ b, o' = some b ∧ rel a b) ∧
      ∀ b, o' = some b → ∃ a, o = some a ∧ rel a b := by
  cases h with
  | none => exact ⟨nofun, nofun⟩
  | @some a b hrel =>
    constructor
    · intro a' ha
      obtain rfl := Option.some.inj ha
      exact ⟨b, rfl, hrel⟩
    · intro b' hb
      obtain rfl := Option.some.inj hb
      exact ⟨a, rfl, hrel⟩

/-! ### Terms -/

namespace Transform

variable {σ : Type}

/-- A transformation relates each term to what becomes of it: to its replacement, or else,
if `entered` holds of the term, to what its related parts are put together to. -/
structure Sound (well inv : σ → Prop) (entered : Term → Prop) (rel : Term → Term → Prop)
    (r : Transform (StateM σ)) : Prop where
  enter_reflects (t) : Reflects well (r.enter t)
  leave_reflects (t) : Reflects well (r.leave t)
  enter (t) : Ensures well inv (r.enter t) fun replaced =>
    replaced.elim (entered t) (rel t)
  leave {t parts} : entered t → List.Forall₂ rel t.children parts →
    Ensures well inv (r.leave (t.withChildren parts)) (rel t)

variable {well inv : σ → Prop} {entered : Term → Prop} {rel : Term → Term → Prop}
  {r : Transform (StateM σ)}

/-- A transformation that ends well started well, if it does so on its way in and on its way
out. -/
theorem reflects_term (enter : ∀ t, Reflects well (r.enter t))
    (leave : ∀ t, Reflects well (r.leave t)) (t : Term) : Reflects well (t.transformM r) := by
  induction t using Term.inductionOn with
  | step t ih =>
    rw [Term.transformM_eq]
    refine reflects_bind (enter t) ?_
    intro replaced
    cases replaced with
    | some u => exact reflects_pure
    | none => exact reflects_bind (reflects_mapM ih) fun _ => leave _

/-- **A transformation relates a term to what becomes of it**, if it does so for every term of
a kind that the parts of such a term are of, too. -/
theorem ensures_term {holds : Term → Prop}
    (child : ∀ {t u}, holds t → u ∈ t.children → holds u)
    (enter_reflects : ∀ t, Reflects well (r.enter t))
    (leave_reflects : ∀ t, Reflects well (r.leave t))
    (enter : ∀ {t}, holds t → Ensures well inv (r.enter t) fun replaced =>
      replaced.elim (entered t) (rel t))
    (leave : ∀ {t parts}, holds t → entered t → List.Forall₂ rel t.children parts →
      Ensures well inv (r.leave (t.withChildren parts)) (rel t))
    {t : Term} (h : holds t) : Ensures well inv (t.transformM r) (rel t) := by
  induction t using Term.inductionOn with
  | step t ih =>
    have term (u : Term) : Reflects well (u.transformM r) :=
      reflects_term enter_reflects leave_reflects u
    rw [Term.transformM_eq]
    refine ensures_bind (enter h) ?_ ?_
    · intro replaced
      cases replaced with
      | some u => exact reflects_pure
      | none => exact reflects_bind (reflects_mapM fun u _ => term u) fun _ => leave_reflects _
    · intro replaced hreplaced
      cases replaced with
      | some u => exact ensures_pure hreplaced
      | none =>
        have parts : Ensures well inv (t.children.mapM (Term.transformM r))
            (List.Forall₂ rel t.children) :=
          ensures_mapM (fun u _ => term u) fun u hu => ih u hu (child h hu)
        refine ensures_bind parts (fun _ => leave_reflects _) ?_
        intro us hus
        exact leave h hreplaced hus

variable (sound : r.Sound well inv entered rel)
include sound

/-- A sound transformation that ends well started well. -/
theorem Sound.reflects (t : Term) : Reflects well (t.transformM r) :=
  reflects_term sound.enter_reflects sound.leave_reflects t

/-- **A sound transformation relates every term to what becomes of it.** -/
theorem Sound.ensures (t : Term) : Ensures well inv (t.transformM r) (rel t) := by
  have every {t u : Term} (_ : True) (_ : u ∈ t.children) : True := trivial
  exact ensures_term every sound.enter_reflects sound.leave_reflects (fun _ => sound.enter _)
    (fun _ => sound.leave) trivial

end Transform

/-! ### Stages and results -/

/-- The accumulators are the same but for their sources, which are related. -/
def Accumulator.Related (rel : Term → Term → Prop) (a a' : Accumulator) : Prop :=
  ∃ source, a' = { a with source } ∧ rel a.source source

/-- The keys are the same but for their terms, which are related. -/
def RowKey.Related (rel : Term → Term → Prop) (k k' : RowKey) : Prop :=
  ∃ key, k' = { k with key } ∧ rel k.key key

/-- The stages are the same but for their terms, which are related; a group may compute
more accumulators, which have a property. -/
inductive Stage.Related (rel : Term → Term → Prop) (added : Accumulator → Prop) :
    Stage → Stage → Prop where
  | filter {predicate predicate'} :
      rel predicate predicate' → Related rel added (.filter predicate) (.filter predicate')
  | project {selector selector'} :
      rel selector selector' → Related rel added (.project selector) (.project selector')
  | group {id id' accumulators accumulators' more} :
      rel id id' → List.Forall₂ (Accumulator.Related rel) accumulators accumulators' →
      (∀ a ∈ more, added a) →
      Related rel added (.group id accumulators) (.group id' (accumulators' ++ more))
  | sort {keys keys'} :
      List.Forall₂ (RowKey.Related rel) keys keys' →
      Related rel added (.sort keys) (.sort keys')
  | skip {count} : Related rel added (.skip count) (.skip count)
  | limit {count} : Related rel added (.limit count) (.limit count)
  | unwind {path} : Related rel added (.unwind path) (.unwind path)

/-- The results are the same but for their sources, which are related. -/
def Terminal.Related (rel : Term → Term → Prop) (r r' : Terminal) : Prop :=
  ∃ source, r' = { r with source } ∧ rel r.source source

/-- The pipelines have related terms. -/
structure Pipeline.Related (rel : Term → Term → Prop) (added : Accumulator → Prop)
    (p p' : Pipeline) : Prop where
  stages : List.Forall₂ (Stage.Related rel added) p.stages p'.stages
  projector : rel p.projector p'.projector
  result : Option.Rel (Terminal.Related rel) p.result p'.result

section Related

variable {rel rel' : Term → Term → Prop} {added added' : Accumulator → Prop}

theorem Stage.Related.isGroup {s s' : Stage} (h : s.Related rel added s') :
    s'.isGroup = s.isGroup := by
  cases h <;> rfl

theorem Stage.Related.mono (hrel : ∀ t u, rel t u → rel' t u)
    (hadded : ∀ a, added a → added' a) {s s' : Stage} (h : s.Related rel added s') :
    s.Related rel' added' s' := by
  cases h with
  | filter h => exact .filter (hrel _ _ h)
  | project h => exact .project (hrel _ _ h)
  | group hid haccumulators hmore =>
    refine .group (hrel _ _ hid) (haccumulators.imp ?_) fun a ha => hadded a (hmore a ha)
    rintro a a' ⟨source, rfl, hsource⟩
    exact ⟨source, rfl, hrel _ _ hsource⟩
  | sort hkeys =>
    refine .sort (hkeys.imp ?_)
    rintro k k' ⟨key, rfl, hkey⟩
    exact ⟨key, rfl, hrel _ _ hkey⟩
  | skip => exact .skip
  | limit => exact .limit
  | unwind => exact .unwind

theorem Terminal.Related.mono (hrel : ∀ t u, rel t u → rel' t u)
    {o o' : Option Terminal} (h : Option.Rel (Terminal.Related rel) o o') :
    Option.Rel (Terminal.Related rel') o o' := by
  cases h with
  | none => exact .none
  | some hr =>
    obtain ⟨source, rfl, hsource⟩ := hr
    exact .some ⟨source, rfl, hrel _ _ hsource⟩

theorem Pipeline.Related.mono (hrel : ∀ t u, rel t u → rel' t u)
    (hadded : ∀ a, added a → added' a) {p p' : Pipeline} (h : p.Related rel added p') :
    p.Related rel' added' p' where
  stages := h.stages.imp fun _ _ => .mono hrel hadded
  projector := hrel _ _ h.projector
  result := Terminal.Related.mono hrel h.result

end Related

section Stages

variable {σ : Type} {well inv : σ → Prop} {rel : Term → Term → Prop}
  {r : Transform (StateM σ)} (reflects : ∀ t : Term, Reflects well (t.transformM r))
include reflects

theorem Stage.reflects_transformM (s : Stage) : Reflects well (s.transformM r) := by
  cases s with
  | filter t | project t =>
    exact reflects_bind (reflects t) fun _ => reflects_pure
  | group id accumulators =>
    refine reflects_bind (reflects id) ?_
    intro _
    refine reflects_bind (reflects_mapM ?_) fun _ => reflects_pure
    intro a _
    exact reflects_bind (reflects a.source) fun _ => reflects_pure
  | sort keys =>
    refine reflects_bind (reflects_mapM ?_) fun _ => reflects_pure
    intro k _
    exact reflects_bind (reflects k.key) fun _ => reflects_pure
  | skip | limit | unwind => exact reflects_pure

/-- A stage is related to what becomes of it if its terms are. -/
theorem Stage.ensures_transformM {added : Accumulator → Prop} {s : Stage}
    (h : ∀ t ∈ s.terms, Ensures well inv (t.transformM r) (rel t)) :
    Ensures well inv (s.transformM r) (s.Related rel added) := by
  cases s with
  | filter predicate =>
    refine ensures_bind (h predicate List.mem_cons_self) (fun _ => reflects_pure) ?_
    intro u hu
    exact ensures_pure (.filter hu)
  | project selector =>
    refine ensures_bind (h selector List.mem_cons_self) (fun _ => reflects_pure) ?_
    intro u hu
    exact ensures_pure (.project hu)
  | group id accumulators =>
    have started (a : Accumulator) : Reflects well (do
        return { a with source := ← a.source.transformM r }) :=
      reflects_bind (reflects a.source) fun _ => reflects_pure
    have computed (a : Accumulator) (ha : a ∈ accumulators) : Ensures well inv (do
        return { a with source := ← a.source.transformM r }) (a.Related rel) := by
      have hterm := h a.source (List.mem_cons_of_mem _ (List.mem_map_of_mem ha))
      refine ensures_bind hterm (fun _ => reflects_pure) ?_
      intro source hsource
      exact ensures_pure ⟨source, rfl, hsource⟩
    refine ensures_bind (h id List.mem_cons_self) ?_ ?_
    · intro _
      exact reflects_bind (reflects_mapM fun a _ => started a) fun _ => reflects_pure
    · intro id' hid
      refine ensures_bind (ensures_mapM (fun a _ => started a) computed)
        (fun _ => reflects_pure) ?_
      intro accumulators' haccumulators
      have hgroup : Stage.Related rel added (.group id accumulators)
          (.group id' (accumulators' ++ [])) := .group hid haccumulators nofun
      rw [List.append_nil] at hgroup
      exact ensures_pure hgroup
  | sort keys =>
    have started (k : RowKey) : Reflects well (do
        return { k with key := ← k.key.transformM r }) :=
      reflects_bind (reflects k.key) fun _ => reflects_pure
    have sorted (k : RowKey) (hk : k ∈ keys) : Ensures well inv (do
        return { k with key := ← k.key.transformM r }) (k.Related rel) := by
      refine ensures_bind (h k.key (List.mem_map_of_mem hk)) (fun _ => reflects_pure) ?_
      intro key hkey
      exact ensures_pure ⟨key, rfl, hkey⟩
    refine ensures_bind (ensures_mapM (fun k _ => started k) sorted)
      (fun _ => reflects_pure) ?_
    intro keys' hkeys
    exact ensures_pure (.sort hkeys)
  | skip => exact ensures_pure .skip
  | limit => exact ensures_pure .limit
  | unwind => exact ensures_pure .unwind

namespace Pipeline

theorem reflects_transformTerminal (result : Option Terminal) :
    Reflects well (transformTerminal r result) := by
  cases result with
  | none => exact reflects_pure
  | some result => exact reflects_bind (reflects result.source) fun _ => reflects_pure

omit reflects in
/-- A result is related to what becomes of it if its source is. -/
theorem ensures_transformTerminal {result : Option Terminal}
    (h : ∀ x ∈ result, Ensures well inv (x.source.transformM r) (rel x.source)) :
    Ensures well inv (transformTerminal r result) (Option.Rel (Terminal.Related rel) result) := by
  cases result with
  | none => exact ensures_pure .none
  | some result =>
    refine ensures_bind (h result rfl) (fun _ => reflects_pure) ?_
    intro source hsource
    exact ensures_pure (.some ⟨source, rfl, hsource⟩)

/-- A pipeline is related to what becomes of it if its terms are. -/
theorem ensures_transform {p : Pipeline}
    (ofStages : ∀ s ∈ p.stages, ∀ t ∈ s.terms, Ensures well inv (t.transformM r) (rel t))
    (ofProjector : Ensures well inv (p.projector.transformM r) (rel p.projector))
    (ofResult : ∀ x ∈ p.result, Ensures well inv (x.source.transformM r) (rel x.source)) :
    Ensures well inv (do
        let stages ← p.stages.mapM (Stage.transformM r)
        let projector ← p.projector.transformM r
        let result ← transformTerminal r p.result
        return { p with stages, projector, result })
      (p.Related rel fun _ => False) := by
  have result := reflects_transformTerminal reflects p.result
  have stages : Ensures well inv (p.stages.mapM (Stage.transformM r))
      (List.Forall₂ (Stage.Related rel fun _ => False) p.stages) :=
    ensures_mapM (fun s _ => s.reflects_transformM reflects)
      fun s hs => Stage.ensures_transformM reflects (ofStages s hs)
  refine ensures_bind stages ?_ ?_
  · intro _
    exact reflects_bind (reflects p.projector)
      fun _ => reflects_bind result fun _ => reflects_pure
  · intro stages' hstages
    refine ensures_bind ofProjector ?_ ?_
    · intro _
      exact reflects_bind result fun _ => reflects_pure
    · intro projector' hprojector
      refine ensures_bind (ensures_transformTerminal ofResult) (fun _ => reflects_pure) ?_
      intro result' hresult
      exact ensures_pure ⟨hstages, hprojector, hresult⟩

end Pipeline

end Stages

end QueryPipeline
