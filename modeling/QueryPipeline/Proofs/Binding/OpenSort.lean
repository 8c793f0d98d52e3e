import QueryPipeline.Proofs.Binding.Terms

/-!
Further keys of a sort. A pipeline remembers that its last operator sorted (`sortOpen`):
every operator closes the sort that was open before it, and only the operators that sort leave
one open (`Operator.sortOpen_apply`). An open sort is the last stage and no paging is held
back behind it (`Pipeline.Settled`), so that a further key is appended to it in place
(`Query.thenBy_extends_open_sort`).
-/

namespace QueryPipeline

/-- Whether a further key may follow the operator. -/
def Operator.isSort : Operator → Bool
  | .sortBy _ | .thenBy _ => true
  | _ => false

/-- The names of the methods that a further key may follow. -/
def Operator.sortNames : List String :=
  ["OrderBy", "OrderByDescending", "ThenBy", "ThenByDescending"]

/-- The methods that give a sort a further key, each with the direction of the key. -/
def Operator.furtherKeys : List (String × Direction) :=
  [("ThenBy", .ascending), ("ThenByDescending", .descending)]

/-- The operators that sort are known by their names. -/
theorem Operator.isSort_of_ofCall {call : Call Expr} {op : Operator}
    (h : Operator.ofCall call = .ok op) : op.isSort = sortNames.contains call.name := by
  have all : ∀ op ∈ known, op.isSort = sortNames.contains op.name := by decide
  rw [all op op.mem_known, (ofCall_eq_ok_iff.mp h).1]

/-- A further key is asked for by name, on a queryable or an enumerable sequence. -/
theorem Operator.ofCall_furtherKey {call : Call Expr} {direction : Direction}
    (named : (call.name, direction) ∈ furtherKeys)
    (declared : call.declaringType ∈ ["Queryable", "Enumerable", "MongoQueryable"])
    (single : call.arguments.length = 1) : ofCall call = .ok (.thenBy direction) := by
  rw [ofCall_eq_ok_iff]
  refine ⟨?_, declared, List.mem_singleton.mpr single⟩
  simp only [furtherKeys, List.mem_cons, Prod.mk.injEq, List.not_mem_nil, or_false] at named
  obtain ⟨hname, rfl⟩ | ⟨hname, rfl⟩ := named <;> exact hname.symm

namespace Pipeline

variable {p p' : Pipeline}

/-! ### Operators that leave the flag alone -/

theorem sortOpen_unwind {collection item : Term} {site : String}
    (h : p.unwind collection site = .ok (p', item)) : p'.sortOpen = p.sortOpen := by
  unfold unwind at h
  split at h
  · split at h
    · split at h
      · cases h
        rfl
      · cases h
      · cases h
    · cases h
  · cases h

theorem sortOpen_groupBy {key element : Term} {site : String}
    (h : p.groupBy key element site = .ok p') : p'.sortOpen = p.sortOpen := by
  unfold groupBy at h
  split at h
  · cases h
  · cases h
    rfl

theorem sortOpen_distinct {site : String} (h : p.distinct site = .ok p') :
    p'.sortOpen = p.sortOpen := by
  unfold distinct at h
  split at h
  · cases h
  · cases h
    rfl

theorem sortOpen_ofType {m : ClassMap} {site : String} (h : p.ofType m site = .ok p') :
    p'.sortOpen = p.sortOpen := by
  unfold ofType at h
  split at h
  · cases h
    rfl
  · cases h

@[simp] theorem sortOpen_aggregate (kind : Aggregate) (source : Term) :
    (p.aggregate kind source).sortOpen = p.sortOpen := by
  cases kind <;> rfl

theorem sortOpen_anyMatching {predicate : Option Lambda} :
    (predicate.elim p fun l => p.filter l.body).any.sortOpen = p.sortOpen := by
  cases predicate <;> rfl

/-! ### Sorts -/

/-- A sort that is open for further keys is the last stage, with no paging behind it. -/
def Settled (p : Pipeline) : Prop :=
  p.sortOpen = true → p.paging = {} ∧ ∃ before keys, p.stages = before ++ [.sort keys]

theorem settled_ofRoot (codec : Codec) : (ofRoot codec).Settled :=
  fun hopen => absurd hopen Bool.false_ne_true

/-- Another key for the last stage, which is a sort, and nothing else. -/
def AddsKey (p : Pipeline) (key : RowKey) (p' : Pipeline) : Prop :=
  ∃ before keys, p.stages = before ++ [.sort keys] ∧
    p' = { p with stages := before ++ [.sort (keys ++ [key])] }

theorem extendSort?_eq_some {key : RowKey} :
    p.extendSort? key = some p' ↔ p.AddsKey key p' := by
  unfold extendSort?
  constructor
  · intro h
    split at h
    · rename_i keys hlast
      obtain ⟨before, hstages⟩ := List.getLast?_eq_some_iff.mp hlast
      cases h
      exact ⟨before, keys, hstages, by rw [hstages, List.dropLast_concat]⟩
    · cases h
  · rintro ⟨before, keys, hstages, rfl⟩
    simp [hstages]

/-- A further key is taken just when the last operator sorted and the last stage is a sort. -/
theorem thenBy_eq_ok {key : Lambda} {direction : Direction} {site : String} :
    Sequence.thenBy p key direction site = .ok p' ↔
      p.sortOpen = true ∧ p.AddsKey ⟨key.body, direction⟩ p' := by
  rw [← extendSort?_eq_some]
  simp only [Sequence.thenBy]
  constructor
  · intro h
    split at h
    · rename_i hopen hextend
      cases h
      exact ⟨hopen, hextend⟩
    · cases h
  · rintro ⟨hopen, hextend⟩
    rw [hopen, hextend]

namespace AddsKey

variable {key : RowKey}

theorem sortOpen (h : p.AddsKey key p') : p'.sortOpen = p.sortOpen := by
  obtain ⟨before, keys, -, rfl⟩ := h
  rfl

theorem settled (h : p.AddsKey key p') (hp : p.Settled) : p'.Settled := by
  obtain ⟨before, keys, -, rfl⟩ := h
  exact fun hopen => ⟨(hp hopen).1, before, _, rfl⟩

end AddsKey

/-- An open sort takes one key more. -/
theorem Settled.exists_addsKey (h : p.Settled) (hopen : p.sortOpen = true) (key : RowKey) :
    ∃ p', p.AddsKey key p' := by
  obtain ⟨-, before, keys, hstages⟩ := h hopen
  exact ⟨_, before, keys, hstages, rfl⟩

end Pipeline

/-! ### One operator -/

/-- The pipeline that an operator leaves, as a sequence or as a result. -/
def Applied.pipeline : Applied Pipeline Pipeline → Pipeline
  | .sequence p => p
  | .terminal p => p

@[simp] theorem Applied.pipeline_sequence (p : Pipeline) :
    (Applied.sequence p : Applied Pipeline Pipeline).pipeline = p := rfl

@[simp] theorem Applied.pipeline_terminal (p : Pipeline) :
    (Applied.terminal p : Applied Pipeline Pipeline).pipeline = p := rfl

namespace Operator

open Pipeline

variable {registry : Registry} {p p' : Pipeline} {call : Call Argument} {c c' : Context}

theorem sortOpen_optionalFilter (h : (optionalFilter p call).Yields c p' c') :
    p'.sortOpen = p.sortOpen := by
  simp only [optionalFilter, BindM.yields_bind] at h
  obtain ⟨predicate, c₁, -, h⟩ := h
  cases predicate with
  | none =>
    obtain ⟨rfl, rfl⟩ := BindM.yields_pure.mp h
    rfl
  | some l =>
    obtain ⟨hfilter, rfl⟩ := BindM.yields_ofExcept.mp h
    cases hfilter
    rfl

theorem sortOpen_elementAtStep {pick : Pick} (h : (elementAtStep p pick call).Yields c p' c') :
    p'.sortOpen = p.sortOpen := by
  simp only [elementAtStep, BindM.yields_bind, BindM.yields_ofExcept] at h
  obtain ⟨n, c₁, -, p₁, c₂, ⟨hskip, rfl⟩, helement⟩ := h
  cases hskip
  obtain ⟨rfl, rfl⟩ := BindM.yields_pure.mp helement
  rfl

theorem sortOpen_flattenStep (h : (flattenStep p call).Yields c p' c') :
    p'.sortOpen = p.sortOpen := by
  simp only [flattenStep, BindM.yields_bind, BindM.yields_ofExcept] at h
  obtain ⟨collection, c₁, -, ⟨p₁, item⟩, c₂, ⟨hunwind, rfl⟩, selector, c₃, -, hproject, rfl⟩ := h
  have unwound : p₁.sortOpen = p.sortOpen := sortOpen_unwind hunwind
  cases hproject
  exact unwound

theorem sortOpen_groupStep (h : (groupStep p call).Yields c p' c') :
    p'.sortOpen = p.sortOpen := by
  simp only [groupStep, BindM.yields_bind, BindM.yields_ofExcept] at h
  obtain ⟨key, c₁, -, ⟨element, rest⟩, c₂, -, groups, c₃, ⟨hgroups, rfl⟩, h⟩ := h
  have grouped : groups.sortOpen = p.sortOpen := sortOpen_groupBy hgroups
  cases rest with
  | none =>
    obtain ⟨rfl, rfl⟩ := BindM.yields_pure.mp h
    exact grouped
  | some a =>
    simp only [projectGroups, BindM.yields_bind, BindM.yields_ofExcept] at h
    obtain ⟨selector, c₄, -, hproject, rfl⟩ := h
    cases hproject
    exact grouped

/-- **Just the operators that sort leave a sort open**, and what they leave open is the last
stage. -/
theorem sortOpen_apply {op : Operator} {a : Applied Pipeline Pipeline} (hp : p.Settled)
    (h : (op.apply registry p call).Yields c a c') :
    a.pipeline.sortOpen = op.isSort ∧ a.pipeline.Settled := by
  unfold apply at h
  generalize hp₀ : (if op.keepsSortOpen then p else Sequence.closeSort p) = p₀ at h
  -- Where the sort is closed first, the operator has only to leave the flag alone.
  have closed {p' : Pipeline} (closes : op.keepsSortOpen = false)
      (h : p'.sortOpen = p₀.sortOpen) : p'.sortOpen = false ∧ p'.Settled := by
    have hp' : p'.sortOpen = false := by
      rw [h, ← hp₀, closes]
      rfl
    exact ⟨hp', fun hopen => absurd (hp'.symm.trans hopen) Bool.false_ne_true⟩
  cases op with
  | sortBy direction =>
    simp only [BindM.yields_bind, yields_next] at h
    obtain ⟨l, c₁, -, p', hsort, rfl, rfl⟩ := h
    cases hsort
    exact ⟨rfl, fun _ => ⟨rfl, _, _, rfl⟩⟩
  | thenBy direction =>
    simp only [BindM.yields_bind, yields_next] at h
    obtain ⟨l, c₁, -, p', hthen, rfl, rfl⟩ := h
    subst hp₀
    obtain ⟨hopen, adds⟩ := thenBy_eq_ok.mp hthen
    exact ⟨adds.sortOpen.trans hopen, adds.settled hp⟩
  | filter | project | skip | take =>
    simp only [BindM.yields_bind, yields_next] at h
    obtain ⟨_, c₁, -, p', hp', rfl, rfl⟩ := h
    cases hp'
    exact closed rfl rfl
  | flatten =>
    simp only [BindM.yields_bind, BindM.yields_pure] at h
    obtain ⟨p', c₁, hp', rfl, rfl⟩ := h
    exact closed rfl (sortOpen_flattenStep hp')
  | groupBy =>
    simp only [BindM.yields_bind, BindM.yields_pure] at h
    obtain ⟨p', c₁, hp', rfl, rfl⟩ := h
    exact closed rfl (sortOpen_groupStep hp')
  | distinct =>
    simp only [yields_next] at h
    obtain ⟨p', hp', rfl, rfl⟩ := h
    exact closed rfl (sortOpen_distinct hp')
  | ofType =>
    simp only [BindM.yields_bind, yields_next] at h
    obtain ⟨m, c₁, -, p', hp', rfl, rfl⟩ := h
    exact closed rfl (sortOpen_ofType hp')
  | any | contains =>
    simp only [BindM.yields_bind, yields_done] at h
    obtain ⟨_, c₁, -, r, hr, rfl, rfl⟩ := h
    cases hr
    exact closed rfl sortOpen_anyMatching
  | all =>
    simp only [BindM.yields_bind, yields_done] at h
    obtain ⟨l, c₁, -, r, hr, rfl, rfl⟩ := h
    cases hr
    exact closed rfl rfl
  | aggregate kind =>
    cases kind with
    | count | longCount =>
      simp only [BindM.yields_bind, BindM.yields_pure] at h
      obtain ⟨p', c₁, hp', r, c₂, hr, rfl, rfl⟩ := h
      obtain ⟨rfl, rfl⟩ := BindM.yields_pure.mp hr
      rw [Applied.pipeline_terminal]
      exact closed rfl ((sortOpen_aggregate _ _).trans (sortOpen_optionalFilter hp'))
    | sum | average | min | max =>
      simp only [BindM.yields_bind, BindM.yields_pure] at h
      obtain ⟨_, c₁, -, r, c₂, hr, rfl, rfl⟩ := h
      obtain ⟨rfl, rfl⟩ := BindM.yields_pure.mp hr
      rw [Applied.pipeline_terminal]
      exact closed rfl (sortOpen_aggregate _ _)
  | element pick =>
    simp only [BindM.yields_bind, BindM.yields_pure] at h
    obtain ⟨p', c₁, hp', r, c₂, hr, rfl, rfl⟩ := h
    obtain ⟨rfl, rfl⟩ := BindM.yields_pure.mp hr
    have kept : p'.sortOpen = p₀.sortOpen := sortOpen_optionalFilter hp'
    exact closed rfl kept
  | elementAt | elementAtOrDefault =>
    simp only [BindM.yields_bind, BindM.yields_pure] at h
    obtain ⟨r, c₁, hr, rfl, rfl⟩ := h
    exact closed rfl (sortOpen_elementAtStep hr)
  | union | except | intersect =>
    simp only [combineStep, BindM.yields_bind, BindM.yields_ofExcept] at h
    obtain ⟨_, _, ⟨t, c₁, -, hcombine, -⟩, -⟩ := h
    cases hcombine
  | toList | toArray =>
    obtain ⟨rfl, rfl⟩ := BindM.yields_pure.mp h
    exact closed rfl rfl
  | asQueryable =>
    obtain ⟨rfl, rfl⟩ := BindM.yields_pure.mp h
    exact closed rfl rfl

/-- An operator that sorts does not end the sequence. -/
theorem sequence_of_isSort {op : Operator} {a : Applied Pipeline Pipeline}
    (sorts : op.isSort = true) (h : (op.apply registry p call).Yields c a c') :
    ∃ p', a = .sequence p' := by
  cases op with
  | sortBy direction | thenBy direction =>
    simp only [apply, BindM.yields_bind, yields_next] at h
    obtain ⟨l, c₁, -, p', -, rfl, -⟩ := h
    exact ⟨p', rfl⟩
  | _ => cases sorts

end Operator

/-! ### Lists of clauses -/

namespace Query

variable {registry : Registry} {p p₁ : Pipeline} {c c₁ : Context} {clauses : List (Call Expr)}

/-- Whether the last clause of a list sorts; an empty list leaves the sort before it. -/
def lastSorts (before : Bool) (clauses : List (Call Expr)) : Bool :=
  clauses.getLast?.elim before fun clause => Operator.sortNames.contains clause.name

theorem lastSorts_cons {before : Bool} {clause : Call Expr} :
    lastSorts before (clause :: clauses) =
      lastSorts (Operator.sortNames.contains clause.name) clauses := by
  cases clauses <;> simp [lastSorts, List.getLast?_cons]

/-- **A sort is open after clauses just if the last one sorts.** -/
theorem sortOpen_bindClauses (hp : p.Settled)
    (h : (bindClauses registry p clauses).Yields c p₁ c₁) :
    p₁.sortOpen = lastSorts p.sortOpen clauses ∧ p₁.Settled := by
  induction clauses generalizing p c with
  | nil =>
    obtain ⟨rfl, rfl⟩ := BindM.yields_pure.mp h
    exact ⟨rfl, hp⟩
  | cons clause rest ih =>
    simp only [bindClauses, BindM.yields_bind, BindM.yields_ofExcept] at h
    obtain ⟨op, _, ⟨hop, rfl⟩, applied, c₂, happly, h⟩ := h
    obtain ⟨hopen, hsettled⟩ := Operator.sortOpen_apply hp happly
    rw [Operator.isSort_of_ofCall hop] at hopen
    rw [lastSorts_cons, ← hopen]
    cases applied with
    | sequence p₂ => exact ih hsettled h
    | terminal p₂ =>
      cases rest with
      | nil =>
        obtain ⟨rfl, rfl⟩ := BindM.yields_pure.mp h
        exact ⟨rfl, hsettled⟩
      | cons next rest => exact absurd h BindM.not_yields_unsupported

/-- A further clause starts from what the clauses before it leave, unless these end the
sequence: then it is refused. -/
theorem bindClauses_concat (hp : p.Settled)
    (h : (bindClauses registry p clauses).Yields c p₁ c₁) (clause : Call Expr) :
    (∀ p' c', (bindClauses registry p (clauses ++ [clause])).Yields c p' c' ↔
      (bindClauses registry p₁ [clause]).Yields c₁ p' c') ∨
    (p₁.sortOpen = false ∧
      ∀ p' c', ¬ (bindClauses registry p (clauses ++ [clause])).Yields c p' c') := by
  induction clauses generalizing p c with
  | nil =>
    obtain ⟨rfl, rfl⟩ := BindM.yields_pure.mp h
    exact .inl fun _ _ => .rfl
  | cons first rest ih =>
    simp only [bindClauses, BindM.yields_bind, BindM.yields_ofExcept] at h
    obtain ⟨op, _, ⟨hop, rfl⟩, applied, c₂, happly, h⟩ := h
    have operator : (BindM.ofExcept (Operator.ofCall first)).Yields c op c :=
      BindM.yields_ofExcept.mpr ⟨hop, rfl⟩
    obtain ⟨hflag, hsettled⟩ := Operator.sortOpen_apply hp happly
    simp only [List.cons_append, bindClauses, operator.bind_iff, happly.bind_iff]
    cases applied with
    | sequence p₂ => exact ih hsettled h
    | terminal p₂ =>
      cases rest with
      | nil =>
        obtain ⟨rfl, rfl⟩ := BindM.yields_pure.mp h
        refine .inr ⟨?_, fun _ _ => BindM.not_yields_unsupported⟩
        rw [Bool.eq_false_iff]
        intro hopen
        obtain ⟨p', hp'⟩ := Operator.sequence_of_isSort (hflag.symm.trans hopen) happly
        cases hp'
      | cons next rest => exact absurd h BindM.not_yields_unsupported

/-- A further key behind clauses that leave a pipeline: it is bound just if they leave a sort
open, and then to a key more for that sort. -/
theorem bindClauses_thenBy {clause : Call Expr} {direction : Direction} {key : Lambda}
    {c' : Context} (hop : Operator.ofCall clause = .ok (.thenBy direction))
    (hkey : ((Expr.bindArguments registry clause).lambda p).Yields c key c')
    {p' : Pipeline} {c'' : Context} :
    (bindClauses registry p [clause]).Yields c p' c'' ↔
      p.sortOpen = true ∧ p.AddsKey ⟨key.body, direction⟩ p' ∧ c' = c'' := by
  have operator : (BindM.ofExcept (Operator.ofCall clause)).Yields c (.thenBy direction) c :=
    BindM.yields_ofExcept.mpr ⟨hop, rfl⟩
  simp only [bindClauses, operator.bind_iff, Operator.apply, Operator.keepsSortOpen, if_true,
    bind_assoc, hkey.bind_iff, BindM.yields_bind, Operator.yields_next,
    Pipeline.thenBy_eq_ok]
  constructor
  · rintro ⟨_, c₂, ⟨p₂, ⟨hopen, adds⟩, rfl, rfl⟩, h⟩
    obtain ⟨rfl, rfl⟩ := BindM.yields_pure.mp h
    exact ⟨hopen, adds, rfl⟩
  · rintro ⟨hopen, adds, rfl⟩
    exact ⟨_, _, ⟨p', ⟨hopen, adds⟩, rfl, rfl⟩, BindM.yields_pure.mpr ⟨rfl, rfl⟩⟩

/-- The query with one clause more. -/
def followedBy (q : Query) (clause : Call Expr) : Query :=
  { q with clauses := q.clauses ++ [clause] }

variable {q : Query}

theorem sortOpen_bind (h : (q.bind registry).Yields {} p c) :
    p.sortOpen = lastSorts false q.clauses ∧ p.Settled := by
  unfold bind at h
  split at h
  · exact sortOpen_bindClauses (Pipeline.settled_ofRoot _) h
  · exact absurd h BindM.not_yields_throw

/-- A further key behind a query, if its selector can be bound. -/
theorem bind_thenBy {clause : Call Expr} {direction : Direction} {key : Lambda}
    {c' : Context} (h : (q.bind registry).Yields {} p c)
    (hop : Operator.ofCall clause = .ok (.thenBy direction))
    (hkey : ((Expr.bindArguments registry clause).lambda p).Yields c key c')
    {p' : Pipeline} {c'' : Context} :
    ((q.followedBy clause).bind registry).Yields {} p' c'' ↔
      p.sortOpen = true ∧ p.AddsKey ⟨key.body, direction⟩ p' ∧ c' = c'' := by
  rw [← bindClauses_thenBy hop hkey]
  unfold bind at h ⊢
  split at h
  · rename_i codec hcodec
    simp only [followedBy, hcodec]
    rcases bindClauses_concat (Pipeline.settled_ofRoot codec) h clause with
      goesOn | ⟨hclosed, refused⟩
    · exact goesOn p' c''
    · refine iff_of_false (refused p' c'') ?_
      rw [bindClauses_thenBy hop hkey, hclosed]
      simp
  · exact absurd h BindM.not_yields_throw

/-- **A further key extends just an open sort.** Behind a query that binds to a pipeline, a call of
`ThenBy` or `ThenByDescending` whose selector binds is accepted just if the clause right before it
sorts. Then its key comes, ascending or descending, behind the keys of the last stage, which is a
sort, and nothing else of the pipeline changes. A pipeline has an open sort just if the last
clause of its query sorts; the sort is then the last stage, with no paging behind it. -/
theorem thenBy_extends_open_sort {clause : Call Expr} {direction : Direction} {key : Lambda}
    {c' : Context} (h : (q.bind registry).Yields {} p c)
    (named : (clause.name, direction) ∈ Operator.furtherKeys)
    (declared : clause.declaringType ∈ ["Queryable", "Enumerable", "MongoQueryable"])
    (single : clause.arguments.length = 1)
    (hkey : ((Expr.bindArguments registry clause).lambda p).Yields c key c') :
    ((∃ p' c'', ((q.followedBy clause).bind registry).Yields {} p' c'') ↔
      ∃ before, q.clauses.getLast? = some before ∧ before.name ∈ Operator.sortNames) ∧
    (∀ p' c'', ((q.followedBy clause).bind registry).Yields {} p' c'' →
      c'' = c' ∧ ∃ before keys, p.stages = before ++ [.sort keys] ∧
        p' = { p with stages := before ++ [.sort (keys ++ [⟨key.body, direction⟩])] }) ∧
    (p.sortOpen = true ↔
      ∃ before, q.clauses.getLast? = some before ∧ before.name ∈ Operator.sortNames) ∧
    (p.sortOpen = true → p.paging.isPending = false ∧
      ∃ before keys, p.stages = before ++ [.sort keys]) := by
  have hop := Operator.ofCall_furtherKey named declared single
  obtain ⟨hflag, hsettled⟩ := sortOpen_bind h
  have sorts : p.sortOpen = true ↔
      ∃ before, q.clauses.getLast? = some before ∧ before.name ∈ Operator.sortNames := by
    rw [hflag, lastSorts]
    cases q.clauses.getLast? <;> simp
  refine ⟨?_, ?_, sorts, ?_⟩
  · rw [← sorts]
    constructor
    · rintro ⟨p', c'', hbind⟩
      exact ((bind_thenBy h hop hkey).mp hbind).1
    · intro hopen
      obtain ⟨p', adds⟩ := hsettled.exists_addsKey hopen ⟨key.body, direction⟩
      exact ⟨p', c', (bind_thenBy h hop hkey).mpr ⟨hopen, adds, rfl⟩⟩
  · intro p' c'' hbind
    obtain ⟨-, adds, rfl⟩ := (bind_thenBy h hop hkey).mp hbind
    exact ⟨rfl, adds⟩
  · intro hopen
    obtain ⟨hpaging, hlast⟩ := hsettled hopen
    refine ⟨?_, hlast⟩
    rw [hpaging]
    rfl

/-- Persons with their city and their age. -/
def townspeople : Registry :=
  .ofList [.mk "Person" none
    [.mk "City" "city" (.static .string), .mk "Age" "age" (.static .int32)]]

/-- The townspeople that are of age, sorted by their city. -/
def adultsByCity : Query where
  collection := "people"
  itemType := .document "Person"
  clauses := [
    ⟨"Queryable", "Where", [], [.lambda ["x"]
      (.binary .gte (.member (.param "x") "Age") (.const (.int32 18) .int32))]⟩,
    ⟨"Queryable", "OrderBy", [], [.lambda ["x"] (.member (.param "x") "City")]⟩]

/-- Among equal ones, the oldest first. -/
def oldestFirst : Call Expr :=
  ⟨"Queryable", "ThenByDescending", [], [.lambda ["y"] (.member (.param "y") "Age")]⟩

/-- As it is bound, it ends in a sort that is open. -/
def adultsByCityBound : Pipeline where
  stages := [.filter (.binary .gte (.field (.field "age") .int32) (.const (.int32 18) .int32)),
    .sort [⟨.field (.field "city") .string, .ascending⟩]]
  projector := .root (townspeople.codec? (.document "Person")).get!
  sortOpen := true

theorem adultsByCity_take_further_key :
    (adultsByCity.bind townspeople).Yields {} adultsByCityBound {} ∧
      (oldestFirst.name, .descending) ∈ Operator.furtherKeys ∧
      oldestFirst.declaringType ∈ ["Queryable", "Enumerable", "MongoQueryable"] ∧
      oldestFirst.arguments.length = 1 ∧
      ((Expr.bindArguments townspeople oldestFirst).lambda adultsByCityBound).Yields {}
        ⟨"y", .field (.field "age") .int32⟩ {} ∧
      ∃ p' c', ((adultsByCity.followedBy oldestFirst).bind townspeople).Yields {} p' c' := by
  have bound : (adultsByCity.bind townspeople).Yields {} adultsByCityBound {} := rfl
  have named : (oldestFirst.name, .descending) ∈ Operator.furtherKeys := by decide
  have declared : oldestFirst.declaringType ∈ ["Queryable", "Enumerable", "MongoQueryable"] :=
    by decide
  have single : oldestFirst.arguments.length = 1 := rfl
  have key : ((Expr.bindArguments townspeople oldestFirst).lambda adultsByCityBound).Yields {}
      ⟨"y", .field (.field "age") .int32⟩ {} := rfl
  exact ⟨bound, named, declared, single, key,
    (thenBy_extends_open_sort bound named declared single key).1.mpr ⟨_, rfl, by decide⟩⟩

end Query

end QueryPipeline
