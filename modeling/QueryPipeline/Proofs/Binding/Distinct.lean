import Mathlib.Data.List.Dedup
import QueryPipeline.Accumulation
import QueryPipeline.Proofs.Binding.Aggregate
import QueryPipeline.Proofs.Binding.FreeNames
import QueryPipeline.Proofs.Binding.Subquery
import QueryPipeline.Proofs.Term.Children
import QueryPipeline.Proofs.Term.Transform

/-!
Groups of distinct elements. A chain on a group may leave out repetitions, map elements and
leave out repetitions again. Binding keeps of this that the elements are distinct, but not
where in the chain they became so, and collects the elements that the chain ends with as a set.
What is collected are then the elements that the chain gives on lists, but each once: a mapping
after the last `Distinct` may give the same for two elements, and that is lost
(`Expr.distinct_collects_iff`).
-/

namespace QueryPipeline

variable {engine : Engine} {registry : Registry} {other? : Others}

/-! ### Elements, each once -/

namespace GroupElements

open scoped Classical in
/-- The elements without repetitions: each stays where it is met first. -/
noncomputable def distinct (es : GroupElements) : GroupElements :=
  { es with data := es.data.reverse.dedup.reverse }

theorem mem_distinct {es : GroupElements} {d : Datum} :
    d ∈ es.distinct.data ↔ d ∈ es.data := by
  simp only [distinct, List.mem_reverse, List.mem_dedup]

/-- The values that collecting the elements gives. A missing one is collected as is said, if
at all. -/
def collected (missing : Option Value) (es : GroupElements) : List Value :=
  es.values.filterMap (·.or missing)

/-- Distinct elements give each value once, as long as elements differ by their values. -/
theorem nodup_collected_distinct {missing : Option Value} {es : GroupElements}
    (differ : ∀ d ∈ es.data, ∀ d' ∈ es.data, ∀ v, d.stored.or missing = some v →
      d'.stored.or missing = some v → d = d') : (es.distinct.collected missing).Nodup := by
  classical
  have once : es.distinct.data.Nodup := List.nodup_reverse.mpr (List.nodup_dedup _)
  rw [collected, values, List.filterMap_map, List.Nodup, List.pairwise_filterMap]
  refine List.Pairwise.imp_of_mem ?_ once
  rintro d d' hd hd' hne v hv v' hv' rfl
  exact hne (differ d (mem_distinct.mp hd) d' (mem_distinct.mp hd') v hv hv')

section Chain

variable (engine : Engine) (registry : Registry) (other? : Others)
  (scope : String → Option Outline) (outer : Data)

/-- What a lambda makes of the elements. There may be sub-queries in it. -/
def image? (es : GroupElements) : Expr → Option GroupElements
  | .lambda [parameter] body => do
      let m ← body.meaning? engine registry other?
        (Function.update scope parameter (some es.outline))
      let data ← es.data.mapM fun d => m.datum (Function.update outer parameter (some d))
      return ⟨m.outline, data⟩
  | _ => none

/-- The elements for which a lambda is true. -/
def kept? (es : GroupElements) (predicate : Expr) : Option GroupElements := do
  let answers ← es.image? engine registry other? scope outer predicate
  return { es with
    data := ((es.data.zip answers.data).filter fun p => engine.isTrue p.2.stored).map Prod.fst }

/-- The elements after a call that filters, maps or leaves out repetitions. -/
noncomputable def step? (es : GroupElements) (call : Call Expr) : Option GroupElements :=
  match call.name, call.arguments with
  | "Where", [predicate] => es.kept? engine registry other? scope outer predicate
  | "Select", [selector] => es.image? engine registry other? scope outer selector
  | "Distinct", [] => some es.distinct
  | _, _ => none

/-- The elements after the calls of a chain, in the order in which they are written. -/
noncomputable def steps? (es : GroupElements) (chain : List (Call Expr)) :
    Option GroupElements :=
  chain.foldlM (fun es call => es.step? engine registry other? scope outer call) es

end Chain

end GroupElements

/-- The elements of a group, each once if the group is one of distinct elements. -/
noncomputable def Group.given (engine : Engine) (g : Group) (rows : List Value) :
    GroupElements :=
  if g.distinct then (g.elements engine rows).distinct else g.elements engine rows

namespace Call

/-- Whether a call filters, maps or leaves out repetitions. -/
def sifts (call : Call Expr) : Bool := ["Where", "Select", "Distinct"].contains call.name

/-- Whether a call leaves out repetitions. -/
def isDistinct (call : Call Expr) : Bool := call.name == "Distinct"

end Call

/-! ### Lambdas -/

/-- Whether no lambda inside an argument has one of the given variables, or that of a lambda
around it. Over the elements of a group, the argument itself has no variable. -/
def Expr.apartInside (around : List String) : Expr → Bool
  | .lambda _ body => body.apart around
  | e => e.apart around

/-- A term that lambdas over the rows of a group can read. -/
structure Term.FitsRows (engine : Engine) (vars : List String) (rows : List Value) (t : Term) :
    Prop where
  reads : t.ReadsIn vars
  sliced : t.Sliced fun _ => True
  countable : ∀ row ∈ rows, t.Countable engine ⟨row, []⟩

/-- Elements are those that rows give, but each may be there more or less often. -/
structure Group.Gathers (engine : Engine) (rows : List Value) (g : Group) (es : GroupElements) :
    Prop where
  outline : es.outline = g.element.outline
  mem_data {d : Datum} :
    d ∈ es.data ↔ ∃ row ∈ rows, g.element.datum engine ⟨row, []⟩ = d

theorem forall₂_of_mapM_eq_some {α β : Type} {f : α → Option β} {as : List α} {bs : List β}
    (h : as.mapM f = some bs) : List.Forall₂ (fun a b => f a = some b) as bs := by
  induction as generalizing bs with
  | nil =>
    obtain rfl : [] = bs := by simpa using h
    exact .nil
  | cons a as ih =>
    rw [List.mapM_cons] at h
    obtain ⟨b, hb, h⟩ := Option.bind_eq_some_iff.mp h
    obtain ⟨rest, hrest, h⟩ := Option.bind_eq_some_iff.mp h
    obtain rfl := Option.some.inj h
    exact .cons hb (ih hrest)

/-- Binding a lambda leaves the scopes as they were. -/
theorem Call.scopes_of_lambda {call : Call Expr} {e : Expr} {g : Group} {c c' : Context}
    {l : Lambda} (single : call.arguments = [e])
    (h : ((Expr.bindArguments registry call).lambda g).Yields c l c') :
    c'.scopes = c.scopes := by
  obtain ⟨parameter, body, c₁, -, -, hbody, rfl⟩ := Call.lambda_yields single h
  rw [Expr.scopes_of_bind hbody]
  rfl

namespace Group.Gathers

variable {vars : List String} {g g' : Group} {rows : List Value} {outer : Data}
  {es es' : GroupElements} {call : Call Expr} {op : Operator} {e : Expr} {c c' : Context}
  {l : Lambda}

theorem elements (unfiltered : g.predicate = none) :
    g.Gathers engine rows (g.elements engine rows) where
  outline := rfl
  mem_data := by
    rw [Group.elements, filter_counts unfiltered]
    exact List.mem_map

theorem distinct (h : g.Gathers engine rows es) : g.Gathers engine rows es.distinct where
  outline := h.outline
  mem_data := GroupElements.mem_distinct.trans h.mem_data

/-- The elements that a group has before the chain. -/
theorem given (unfiltered : g.predicate = none) :
    g.Gathers engine rows (g.given engine rows) := by
  unfold Group.given
  split
  · exact (elements unfiltered).distinct
  · exact elements unfiltered

/-- Images of elements are the elements of the mapped group. -/
theorem map {m : Meaning} {data : List Datum} {t : Term} {f : Datum → Option Datum}
    (h : g.Gathers engine rows es) (outline : t.outline = m.outline)
    (each : ∀ row ∈ rows, ∀ d, f (g.element.datum engine ⟨row, []⟩) = some d →
      t.datum engine ⟨row, []⟩ = d)
    (hdata : es.data.mapM f = some data) :
    ({ g with element := t }).Gathers engine rows ⟨m.outline, data⟩ where
  outline := outline.symm
  mem_data := by
    intro d
    have images := forall₂_of_mapM_eq_some hdata
    constructor
    · intro hd
      obtain ⟨d₀, hd₀, himage⟩ := exists_of_mem_right images hd
      obtain ⟨row, hrow, rfl⟩ := h.mem_data.mp hd₀
      exact ⟨row, hrow, each row hrow d himage⟩
    · rintro ⟨row, hrow, rfl⟩
      obtain ⟨d, hd, himage⟩ := exists_of_mem_right images.flip
        (h.mem_data.mpr ⟨row, hrow, rfl⟩)
      rwa [each row hrow d himage]

/-- The body of a lambda is bound where the parameter has the outline of the elements. -/
theorem outlines_push (h : g.Gathers engine rows es) (parameter : String) :
    (c.push parameter g.element).outlines =
      Function.update c.outlines parameter (some es.outline) := by
  rw [Context.outlines_push, h.outline]

/-- In a row of the group, a meaning of the body of a lambda sees the element of the row as the
lambda sees the element. -/
theorem seen (others : other?.Local) {parameter : String} {body : Expr} {m : Meaning}
    {scope : String → Option Outline} (hm : body.meaning? engine registry other? scope = some m)
    {row : Value} (steady : AgreeOn (Expr.lambda [parameter] body).freeNames outer
      (c.data engine ⟨row, []⟩)) :
    m.datum (Function.update outer parameter (some (g.element.datum engine ⟨row, []⟩))) =
      m.datum ((c.push parameter g.element).data engine ⟨row, []⟩) := by
  rw [Context.data_push]
  exact (Expr.isLocal others body).looksAt hm (steady.update _)

section Lambdas

variable (laws : Laws engine registry other?) (others : other?.Local)
  (gathers : g.Gathers engine rows es) (single : call.arguments = [e])
  (steady : ∀ row ∈ rows, AgreeOn e.freeNames outer (c.data engine ⟨row, []⟩))
  (h : ((Expr.bindArguments registry call).lambda g).Yields c l c')
include laws others gathers single steady h

/-- A lambda without sub-queries makes something of the elements. -/
theorem exists_image (free : e.isCallFree = true) :
    ∃ es', es.image? engine registry other? c.outlines outer e = some es' := by
  obtain ⟨parameter, body, c₁, rfl, -, hbody, rfl⟩ := Call.lambda_yields single h
  change (body.bind registry).Yields (c.push parameter g.element) l.body c₁ at hbody
  obtain ⟨-, m, hm, stands⟩ := Expr.standsFor_of_bind laws.exact body free hbody
  have data : es.data.mapM (fun d => m.datum (Function.update outer parameter (some d))) =
      some (es.data.map fun d =>
        (m.datum (Function.update outer parameter (some d))).getD d) := by
    refine GroupElements.mapM_eq_some fun d hd => ?_
    obtain ⟨row, hrow, rfl⟩ := gathers.mem_data.mp hd
    rw [seen others hm (steady row hrow), stands.datum fun _ _ => rfl]
    rfl
  rw [gathers.outlines_push] at hm
  rw [GroupElements.image?, hm]
  simp only [Option.bind_eq_bind, Option.bind_some, data]
  exact ⟨_, rfl⟩

/-- **A lambda over the elements.** Its bound body gives for the rows what the lambda makes of
the elements. -/
theorem image (inScope : c.Every (Term.FitsRows engine vars rows))
    (fits : g.element.FitsRows engine vars rows) (apart : e.apartInside vars = true)
    (hes' : es.image? engine registry other? c.outlines outer e = some es') :
    l.body.FitsRows engine vars rows ∧
      ({ g with element := l.body }).Gathers engine rows es' := by
  obtain ⟨parameter, body, c₁, rfl, -, hbody, rfl⟩ := Call.lambda_yields single h
  change (body.bind registry).Yields (c.push parameter g.element) l.body c₁ at hbody
  rw [GroupElements.image?, ← gathers.outlines_push] at hes'
  obtain ⟨m, hm, hes'⟩ := Option.bind_eq_some_iff.mp hes'
  obtain ⟨data, hdata, hes'⟩ := Option.bind_eq_some_iff.mp hes'
  obtain rfl := Option.some.inj hes'
  have every : (c.push parameter g.element).Every (Term.FitsRows engine vars rows) :=
    inScope.push fun p hp => by rw [List.mem_singleton.mp hp]; exact fits
  obtain ⟨-, realizes⟩ := Expr.sound laws body apart
    ⟨every.mono fun t ht => ht.reads, every.mono fun t ht => ht.sliced⟩ hm hbody
  have each (row : Value) (hrow : row ∈ rows) (d : Datum)
      (hd : m.datum (Function.update outer parameter
        (some (g.element.datum engine ⟨row, []⟩))) = some d) :=
    realizes.datum (every.mono fun t ht => ht.countable row hrow)
      (seen others hm (steady row hrow) ▸ hd)
  refine ⟨⟨realizes.reads, realizes.sliced, fun row hrow => ?_⟩,
    gathers.map realizes.outline (fun row hrow d hd => (each row hrow d hd).1) hdata⟩
  obtain ⟨d, -, hd⟩ := exists_of_mem_right (forall₂_of_mapM_eq_some hdata).flip
    (gathers.mem_data.mpr ⟨row, hrow, rfl⟩)
  exact (each row hrow d hd).2

end Lambdas

end Group.Gathers

/-! ### Chains -/

/-- Calls turn a group into another. If the elements of that all count, they are what the calls
give on lists, up to repetitions; and the calls give something, unless there are sub-queries. -/
structure Group.Sifted (engine : Engine) (registry : Registry) (other? : Others)
    (vars : List String) (rows : List Value) (scope : String → Option Outline) (outer : Data)
    (g : Group) (calls : List (Call Expr)) (g' : Group) : Prop where
  stage : g'.stage = g.stage
  key : g'.key = g.key
  distinct : g'.distinct = (g.distinct || calls.any Call.isDistinct)
  unfiltered : g'.predicate = none → g.predicate = none
  defined {es : GroupElements} : g'.predicate = none → g.element.FitsRows engine vars rows →
    g.Gathers engine rows es → (∀ call ∈ calls, call.arguments.all Expr.isCallFree = true) →
    ∃ es', es.steps? engine registry other? scope outer calls = some es'
  gathers {es es' : GroupElements} : g'.predicate = none → g.element.FitsRows engine vars rows →
    g.Gathers engine rows es → es.steps? engine registry other? scope outer calls = some es' →
    g'.element.FitsRows engine vars rows ∧ g'.Gathers engine rows es'

namespace Group

variable {vars : List String} {g g₁ g₂ g' : Group} {rows : List Value} {outer : Data}
  {scope : String → Option Outline} {call : Call Expr} {calls calls' : List (Call Expr)}
  {op : Operator} {c c' : Context}

theorem Sifted.refl : g.Sifted engine registry other? vars rows scope outer [] g where
  stage := rfl
  key := rfl
  distinct := (Bool.or_false _).symm
  unfiltered h := h
  defined _ _ _ _ := ⟨_, rfl⟩
  gathers _ fits gathers h := by
    obtain rfl := Option.some.inj h
    exact ⟨fits, gathers⟩

theorem Sifted.trans (h : g.Sifted engine registry other? vars rows scope outer calls g₁)
    (h' : g₁.Sifted engine registry other? vars rows scope outer calls' g₂) :
    g.Sifted engine registry other? vars rows scope outer (calls ++ calls') g₂ where
  stage := h'.stage.trans h.stage
  key := h'.key.trans h.key
  distinct := by rw [h'.distinct, h.distinct, List.any_append, Bool.or_assoc]
  unfiltered all := h.unfiltered (h'.unfiltered all)
  defined all fits gathers free := by
    obtain ⟨es₁, hes₁⟩ := h.defined (h'.unfiltered all) fits gathers fun call hcall =>
      free call (List.mem_append_left _ hcall)
    obtain ⟨fits₁, gathers₁⟩ := h.gathers (h'.unfiltered all) fits gathers hes₁
    obtain ⟨es₂, hes₂⟩ := h'.defined all fits₁ gathers₁ fun call hcall =>
      free call (List.mem_append_right _ hcall)
    refine ⟨es₂, ?_⟩
    rw [GroupElements.steps?, List.foldlM_append]
    exact Option.bind_eq_some_iff.mpr ⟨es₁, hes₁, hes₂⟩
  gathers all fits gathers hes := by
    rw [GroupElements.steps?, List.foldlM_append] at hes
    obtain ⟨es₁, hes₁, hes₂⟩ := Option.bind_eq_some_iff.mp hes
    obtain ⟨fits₁, gathers₁⟩ := h.gathers (h'.unfiltered all) fits gathers hes₁
    exact h'.gathers all fits₁ gathers₁ hes₂

theorem steps?_singleton {es : GroupElements} :
    es.steps? engine registry other? scope outer [call] =
      es.step? engine registry other? scope outer call := by
  rw [GroupElements.steps?, List.foldlM_cons]
  exact Option.bind_fun_some _

/-- A call of a chain, by its operator. -/
theorem operator_of_sifts (plain : call.sifts = true) (hop : Operator.ofCall call = .ok op) :
    (call.isDistinct = false ∧ (op = .filter ∨ op = .project) ∧ ∃ e, call.arguments = [e]) ∨
      (call.isDistinct = true ∧ op = .distinct ∧ call.arguments = []) := by
  obtain ⟨-, -, arity⟩ := Operator.ofCall_eq_ok_iff.mp hop
  simp only [Call.sifts, List.contains_iff_mem, List.mem_cons, List.not_mem_nil,
    or_false] at plain
  have denoted := Operator.eq_of_ofCall hop
  rcases plain with hname | hname | hname
  · obtain rfl := denoted .filter hname
    exact .inl ⟨by rw [Call.isDistinct, hname]; rfl, .inl rfl,
      List.length_eq_one_iff.mp (by simpa [Operator.arities] using arity)⟩
  · obtain rfl := denoted .project hname
    exact .inl ⟨by rw [Call.isDistinct, hname]; rfl, .inr rfl,
      List.length_eq_one_iff.mp (by simpa [Operator.arities] using arity)⟩
  · obtain rfl := denoted .distinct hname
    exact .inr ⟨by rw [Call.isDistinct, hname]; rfl, rfl,
      by simpa [Operator.arities] using arity⟩

/-- A filter leaves a condition, so nothing more is asked of the group. -/
theorem Sifted.filter (once : call.isDistinct = false) (t : Term) :
    g.Sifted engine registry other? vars rows scope outer [call] (g.filter t) := by
  have condition : (g.filter t).predicate ≠ none := Option.some_ne_none _
  exact {
    stage := rfl
    key := rfl
    distinct := by rw [List.any_cons, once, List.any_nil, Bool.or_false, Bool.or_false]; rfl
    unfiltered := fun all => absurd all condition
    defined := fun all => absurd all condition
    gathers := fun all => absurd all condition }

/-- Leaving out repetitions leaves the elements that there are. -/
theorem Sifted.distinct_of_step (once : call.isDistinct = true)
    (step : ∀ es : GroupElements,
      es.step? engine registry other? scope outer call = some es.distinct) :
    g.Sifted engine registry other? vars rows scope outer [call]
      { g with distinct := true } where
  stage := rfl
  key := rfl
  distinct := by rw [List.any_cons, once, Bool.true_or, Bool.or_true]
  unfiltered all := all
  defined _ _ _ _ := ⟨_, steps?_singleton.trans (step _)⟩
  gathers _ fits gathers hes := by
    rw [steps?_singleton, step] at hes
    obtain rfl := Option.some.inj hes
    exact ⟨fits, gathers.distinct.outline, gathers.distinct.mem_data⟩

variable (laws : Laws engine registry other?) (others : other?.Local)
include laws others

/-- A mapping replaces the elements by their images. -/
theorem Sifted.map_of_lambda {e : Expr} {l : Lambda}
    (inScope : c.Every (Term.FitsRows engine vars rows)) (single : call.arguments = [e])
    (apart : e.apartInside vars = true)
    (steady : ∀ row ∈ rows, AgreeOn e.freeNames outer (c.data engine ⟨row, []⟩))
    (h : ((Expr.bindArguments registry call).lambda g).Yields c l c')
    (once : call.isDistinct = false)
    (step : ∀ es : GroupElements, es.step? engine registry other? c.outlines outer call =
      es.image? engine registry other? c.outlines outer e) :
    g.Sifted engine registry other? vars rows c.outlines outer [call]
      { g with element := l.body } where
  stage := rfl
  key := rfl
  distinct := by rw [List.any_cons, once, List.any_nil, Bool.or_false, Bool.or_false]
  unfiltered all := all
  defined _ _ gathers free := by
    rw [steps?_singleton, step]
    refine gathers.exists_image laws others single steady h ?_
    simpa [single] using free call List.mem_cons_self
  gathers _ fits gathers hes := by
    rw [steps?_singleton, step] at hes
    exact gathers.image laws others single steady h inScope fits apart hes

/-- **One call.** -/
theorem sifted_of_apply (inScope : c.Every (Term.FitsRows engine vars rows))
    (plain : call.sifts = true) (apart : ∀ e ∈ call.arguments, e.apartInside vars = true)
    (steady : ∀ e ∈ call.arguments, ∀ row ∈ rows,
      AgreeOn e.freeNames outer (c.data engine ⟨row, []⟩))
    (hop : Operator.ofCall call = .ok op) {applied : Applied Group Term}
    (h : (op.apply registry g (Expr.bindArguments registry call)).Yields c applied c') :
    c'.scopes = c.scopes ∧ ∃ g', applied = .sequence g' ∧
      g.Sifted engine registry other? vars rows c.outlines outer [call] g' := by
  obtain ⟨named, -, -⟩ := Operator.ofCall_eq_ok_iff.mp hop
  rcases operator_of_sifts plain hop with
    ⟨once, rfl | rfl, e, single⟩ | ⟨once, rfl, no_argument⟩
  · simp only [Operator.apply, BindM.yields_bind, Operator.yields_next] at h
    obtain ⟨l, c₁, hl, g', hg', rfl, rfl⟩ := h
    obtain rfl : g.filter l.body = g' := Except.ok.inj hg'
    exact ⟨Call.scopes_of_lambda single hl, _, rfl, .filter once l.body⟩
  · simp only [Operator.apply, BindM.yields_bind, Operator.yields_next] at h
    obtain ⟨l, c₁, hl, g', hg', rfl, rfl⟩ := h
    obtain rfl : { g with element := l.body } = g' := Except.ok.inj hg'
    have argument : e ∈ call.arguments := by simp [single]
    refine ⟨Call.scopes_of_lambda single hl, _, rfl, ?_⟩
    refine .map_of_lambda laws others inScope single (apart e argument) (steady e argument) hl
      once fun es => ?_
    rw [GroupElements.step?, ← named, single]
    rfl
  · simp only [Operator.apply, Operator.yields_next] at h
    obtain ⟨g', hg', rfl, rfl⟩ := h
    obtain rfl : { g with distinct := true } = g' := Except.ok.inj hg'
    refine ⟨rfl, _, rfl, .distinct_of_step once fun es => ?_⟩
    rw [GroupElements.step?, ← named, no_argument]
    rfl

/-- **A chain** of calls. -/
theorem sifted_of_bind {source : Expr} {c₀ c₁ : Context} {t : Term}
    (hsource : (source.bind registry).Yields c g.term c₀)
    (inScope : c.Every (Term.FitsRows engine vars rows)) {chain : List (Call Expr)}
    (plain : ∀ call ∈ chain, call.sifts = true)
    (apart : ∀ call ∈ chain, ∀ e ∈ call.arguments, e.apartInside vars = true)
    (steady : ∀ call ∈ chain, ∀ e ∈ call.arguments, ∀ row ∈ rows,
      AgreeOn e.freeNames outer (c.data engine ⟨row, []⟩))
    (h : ((source.applied chain).bind registry).Yields c t c₁) :
    c₁.scopes = c.scopes ∧ ∃ g', t = g'.term ∧
      g.Sifted engine registry other? vars rows c.outlines outer chain g' := by
  -- The last call is bound last, so the induction takes calls away from the end.
  induction chain using List.reverseRecOn generalizing t c₁ with
  | nil =>
    obtain ⟨rfl, rfl⟩ := h.unique hsource
    exact ⟨Expr.scopes_of_bind h, g, rfl, .refl⟩
  | append_singleton chain call ih =>
    obtain ⟨op, hop, t', c₂, ht', happly⟩ := yields_applied_append.mp h
    obtain ⟨same, g', rfl, before⟩ :=
      ih (fun call hcall => plain call (List.mem_append_left _ hcall))
        (fun call hcall => apart call (List.mem_append_left _ hcall))
        (fun call hcall => steady call (List.mem_append_left _ hcall)) ht'
    obtain ⟨applied, happlied, rfl⟩ := applyOperator_yields.mp happly
    have hcall : call ∈ chain ++ [call] := List.mem_append_right _ (List.mem_singleton_self _)
    have steady' : ∀ e ∈ call.arguments, ∀ row ∈ rows,
        AgreeOn e.freeNames outer (c₂.data engine ⟨row, []⟩) := by
      intro e he row hrow
      rw [Context.data_congr same]
      exact steady call hcall e he row hrow
    obtain ⟨same', g'', rfl, step⟩ := sifted_of_apply laws others
      (inScope.of_scopes_eq same) (plain call hcall) (apart call hcall) steady' hop happlied
    rw [Context.outlines_congr same] at step
    exact ⟨same'.trans same, g'', rfl, before.trans step⟩

end Group

/-! ### Sets -/

/-- What is relied on of the accumulator that collects sets: each value that its source has for
some row is collected once. A missing value is collected as is said, if at all. -/
def Engine.CollectsSets (engine : Engine) (missing : Option Value) : Prop :=
  ∀ source rows, ∃ items, engine.accumulate .addToSet source rows = some (.array items) ∧
    items.Nodup ∧
    ∀ v, v ∈ items ↔ v ∈ (rows.map (source.valueIn engine)).filterMap (·.or missing)

open scoped Classical in
/-- A term collects the elements that calls on a group give on lists, each value once, so it
collects just these elements if no value is there twice. Without sub-queries the calls do give
something. -/
structure Group.CollectsOnce (engine : Engine) (registry : Registry) (other? : Others)
    (missing : Option Value) (rows : List Value) (scope : String → Option Outline) (outer : Data)
    (g : Group) (calls : List (Call Expr)) (t : Term) : Prop where
  defined : (∀ call ∈ calls, call.arguments.all Expr.isCallFree = true) →
    ∃ es, (g.given engine rows).steps? engine registry other? scope outer calls = some es
  collects {es : GroupElements} :
    (g.given engine rows).steps? engine registry other? scope outer calls = some es →
    ∃ vs, t.over? engine g.stage rows = some (.array vs) ∧
      vs.Perm (es.collected missing).dedup ∧
      (vs.Perm (es.collected missing) ↔ (es.collected missing).Nodup)

/-- Elements that rows give have the values that the rows have. -/
theorem Group.Gathers.mem_collected {missing : Option Value} {g : Group} {rows : List Value}
    {es : GroupElements} (h : g.Gathers engine rows es) (v : Value) :
    v ∈ es.collected missing ↔
      v ∈ (rows.map (g.element.valueIn engine)).filterMap (·.or missing) := by
  simp only [GroupElements.collected, GroupElements.values, List.mem_filterMap, List.mem_map]
  constructor
  · rintro ⟨_, ⟨d, hd, rfl⟩, hv⟩
    obtain ⟨row, hrow, rfl⟩ := h.mem_data.mp hd
    exact ⟨_, ⟨row, hrow, rfl⟩, by rwa [Term.stored_datum] at hv⟩
  · rintro ⟨_, ⟨row, hrow, rfl⟩, hv⟩
    refine ⟨_, ⟨_, h.mem_data.mpr ⟨row, hrow, rfl⟩, rfl⟩, ?_⟩
    rwa [Term.stored_datum]

/-- The record that a group becomes whose elements are read as a value. -/
theorem Group.record_of_run {g : Group} {s s' : GroupNaming} {record : Term}
    (h : (g.term.transformM groupsToRecords).run s = (record, s')) (accepted : s'.fault = none) :
    g.predicate = none ∧ ∃ name, record = .document [("Key", g.key),
      ("Elements", .accumulator g.stage (if g.distinct then .addToSet else .push) g.element name
        (.arrayOf g.element.codec))] := by
  obtain ⟨stage, key, element, predicate, distinct⟩ := g
  rw [Group.term, Term.transformM_eq] at h
  obtain ⟨rfl, rfl⟩ := Prod.ext_iff.mp h.symm
  cases predicate with
  | none => exact ⟨rfl, _, rfl⟩
  | some predicate =>
    have fault : some (AccumulationError.filteredGroup element) = none := accepted
    cases fault

section Collected

variable {vars : List String} {missing : Option Value} {g g' : Group} {rows : List Value}
  {outer : Data} {scope : String → Option Outline} {calls : List (Call Expr)}

/-- The accumulator of sets collects what the calls give. -/
theorem Group.Sifted.collectsOnce (sets : engine.CollectsSets missing)
    (fits : g.element.FitsRows engine vars rows)
    (sifted : g.Sifted engine registry other? vars rows scope outer calls g')
    (distinct : g'.distinct = true) (unfiltered : g'.predicate = none) (name : String) :
    g.CollectsOnce engine registry other? missing rows scope outer calls
      (.accumulator g'.stage (if g'.distinct then .addToSet else .push) g'.element name
        (.arrayOf g'.element.codec)) where
  defined free :=
    sifted.defined unfiltered fits (.given (sifted.unfiltered unfiltered)) free
  collects {es} hes := by
    classical
    obtain ⟨-, gathers⟩ :=
      sifted.gathers unfiltered fits (.given (sifted.unfiltered unfiltered)) hes
    obtain ⟨vs, hvs, nodup, mem⟩ := sets g'.element rows
    have same (v : Value) : v ∈ vs ↔ v ∈ es.collected missing :=
      (mem v).trans (gathers.mem_collected v).symm
    refine ⟨vs, ?_, ?_, ?_⟩
    · rw [← sifted.stage, Group.over_accumulator, distinct, if_pos rfl, hvs,
        Codec.read_some (by simp)]
    · rw [List.perm_ext_iff_of_nodup nodup (List.nodup_dedup _)]
      exact fun v => (same v).trans List.mem_dedup.symm
    · exact ⟨fun perm => perm.nodup_iff.mp nodup,
        fun once => (List.perm_ext_iff_of_nodup nodup once).mpr same⟩

end Collected

/-- **What is collected of a group of distinct elements.** A chain filters and maps the elements
and leaves out repetitions, and its elements are collected by a last call, or as part of the
group when that is read as a value. Whenever this is accepted, each value that the chain gives
on lists is collected once. So the collected values are those of the chain just if the chain
gives no value twice. -/
theorem Expr.distinct_collects_iff (laws : Laws engine registry other?) (others : other?.Local)
    {missing : Option Value} (sets : engine.CollectsSets missing) {source : Expr} {g : Group}
    {c c₀ : Context} (hsource : (source.bind registry).Yields c g.term c₀) {vars : List String}
    {rows : List Value} {outer : Data} (inScope : c.Every (Term.FitsRows engine vars rows))
    (fits : g.element.FitsRows engine vars rows) {chain : List (Call Expr)}
    (plain : ∀ call ∈ chain, call.sifts = true)
    (distinct : ∃ call ∈ chain, call.isDistinct = true)
    (apart : ∀ call ∈ chain, ∀ e ∈ call.arguments, e.apartInside vars = true)
    (steady : ∀ call ∈ chain, ∀ e ∈ call.arguments, ∀ row ∈ rows,
      AgreeOn e.freeNames outer (c.data engine ⟨row, []⟩)) :
    (∀ last t c', last.name = "ToList" ∨ last.name = "ToArray" →
      ((source.applied (chain ++ [last])).bind registry).Yields c t c' →
      g.CollectsOnce engine registry other? missing rows c.outlines outer chain t) ∧
    ∀ t c' s s' record, ((source.applied chain).bind registry).Yields c t c' →
      (t.transformM groupsToRecords).run s = (record, s') → s'.fault = none →
      ∃ elements, record = .document [("Key", g.key), ("Elements", elements)] ∧
        g.CollectsOnce engine registry other? missing rows c.outlines outer chain elements := by
  have any : chain.any Call.isDistinct = true := List.any_eq_true.mpr distinct
  constructor
  · intro last t c' collects h
    obtain ⟨op, hop, t', c₁, ht', happly⟩ := Group.yields_applied_append.mp h
    obtain ⟨-, g', rfl, sifted⟩ :=
      Group.sifted_of_bind laws others hsource inScope plain apart steady ht'
    obtain ⟨applied, happlied, rfl⟩ := Group.applyOperator_yields.mp happly
    have which : op = .toList ∨ op = .toArray :=
      collects.imp (Operator.eq_of_ofCall hop .toList) (Operator.eq_of_ofCall hop .toArray)
    obtain ⟨t, ht, rfl⟩ := Group.apply_collect_yields which happlied
    obtain ⟨unfiltered, name, rfl⟩ := Group.collect_yields ht
    exact sifted.collectsOnce sets fits (by rw [sifted.distinct, any, Bool.or_true]) unfiltered
      name
  · intro t c' s s' record h hrun accepted
    obtain ⟨-, g', rfl, sifted⟩ :=
      Group.sifted_of_bind laws others hsource inScope plain apart steady h
    obtain ⟨unfiltered, name, rfl⟩ := Group.record_of_run hrun accepted
    exact ⟨_, by rw [sifted.key], sifted.collectsOnce sets fits
      (by rw [sifted.distinct, any, Bool.or_true]) unfiltered name⟩

/-! ### An engine that collects sets -/

namespace Engine

open scoped Classical in
/-- The folding engine, with accumulators that collect each value once. -/
noncomputable def gathering : Engine :=
  folding.withReduction (fun _ _ => [])
    fun _ source rows => some (.array (rows.filterMap (source.valueIn folding)).dedup)

theorem laws_gathering : Laws gathering registry fun _ _ => none :=
  ⟨⟨fun h => h, fun h => h, fun _ => rfl⟩, rfl, nofun⟩

theorem collectsSets_gathering : gathering.CollectsSets none := by
  classical
  intro source rows
  refine ⟨_, rfl, List.nodup_dedup _, fun v => ?_⟩
  have same : source.valueIn gathering = source.valueIn folding :=
    funext fun row => eval_withReduction source ⟨row, []⟩
  rw [List.mem_dedup, same, List.filterMap_map]
  simp

end Engine

/-! ### The ages of a city -/

/-- The age of each citizen, each age once. -/
def distinctAges : List (Call Expr) := [
  ⟨"Enumerable", "Select", [], [.lambda ["x"] (.member (.param "x") "Age")]⟩,
  ⟨"Enumerable", "Distinct", [], []⟩]

/-- A list of what there is. -/
def collectAll : Call Expr := ⟨"Enumerable", "ToList", [], []⟩

/-- The set of what citizens have. -/
def citySet (source : Term) (codec : Codec) : Term :=
  .accumulator 0 .addToSet source "__agg0" (.arrayOf codec)

/-- Citizens, two of whom have the same age. -/
def sameAge : List Value := [citizen 1 31, citizen 2 35, citizen 3 35]

/-- The chain gives each age once, and so does the accumulator. -/
theorem distinctAges_collected :
    ∃ es vs, (((Expr.param "g").applied (distinctAges ++ [collectAll])).bind citizens).Yields
        ofCity (citySet (.field (.field "age") .int32) .int32) { ofCity with minted := 1 } ∧
      (cityGroup.given .gathering sameAge).steps? .gathering citizens (fun _ _ => none)
        ofCity.outlines (fun _ => none) distinctAges = some es ∧
      (citySet (.field (.field "age") .int32) .int32).over? .gathering 0 sameAge =
        some (.array vs) ∧
      vs.Perm (es.collected none) := by
  let ages : GroupElements :=
    ⟨.stored .int32, [.value (some (.int32 31)), .value (some (.int32 35)),
      .value (some (.int32 35))]⟩
  have bound : (((Expr.param "g").applied (distinctAges ++ [collectAll])).bind citizens).Yields
    ofCity (citySet (.field (.field "age") .int32) .int32) { ofCity with minted := 1 } := rfl
  have given : (cityGroup.given .gathering sameAge).steps? .gathering citizens
    (fun _ _ => none) ofCity.outlines (fun _ => none) distinctAges = some ages.distinct := rfl
  have source : ((Expr.param "g").bind citizens).Yields ofCity cityGroup.term ofCity := rfl
  have inScope : ofCity.Every (Term.FitsRows .gathering [] sameAge) := by
    refine Context.Every.push nofun fun p hp => ?_
    rw [List.mem_singleton.mp hp]
    exact ⟨nofun, .group (.other rfl rfl), fun _ _ => .group (.other rfl rfl)⟩
  have fits : cityGroup.element.FitsRows .gathering [] sameAge :=
    ⟨nofun, .other rfl rfl, fun _ _ => .other rfl rfl⟩
  have steady : ∀ call ∈ distinctAges, ∀ e ∈ call.arguments, ∀ row ∈ sameAge,
      AgreeOn e.freeNames (fun _ => none) (ofCity.data .gathering ⟨row, []⟩) := by
    intro call hcall e he row _ name hname
    have alone : ∀ call ∈ distinctAges, ∀ e ∈ call.arguments, e.freeNames = [] := by decide
    rw [alone call hcall e he] at hname
    cases hname
  obtain ⟨collected, -⟩ := Expr.distinct_collects_iff Engine.laws_gathering ⟨fun _ => rfl, nofun⟩
    Engine.collectsSets_gathering source inScope fits (by decide) (by decide) (by decide) steady
  obtain ⟨vs, valued, -, same⟩ := (collected collectAll _ _ (.inl rfl) bound).collects given
  refine ⟨_, vs, bound, given, valued, same.mpr (GroupElements.nodup_collected_distinct ?_)⟩
  have values : ∀ d ∈ ages.data, ∃ u, d = .value (some u) := by simp [ages]
  intro d hd d' hd' v hv hv'
  obtain ⟨u, rfl⟩ := values d hd
  obtain ⟨u', rfl⟩ := values d' hd'
  obtain rfl : u = v := Option.some.inj hv
  obtain rfl : u' = u := Option.some.inj hv'
  rfl

/-- Whether each distinct age is above thirty. -/
def distinctAgesAboveThirty : List (Call Expr) := distinctAges ++ [
  ⟨"Enumerable", "Select", [], [.lambda ["a"]
    (.binary .gt (.param "a") (.const (.int32 30) .int32))]⟩]

/-- Two ages are above thirty, so the chain gives true twice, but the set has it once. -/
theorem agesAboveThirty_collected_once :
    (((Expr.param "g").applied (distinctAgesAboveThirty ++ [collectAll])).bind citizens).Yields
        ofCity (citySet (.binary .gt (.field (.field "age") .int32) (.int32 30)) .boolean)
        { ofCity with minted := 1 } ∧
      (∃ es, (cityGroup.given .gathering [citizen 1 31, citizen 2 35]).steps? .gathering citizens
        (fun _ _ => none) ofCity.outlines (fun _ => none) distinctAgesAboveThirty = some es ∧
        es.collected none = [.bool true, .bool true]) ∧
      (citySet (.binary .gt (.field (.field "age") .int32) (.int32 30)) .boolean).over? .gathering
        0 [citizen 1 31, citizen 2 35] = some (.array [.bool true]) ∧
      ¬ [Value.bool true].Perm [.bool true, .bool true] := by
  classical
  let ages : GroupElements :=
    ⟨.stored .int32, [.value (some (.int32 31)), .value (some (.int32 35))]⟩
  have once : ages.distinct = ages := by
    have nodup : ages.data.reverse.Nodup := by simp [ages]
    rw [GroupElements.distinct, nodup.dedup, List.reverse_reverse]
  have steps : (cityGroup.given .gathering [citizen 1 31, citizen 2 35]).steps? .gathering
      citizens (fun _ _ => none) ofCity.outlines (fun _ => none) distinctAgesAboveThirty =
        ages.distinct.steps? .gathering citizens (fun _ _ => none) ofCity.outlines
          (fun _ => none) (distinctAgesAboveThirty.drop 2) := rfl
  have set : ([.bool true, .bool true] : List Value).dedup = [.bool true] := by
    rw [List.dedup_cons_of_mem List.mem_cons_self]
    rfl
  refine ⟨rfl, ⟨_, steps.trans (by rw [once]; rfl), rfl⟩, ?_, ?_⟩
  · exact congrArg (fun vs => some (Value.array vs)) set
  · exact fun h => by simpa using h.length_eq

end QueryPipeline
