import QueryPipeline.Proofs.Binding.CallFree
import QueryPipeline.Proofs.Binding.Clauses
import QueryPipeline.Proofs.Binding.Group
import QueryPipeline.Proofs.Semantics.Unwinding

/-!
Flattening with a result of element and item. The pipeline unwinds the array, so that the
result is read from copies of the row in which the item has taken the array's place. The item
is read there. The element is read as before the unwinding, by the paths of the projector, and
these may lead to the array: then the result gets the item, or what little of it there is.

`Expr.chainsOf` says by which members of the element a result reads it. As long as none of them
reads the array, the result is that of each element with each of its items
(`Query.flattens_if_spared`).
-/

namespace QueryPipeline

variable {engine : Engine} {registry : Registry} {other? : Others}

/-! ### Two parameters -/

namespace Context

/-- The context with two more parameters in scope, the second of which hides the first. -/
def pushPair (c : Context) (outer inner : String) (t u : Term) : Context :=
  { c with scopes := c.scopes.push [(outer, t), (inner, u)] }

variable {c : Context} {outer inner : String} {t u : Term} {env : Env}

theorem lookup_pushPair : (c.pushPair outer inner t u).scopes.lookup =
    ((c.push outer t).push inner u).scopes.lookup := by
  funext name
  rw [lookup_push, lookup_push]
  by_cases h : name = inner
  · subst h
    simp [pushPair, Scopes.push, Scopes.lookup]
  · have h' : inner ≠ name := Ne.symm h
    by_cases ho : name = outer
    · subst ho
      simp [pushPair, Scopes.push, Scopes.lookup, h, h']
    · have ho' : outer ≠ name := Ne.symm ho
      simp [pushPair, Scopes.push, Scopes.lookup, h, h', ho, ho']

theorem outlines_pushPair : (c.pushPair outer inner t u).outlines =
    Function.update (Function.update c.outlines outer (some t.outline)) inner
      (some u.outline) := by
  rw [← outlines_push, ← outlines_push]
  funext name
  rw [outlines, outlines, lookup_pushPair]

theorem data_pushPair : (c.pushPair outer inner t u).data engine env =
    Function.update (Function.update (c.data engine env) outer (some (t.datum engine env))) inner
      (some (u.datum engine env)) := by
  rw [← data_push, ← data_push]
  funext name
  rw [data, data, lookup_pushPair]

end Context

/-- The outlines of parameters that are an element and an item. -/
def pairOutlines (outer item : String) (element : Outline) (codec : Codec)
    (name : String) : Option Outline :=
  Function.update (Function.update (fun _ => none) outer (some element)) item
    (some (.stored codec)) name

/-- What parameters stand for that are an element and an item. -/
def pairData (outer item : String) (d : Datum) (v : Value) : Data :=
  Function.update (Function.update (fun _ => none) outer (some d)) item
    (some (.value (some v)))

theorem pairData_self {outer : String} (d d' : Datum) (v : Value) :
    pairData outer outer d v = pairData outer outer d' v := by
  rw [pairData, pairData, Function.update_idem, Function.update_idem]

theorem pairData_of_ne {outer item name : String} (h : name ≠ outer) (d d' : Datum) (v : Value) :
    pairData outer item d v name = pairData outer item d' v name := by
  unfold pairData
  by_cases inner : name = item
  · rw [inner, Function.update_self, Function.update_self]
  · rw [Function.update_of_ne inner, Function.update_of_ne inner, Function.update_of_ne h,
      Function.update_of_ne h]

theorem pairData_outer {outer item : String} (h : outer ≠ item) (d : Datum) (v : Value) :
    pairData outer item d v outer = some d := by
  rw [pairData, Function.update_of_ne h, Function.update_self]

/-! ### Reading a parameter by its members -/

namespace Expr

/-- Whether an expression is a parameter, or a member of it, or a member of that, and so on. -/
def isChainOf (name : String) : Expr → Bool
  | .param n => n == name
  | .member target _ => target.isChainOf name
  | _ => false

mutual
/-- By which members an expression without sub-queries reads a parameter, followed as far as
they go. -/
def chainsOf (name : String) : Expr → List Expr
  | .const _ _ => []
  | .param n => if n == name then [.param n] else []
  | .member target m =>
      if target.isChainOf name then [.member target m] else target.chainsOf name
  | .unary _ operand => operand.chainsOf name
  | .binary _ left right => left.chainsOf name ++ right.chainsOf name
  | .cond test ifTrue ifFalse =>
      test.chainsOf name ++ (ifTrue.chainsOf name ++ ifFalse.chainsOf name)
  | .new members => memberChainsOf name members
  | .index array position => array.chainsOf name ++ position.chainsOf name
  | .call _ _ | .lambda _ _ => []

def memberChainsOf (name : String) : List (String × Expr) → List Expr
  | [] => []
  | (_, e) :: rest => e.chainsOf name ++ memberChainsOf name rest
end

/-- A chain reads its parameter and no other. -/
theorem parameterNames_of_isChainOf {name : String} : {e : Expr} → e.isChainOf name = true →
    e.isCallFree = true ∧ e.parameterNames = [name]
  | .param n, h => ⟨rfl, congrArg (fun n => [n]) (by simpa [isChainOf] using h)⟩
  | .member target m, h => parameterNames_of_isChainOf (e := target) h

/-- What chains of a parameter mean is the same for two readings of the parameters. -/
def ChainsAgree (engine : Engine) (registry : Registry) (other? : Others)
    (scope : String → Option Outline) (name : String) (data data' : Data) (chains : List Expr) :
    Prop :=
  ∀ chain ∈ chains, chain.isChainOf name = true →
    ∀ m, chain.meaning? engine registry other? scope = some m → m.datum data = m.datum data'

namespace ChainsAgree

variable {scope : String → Option Outline} {name : String} {data data' : Data}
  {chains chains' : List Expr}

theorem left (h : ChainsAgree engine registry other? scope name data data' (chains ++ chains')) :
    ChainsAgree engine registry other? scope name data data' chains :=
  fun chain hchain => h chain (List.mem_append_left _ hchain)

theorem right (h : ChainsAgree engine registry other? scope name data data' (chains ++ chains')) :
    ChainsAgree engine registry other? scope name data data' chains' :=
  fun chain hchain => h chain (List.mem_append_right _ hchain)

end ChainsAgree

section Chains

variable {scope : String → Option Outline} {name : String} {data data' : Data}

-- By recursion on expressions. Where a chain of the parameter ends, the readings agree by
-- assumption; all other parameters are the same anyway.
mutual
/-- **An expression without sub-queries means the same** where the chains by which it reads a
parameter do, and the other parameters stand for the same. -/
theorem datum_of_chainsAgree (same : ∀ n, n ≠ name → data n = data' n) : (e : Expr) →
    e.isCallFree = true → ∀ ⦃m⦄, e.meaning? engine registry other? scope = some m →
    ChainsAgree engine registry other? scope name data data' (e.chainsOf name) →
    m.datum data = m.datum data'
  | .const v type, _, m, hm, _ => by
      obtain ⟨codec, -, rfl⟩ := Option.map_eq_some_iff.mp hm
      rfl
  | .param n, _, m, hm, agree => by
      by_cases own : n = name
      · refine agree (.param n) ?_ (by simp [isChainOf, own]) m hm
        simp [chainsOf, own]
      · obtain ⟨o, -, rfl⟩ := Option.map_eq_some_iff.mp hm
        exact same n own
  | .member target n, free, m, hm, agree => by
      by_cases own : target.isChainOf name = true
      · refine agree (.member target n) ?_ own m hm
        simp [chainsOf, own]
      · obtain ⟨mt, hmt, hm⟩ := Option.bind_eq_some_iff.mp hm
        obtain ⟨⟨o, read⟩, -, hm⟩ := Option.bind_eq_some_iff.mp hm
        obtain rfl := Option.some.inj hm
        rw [chainsOf, if_neg own] at agree
        simp only [datum_of_chainsAgree same target free hmt agree]
  | .unary op operand, free, m, hm, agree => by
      obtain ⟨mo, hmo, hm⟩ := Option.bind_eq_some_iff.mp hm
      obtain rfl := Option.some.inj hm
      simp only [datum_of_chainsAgree same operand free hmo agree]
  | .binary op left right, free, m, hm, agree => by
      rw [isCallFree, Bool.and_eq_true] at free
      obtain ⟨ml, hml, hm⟩ := Option.bind_eq_some_iff.mp hm
      obtain ⟨mr, hmr, hm⟩ := Option.bind_eq_some_iff.mp hm
      obtain rfl := Option.some.inj hm
      simp only [datum_of_chainsAgree same left free.1 hml agree.left,
        datum_of_chainsAgree same right free.2 hmr agree.right]
  | .cond test ifTrue ifFalse, free, m, hm, agree => by
      rw [isCallFree, Bool.and_eq_true, Bool.and_eq_true] at free
      obtain ⟨mt, hmt, hm⟩ := Option.bind_eq_some_iff.mp hm
      obtain ⟨myes, hmyes, hm⟩ := Option.bind_eq_some_iff.mp hm
      obtain ⟨mno, hmno, hm⟩ := Option.bind_eq_some_iff.mp hm
      obtain rfl := Option.some.inj hm
      simp only [datum_of_chainsAgree same test free.1.1 hmt agree.left,
        datum_of_chainsAgree same ifTrue free.1.2 hmyes agree.right.left,
        datum_of_chainsAgree same ifFalse free.2 hmno agree.right.right]
  | .new members, free, m, hm, agree => by
      obtain ⟨ms, hms, hm⟩ := Option.bind_eq_some_iff.mp hm
      obtain rfl := Option.some.inj hm
      simp only [Meaning.record, datum_of_chainsAgree_members same members free hms agree]
  | .index array position, free, m, hm, agree => by
      rw [isCallFree, Bool.and_eq_true] at free
      obtain ⟨ma, hma, hm⟩ := Option.bind_eq_some_iff.mp hm
      obtain ⟨mp, hmp, hm⟩ := Option.bind_eq_some_iff.mp hm
      split at hm
      · obtain rfl := Option.some.inj hm
        simp only [datum_of_chainsAgree same array free.1 hma agree.left,
          datum_of_chainsAgree same position free.2 hmp agree.right]
      · cases hm
  | .call _ _, free, _, _, _ => nomatch free
  | .lambda _ _, _, _, hm, _ => nomatch hm

theorem datum_of_chainsAgree_members (same : ∀ n, n ≠ name → data n = data' n) :
    (members : List (String × Expr)) → allCallFree members = true → ∀ ⦃ms⦄,
    memberMeanings? engine registry other? scope members = some ms →
    ChainsAgree engine registry other? scope name data data' (memberChainsOf name members) →
    ms.mapM (fun m => (m.2.datum data).map (m.1, ·)) =
      ms.mapM fun m => (m.2.datum data').map (m.1, ·)
  | [], _, ms, hms, _ => by
      obtain rfl := Option.some.inj hms
      rfl
  | (n, e) :: rest, free, ms, hms, agree => by
      rw [allCallFree, Bool.and_eq_true] at free
      obtain ⟨m, hm, hms⟩ := Option.bind_eq_some_iff.mp hms
      obtain ⟨more, hmore, hms⟩ := Option.bind_eq_some_iff.mp hms
      obtain rfl := Option.some.inj hms
      rw [List.mapM_cons, List.mapM_cons, datum_of_chainsAgree same e free.1 hm agree.left,
        datum_of_chainsAgree_members same rest free.2 hmore agree.right]
end

end Chains

/-- A lambda of two parameters reads of the first one nothing on a path. With equal names it
does not read the first one at all. -/
def Spares (registry : Registry) (c : Context) (outer inner : String) (names : List String)
    (body : Expr) : Prop :=
  outer ≠ inner → ∀ chain ∈ body.chainsOf outer, ∃ t c',
    (chain.bind registry).Yields c t c' ∧ t.Spares names

/-- What a lambda of two parameters gives for pairs of an element and an item. -/
def results? (engine : Engine) (registry : Registry) (outer item : String) (body : Expr)
    (element : Outline) (codec : Codec) (pairs : List (Datum × Value)) :
    Option (List (Option Value)) := do
  let m ← body.meaning? engine registry (fun _ _ => none) (pairOutlines outer item element codec)
  pairs.mapM fun q => (m.datum (pairData outer item q.1 q.2)).map Datum.stored

end Expr

/-! ### Binding a flattening -/

section Binding

variable {p p' : Pipeline} {t inner : Term} {site : String} {call : Call Expr}
  {collection body : Expr} {outer item : String} {c c' : Context}

theorem Pipeline.eq_of_unwind (h : p.unwind t site = .ok (p', inner)) :
    ∃ path codec, t = .field path (.arrayOf codec) ∧ path.isRowField = true ∧
      p' = p.flush.push (.unwind path) ∧ inner = .field path codec := by
  unfold unwind at h
  split at h
  · rename_i path codec
    split at h
    · rename_i rowField
      split at h
      · rename_i codec
        cases h
        exact ⟨path, codec, rfl, rowField, rfl, rfl⟩
      · cases h
      · cases h
    · cases h
  · cases h

/-- The result is bound where its parameters stand for the element and the item. -/
theorem Operator.flattenSelector_yields {l l' : Lambda} {u : Term}
    (arguments : call.arguments = [collection, .lambda [outer, item] body])
    (h : (Operator.flattenSelector l t u (Expr.bindArguments registry call)).Yields c l' c') :
    ∃ c₁, (body.bind registry).Yields (c.pushPair outer item t u) l'.body c₁ := by
  have second : (Expr.bindArguments registry call).arguments[1]? =
      some (.lambda [outer, item] body (body.bind registry)) := by
    rw [Call.argument_bindArguments arguments]
    cases collection <;> rfl
  rw [flattenSelector, second] at h
  simp only [Argument.bindPair, BindM.yields_bind, BindM.yields_within, BindM.yields_pure] at h
  obtain ⟨_, _, ⟨c₁, hbody, rfl⟩, rfl, rfl⟩ := h
  exact ⟨c₁, hbody⟩

/-- **A flattening** unwinds the path of the array and reads its result from the copies. -/
theorem Query.flatten_yields (hop : Operator.ofCall call = .ok .flatten)
    (arguments : call.arguments = [collection, .lambda [outer, item] body])
    (h : (Query.bindClauses registry p [call]).Yields c p' c') :
    ∃ parameter source path codec, ∃ c₁ c₂ c₃ : Context, collection = .lambda [parameter] source ∧
      (source.bind registry).Yields (c.push parameter p.projector)
        (.field path (.arrayOf codec)) c₁ ∧
      path.isRowField = true ∧ p'.stages = p.flush.stages ++ [.unwind path] ∧
      p'.paging = {} ∧ c₂.scopes = c.scopes ∧
      (body.bind registry).Yields (c₂.pushPair outer item p.projector (.field path codec))
        p'.projector c₃ := by
  simp only [Query.bindClauses, BindM.yields_bind, BindM.yields_ofExcept] at h
  obtain ⟨op, c₁, ⟨hop', rfl⟩, applied, c₂, happly, h⟩ := h
  obtain rfl : op = .flatten := Except.ok.inj (hop'.symm.trans hop)
  simp only [Operator.apply, Operator.flattenStep, BindM.yields_bind, BindM.yields_ofExcept,
    BindM.yields_pure] at happly
  obtain ⟨s, _, ⟨l, c₃, hl, ⟨unwound, inner⟩, _, ⟨hunwind, rfl⟩, l', c₄, hl', hproject, rfl⟩,
    rfl, rfl⟩ := happly
  obtain ⟨parameter, source, c₅, rfl, -, hsource, rfl⟩ := Call.lambda_yields arguments hl
  obtain ⟨path, codec, hbody, rowField, rfl, rfl⟩ := Pipeline.eq_of_unwind hunwind
  obtain ⟨c₆, hresult⟩ := Operator.flattenSelector_yields arguments hl'
  obtain rfl := Except.ok.inj hproject
  obtain ⟨rfl, rfl⟩ := BindM.yields_pure.mp h
  rw [hbody] at hsource
  have same : c₅.scopes.pop = c.scopes := by
    rw [Expr.scopes_of_bind hsource]
    rfl
  exact ⟨parameter, source, path, codec, c₅, _, c₆, rfl, hsource, rowField, rfl, rfl, same,
    hresult⟩

end Binding

/-! ### Results -/

/-- Rows, each with one item after the other of the array that names lead to. -/
def Value.eachItem (names : List String) (rows : List Value) : List (Value × Value) :=
  rows.flatMap fun row => (row.itemsAt names).map (row, ·)

/-- Unwinding puts each item where the array was. -/
theorem Stage.run_unwind (unwinds : engine.Unwinds) {path : FieldPath}
    (rowField : path.isRowField = true) {rows : List Value}
    (arrays : ∀ row ∈ rows, ∃ items, row.at? path.segments = some (.array items)) :
    (Stage.unwind path).run engine rows =
      (Value.eachItem path.segments rows).map fun q => Value.put q.2 path.segments q.1 := by
  rw [Stage.run, Value.eachItem, List.map_flatMap]
  refine List.flatMap_congr fun row hrow => ?_
  obtain ⟨items, hitems⟩ := arrays row hrow
  rw [unwinds path row items rowField hitems, Value.itemsAt, hitems, List.map_map]
  rfl

theorem Value.mem_of_mem_eachItem {names : List String} {rows : List Value}
    {q : Value × Value} (h : q ∈ eachItem names rows) : q.1 ∈ rows := by
  obtain ⟨row, hrow, hq⟩ := List.mem_flatMap.mp h
  obtain ⟨v, -, rfl⟩ := List.mem_map.mp hq
  exact hrow

section Results

variable {p : Pipeline} {path : FieldPath} {codec : Codec} {outer item : String}
  {body : Expr} {m : Meaning} {row u v : Value}

theorem Context.outlines_pair {c : Context} (top : c.scopes = {}) :
    (c.pushPair outer item p.projector (.field path codec)).outlines =
      pairOutlines outer item p.projector.outline codec := by
  rw [Context.outlines_pushPair, Context.outlines_of_top top]
  rfl

/-- In a copy of a row, the parameters of the result stand for what the projector reads there
and for the item. -/
theorem Context.data_copy {c : Context} (top : c.scopes = {})
    (rowField : path.isRowField = true) (found : row.at? path.segments = some u) :
    (c.pushPair outer item p.projector (.field path codec)).data engine
        ⟨Value.put v path.segments row, []⟩ =
      pairData outer item (p.projector.datum engine ⟨Value.put v path.segments row, []⟩) v := by
  have fromRow : path.var = none := by
    simp only [FieldPath.isRowField, Bool.and_eq_true, Option.isNone_iff_eq_none] at rowField
    exact rowField.1
  have read : (Term.field path codec).datum engine ⟨Value.put v path.segments row, []⟩ =
      .value (some v) := by
    rw [Term.datum_of_isValue rfl, Term.eval, FieldPath.eval, fromRow]
    exact congrArg Datum.value (Value.readAll_put found v)
  rw [Context.data_pushPair, Context.data_of_top top, read]
  rfl

/-- What a result reads of the element, it reads from a copy of the row as from the row. -/
theorem Expr.Spares.datum (exact : engine.Exact) {c : Context} (top : c.scopes = {})
    (spares : body.Spares registry (c.pushPair outer item p.projector (.field path codec))
      outer item path.segments) (free : body.isCallFree = true)
    (hm : body.meaning? engine registry other?
      (pairOutlines outer item p.projector.outline codec) = some m)
    (found : row.at? path.segments = some u) :
    m.datum (pairData outer item (p.projector.datum engine ⟨row, []⟩) v) =
      m.datum (pairData outer item
        (p.projector.datum engine ⟨Value.put v path.segments row, []⟩) v) := by
  by_cases named : outer = item
  · rw [named]
    exact congrArg m.datum (pairData_self ..)
  refine datum_of_chainsAgree (fun n hn => pairData_of_ne hn ..) body free hm ?_
  intro chain hchain isChain mc hmc
  obtain ⟨t, c', ht, apart⟩ := spares named chain hchain
  obtain ⟨chainFree, names⟩ := parameterNames_of_isChainOf isChain
  obtain ⟨-, m', hm', stands⟩ := standsFor_of_bind exact chain chainFree ht
  rw [Context.outlines_pair top] at hm'
  obtain rfl : mc = m' := Option.some.inj (hmc.symm.trans hm')
  -- The chain reads the element only, and its term reads the copy as it reads the row.
  have read (env : Env) : mc.datum (pairData outer item (p.projector.datum engine env) v) =
      some (t.datum engine env) := by
    refine stands.datum fun name hname => ?_
    rw [names, List.mem_singleton] at hname
    rw [hname, pairData_outer named, Context.data_pushPair, Function.update_of_ne named,
      Function.update_self]
  rw [read, read, apart.datum found]

end Results

/-- **A result sees the element from before the unwinding, as long as it reads nothing of the
array there.** A flattening unwinds the path of its array. In any case, the result is read with
the item, and with the element as the projector reads it from the copy of the row. If no chain
of members by which the result reads the element leads to the array, through it or to a
document around it, then this is the element of the row itself: the values are those of
flattening on lists. -/
theorem Query.flattens_if_spared (exact : engine.Exact) (unwinds : engine.Unwinds)
    {call : Call Expr} {collection body : Expr} {outer item : String}
    (hop : Operator.ofCall call = .ok .flatten)
    (arguments : call.arguments = [collection, .lambda [outer, item] body])
    (free : body.isCallFree = true) {p p' : Pipeline} {c c' : Context} (top : c.scopes = {})
    (h : (Query.bindClauses registry p [call]).Yields c p' c') :
    ∃ parameter source path codec, ∃ c₁ : Context, collection = .lambda [parameter] source ∧
      (source.bind registry).Yields (c.push parameter p.projector)
        (.field path (.arrayOf codec)) c₁ ∧
      p'.stages = p.flush.stages ++ [.unwind path] ∧ p'.paging = {} ∧
      ∀ rows, (∀ row ∈ rows, ∃ items, row.at? path.segments = some (.array items)) →
        body.results? engine registry outer item p.projector.outline codec
            ((Value.eachItem path.segments rows).map fun q =>
              (p.projector.datum engine ⟨Value.put q.2 path.segments q.1, []⟩, q.2)) =
          some (((Stage.unwind path).run engine rows).map (p'.projector.valueIn engine)) ∧
        (body.Spares registry (c.pushPair outer item p.projector (.field path codec)) outer item
          path.segments →
          body.results? engine registry outer item p.projector.outline codec
            ((Value.eachItem path.segments rows).map fun q =>
              (p.projector.datum engine ⟨q.1, []⟩, q.2)) =
          some (((Stage.unwind path).run engine rows).map (p'.projector.valueIn engine))) := by
  obtain ⟨parameter, source, path, codec, c₁, c₂, c₃, rfl, hsource, rowField, stages, paging, same,
    hbody⟩ := Query.flatten_yields hop arguments h
  refine ⟨parameter, source, path, codec, c₁, rfl, hsource, stages, paging, ?_⟩
  intro rows arrays
  obtain ⟨-, m, hm, stands⟩ := Expr.standsFor_of_bind exact body free hbody
  rw [Context.outlines_pair (same.trans top)] at hm
  -- Reading the result for each pair as from the copy gives the values of the pipeline.
  have results (element : Value × Value → Datum) (read : ∀ q ∈ Value.eachItem path.segments rows,
      m.datum (pairData outer item (element q) q.2) =
        some (p'.projector.datum engine ⟨Value.put q.2 path.segments q.1, []⟩)) :
      body.results? engine registry outer item p.projector.outline codec
        ((Value.eachItem path.segments rows).map fun q => (element q, q.2)) =
          some (((Stage.unwind path).run engine rows).map (p'.projector.valueIn engine)) := by
    rw [Stage.run_unwind unwinds rowField arrays, List.map_map, Expr.results?, hm,
      Option.bind_eq_bind, Option.bind_some, List.mapM_map]
    refine GroupElements.mapM_eq_some fun q hq => ?_
    rw [Function.comp_apply, read q hq, Option.map_some, Term.stored_datum]
    rfl
  have copy (q : Value × Value) (hq : q ∈ Value.eachItem path.segments rows) :
      m.datum (pairData outer item
        (p.projector.datum engine ⟨Value.put q.2 path.segments q.1, []⟩) q.2) =
          some (p'.projector.datum engine ⟨Value.put q.2 path.segments q.1, []⟩) := by
    obtain ⟨items, hitems⟩ := arrays q.1 (Value.mem_of_mem_eachItem hq)
    rw [← Context.data_copy (same.trans top) rowField hitems]
    exact stands.datum fun _ _ => rfl
  refine ⟨results _ copy, fun spares => results _ fun q hq => ?_⟩
  obtain ⟨items, hitems⟩ := arrays q.1 (Value.mem_of_mem_eachItem hq)
  rw [← copy q hq]
  exact spares.datum exact top free hm hitems

/-! ### An engine that unwinds -/

namespace Engine

/-- The folding engine, with an item after the other in place of the array. -/
def unwinding : Engine :=
  { folding with
    unwind := fun path row =>
      (row.itemsAt path.segments).map fun v => Value.put v path.segments row }

theorem exact_unwinding : unwinding.Exact := ⟨fun h => h, fun h => h, fun _ => rfl⟩

theorem unwinds_unwinding : unwinding.Unwinds := by
  intro path row items _ found
  simp only [unwinding, Value.itemsAt, found]

end Engine

/-! ### People and their tags -/

/-- People with a name and with tags. -/
def tagged : Registry where
  classes := [.mk "Person" none
    [.mk "Name" "name" (.static .string), .mk "Tags" "tags" (.static (.array .string))]]

/-- The people of the collection. -/
def taggedPeople : Pipeline := .ofRoot ((tagged.codec? (.document "Person")).getD .dynamic)

/-- Flattens the tags, with a result for each person and tag. -/
def flattenTags (result : Expr) : Call Expr :=
  ⟨"Queryable", "SelectMany", [],
    [.lambda ["x"] (.member (.param "x") "Tags"), .lambda ["x", "t"] result]⟩

/-- The name of the person, with the tag. -/
def nameAndTag : Expr := .new [("Owner", .member (.param "x") "Name"), ("Tag", .param "t")]

/-- A person with two tags. -/
def ann : Value :=
  .document [("name", .string "Ann"), ("tags", .array [.string "chess", .string "go"])]

/-- The pipeline that gives each name with each tag. -/
def namesAndTags : Pipeline where
  stages := [.unwind (.field "tags")]
  projector := .document
    [("Owner", .field (.field "name") .string), ("Tag", .field (.field "tags") .string)]

/-- The name is not where the tags are. -/
theorem namesAndTags_flattened :
    (Query.bindClauses tagged taggedPeople [flattenTags nameAndTag]).Yields {} namesAndTags {} ∧
      nameAndTag.results? .unwinding tagged "x" "t" taggedPeople.projector.outline .string
          [(.value (some ann), .string "chess"), (.value (some ann), .string "go")] =
        some (((Stage.unwind (.field "tags")).run .unwinding [ann]).map
          (namesAndTags.projector.valueIn .unwinding)) := by
  have bound : (Query.bindClauses tagged taggedPeople [flattenTags nameAndTag]).Yields {}
    namesAndTags {} := rfl
  obtain ⟨parameter, source, path, codec, c₁, hcollection, hsource, hstages, -, flattened⟩ :=
    Query.flattens_if_spared Engine.exact_unwinding Engine.unwinds_unwinding rfl rfl (by decide)
      rfl bound
  cases hcollection
  cases hstages
  have tags : ((Expr.member (.param "x") "Tags").bind tagged).Yields
    (({} : Context).push "x" taggedPeople.projector) (.field (.field "tags") (.arrayOf .string))
    (({} : Context).push "x" taggedPeople.projector) := rfl
  obtain ⟨hcodec, -⟩ := hsource.unique tags
  cases hcodec
  have spared : nameAndTag.Spares tagged
      (({} : Context).pushPair "x" "t" taggedPeople.projector (.field (.field "tags") .string))
      "x" "t" ["tags"] := by
    intro _ chain hchain
    obtain rfl : chain = .member (.param "x") "Name" := List.mem_singleton.mp hchain
    exact ⟨.field (.field "name") .string, _, rfl, by decide⟩
  have arrays : ∀ row ∈ [ann], ∃ items, row.at? ["tags"] = some (.array items) := by
    intro row hrow
    obtain rfl := List.mem_singleton.mp hrow
    exact ⟨_, rfl⟩
  exact ⟨bound, (flattened [ann] arrays).2 spared⟩

/-- The tags of the person, once for every tag. -/
def tagsOfOwner : Expr := .member (.param "x") "Tags"

/-- The unwinding has put a tag where the tags are read. -/
theorem tagsOfOwner_gives_the_tag :
    ∃ p' c', (Query.bindClauses tagged taggedPeople [flattenTags tagsOfOwner]).Yields {} p' c' ∧
      p'.stages = [.unwind (.field "tags")] ∧
      tagsOfOwner.results? .unwinding tagged "x" "t" taggedPeople.projector.outline .string
          [(.value (some ann), .string "chess"), (.value (some ann), .string "go")] =
        some [some (.array [.string "chess", .string "go"]),
          some (.array [.string "chess", .string "go"])] ∧
      ((Stage.unwind (.field "tags")).run .unwinding [ann]).map
          (p'.projector.valueIn .unwinding) = [some (.string "chess"), some (.string "go")] :=
  ⟨_, _, rfl, rfl, rfl, rfl⟩

end QueryPipeline
