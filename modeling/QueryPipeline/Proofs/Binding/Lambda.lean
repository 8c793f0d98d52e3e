import QueryPipeline.Proofs.Binding.Items

/-!
Lambdas over the items of an array. The parameter of a lambda is in scope as the item,
read by a variable of the lambda's own; terms in scope read only the variables around the
lambda, so as long as that variable is a new one they stand for the same inside and
outside. The body then gives for each item what the lambda means for it.
-/

namespace QueryPipeline

variable {engine : Engine} {registry : Registry} {other? : Others} {vars : List String}

/-! ### Parameters -/

namespace Context

/-- The outlines of what parameters in scope stand for. -/
def outlines (c : Context) (name : String) : Option Outline :=
  (c.scopes.lookup name).map Term.outline

/-- What parameters in scope stand for. -/
def data (engine : Engine) (env : Env) (c : Context) : Data := fun name =>
  (c.scopes.lookup name).map (Term.datum engine env)

/-- The context with one more parameter in scope. -/
def push (c : Context) (parameter : String) (t : Term) : Context :=
  { c with scopes := c.scopes.push [(parameter, t)] }

variable {c c' : Context} {parameter : String} {t : Term} {env : Env}

theorem lookup_push : (c.push parameter t).scopes.lookup =
    Function.update c.scopes.lookup parameter (some t) := by
  funext name
  by_cases h : name = parameter
  · subst h
    simp [push, Scopes.push, Scopes.lookup]
  · have h' : parameter ≠ name := Ne.symm h
    simp [push, Scopes.push, Scopes.lookup, h, h']

theorem outlines_push : (c.push parameter t).outlines =
    Function.update c.outlines parameter (some t.outline) := by
  funext name
  unfold outlines
  rw [lookup_push]
  by_cases h : name = parameter
  · subst h
    simp
  · simp [h]

theorem data_push : (c.push parameter t).data engine env =
    Function.update (c.data engine env) parameter (some (t.datum engine env)) := by
  funext name
  unfold data
  rw [lookup_push]
  by_cases h : name = parameter
  · subst h
    simp
  · simp [h]

theorem outlines_congr (h : c'.scopes = c.scopes) : c'.outlines = c.outlines := by
  funext name
  rw [outlines, outlines, h]

theorem data_congr (h : c'.scopes = c.scopes) : c'.data engine env = c.data engine env := by
  funext name
  rw [data, data, h]

theorem outlines_of_top (top : c.scopes = {}) : c.outlines = fun _ => none := by
  funext name
  rw [outlines, top]
  rfl

theorem data_of_top (top : c.scopes = {}) : c.data engine env = fun _ => none := by
  funext name
  rw [data, top]
  rfl

/-- Binding a variable that no term in scope reads changes nothing that parameters stand
for. -/
theorem data_bind {x : String} {v : Value} (reads : c.Every (Term.ReadsIn vars))
    (fresh : x ∉ vars) : c.data engine (env.bind x v) = c.data engine env := by
  funext name
  unfold data
  cases hlookup : c.scopes.lookup name with
  | none => rfl
  | some t =>
    have agree : Env.Agree t.reads (env.bind x v) env :=
      (Env.Agree.bind_of_notMem fresh env v).mono (reads name t hlookup)
    simp only [Option.map_some, Term.datum_congr t agree]

theorem countable_bind {x : String} {v : Value} (reads : c.Every (Term.ReadsIn vars))
    (fresh : x ∉ vars) (h : c.Every (Term.Countable engine env)) :
    c.Every (Term.Countable engine (env.bind x v)) := by
  intro name t hlookup
  have agree : Env.Agree t.reads (env.bind x v) env :=
    (Env.Agree.bind_of_notMem fresh env v).mono (reads name t hlookup)
  exact (h name t hlookup).congr ⟨agree.row.symm, fun x hx => (agree.var x hx).symm⟩

end Context

/-- A term means what an expression means whose parameters stand for the terms in scope. -/
structure Realizes (engine : Engine) (vars : List String) (c : Context) (m : Meaning)
    (t : Term) : Prop where
  outline : t.outline = m.outline
  reads : t.ReadsIn vars
  sliced : t.Sliced fun _ => True
  datum {env : Env} {d : Datum} : c.Every (Term.Countable engine env) →
    m.datum (c.data engine env) = some d →
    t.datum engine env = d ∧ t.Countable engine env

/-! ### Lambdas over items -/

/-- A bound lambda over the items of a sequence gives for each item what it means. -/
structure Selects (engine : Engine) (vars : List String) (c : Context) (f : Selector)
    (l : Lambda) : Prop where
  codec : l.body.codec = f.codec
  reads : ∀ x ∈ l.body.reads.filter (· != l.var), x ∈ vars
  value {env : Env} {v : Value} {r : Option Value} : c.Every (Term.Countable engine env) →
    f.value (c.data engine env) v = some r → l.body.eval engine (env.bind l.var v) = r

/-- The table of a lambda holds, for each item, the value of the bound body. -/
theorem Selects.table {c : Context} {f : Selector} {l : Lambda}
    (h : Selects engine vars c f l) {env : Env} {items : List Value}
    {table : List (Value × Option Value)} (countable : c.Every (Term.Countable engine env))
    (htable : f.table (c.data engine env) items = some table) :
    table = items.map fun v => (v, l.body.eval engine (env.bind l.var v)) := by
  unfold Selector.table at htable
  induction items generalizing table with
  | nil => simpa using htable.symm
  | cons v rest ih =>
    rw [List.mapM_cons] at htable
    obtain ⟨entry, hentry, htable⟩ := Option.bind_eq_some_iff.mp htable
    obtain ⟨r, hr, rfl⟩ := Option.map_eq_some_iff.mp hentry
    obtain ⟨more, hmore, htable⟩ := Option.bind_eq_some_iff.mp htable
    obtain rfl := Option.some.inj htable
    rw [List.map_cons, h.value countable hr, ih hmore]

/-- The items whose entry in the table is true are those for which the body is true. -/
theorem Selects.kept {c : Context} {f : Selector} {l : Lambda}
    (h : Selects engine vars c f l) {env : Env} {items : List Value}
    {table : List (Value × Option Value)} (countable : c.Every (Term.Countable engine env))
    (htable : f.table (c.data engine env) items = some table) :
    (table.filter fun a => engine.isTrue a.2).map Prod.fst =
      items.filter fun v => engine.isTrue (l.body.eval engine (env.bind l.var v)) := by
  rw [h.table countable htable, List.filter_map, List.map_map]
  exact List.map_id _

/-! ### Lambdas whose variables are kept apart -/

namespace Expr

mutual
/-- Whether no lambda in an expression has the variable of a lambda around it, or one of
the given variables. A valid variable name is its own variable, so this holds where
parameters have such names and are distinct along nesting. -/
def apart (around : List String) : Expr → Bool
  | .const _ _ | .param _ => true
  | .member target _ => target.apart around
  | .unary _ operand => operand.apart around
  | .binary _ left right => left.apart around && right.apart around
  | .cond test ifTrue ifFalse =>
      test.apart around && ifTrue.apart around && ifFalse.apart around
  | .new members => membersApart around members
  | .index array position => array.apart around && position.apart around
  | .call source c => source.apart around && callApart around c
  | .lambda parameters body =>
      let vars := parameters.map serverVar
      vars.all (fun x => !around.contains x) && body.apart (vars ++ around)

def membersApart (around : List String) : List (String × Expr) → Bool
  | [] => true
  | (_, e) :: rest => e.apart around && membersApart around rest

def callApart (around : List String) : Call Expr → Bool
  | ⟨_, _, _, arguments⟩ => allApart around arguments

def allApart (around : List String) : List Expr → Bool
  | [] => true
  | e :: rest => e.apart around && allApart around rest
end

/-- The meaning of one argument. -/
def operand (engine : Engine) (registry : Registry) (other? : Others)
    (scope : String → Option Outline) : Expr → Operand
  | .lambda [parameter] body =>
      .lambda parameter fun o =>
        body.meaning? engine registry other? (Function.update scope parameter (some o))
  | e => .value e (e.meaning? engine registry other? scope)

theorem operands_eq (scope : String → Option Outline) (arguments : List Expr) :
    operands engine registry other? scope arguments =
      arguments.map (operand engine registry other? scope) := by
  induction arguments with
  | nil => rfl
  | cons e rest ih =>
    rw [List.map_cons, ← ih]
    unfold operand
    split
    · rfl
    · rename_i no_lambda
      exact operands.eq_3 engine registry other? scope e rest no_lambda

theorem count_operand {scope : String → Option Outline} {e : Expr} {n : Nat}
    (h : (e.operand engine registry other? scope).count? = some n) :
    Paging.count? [e] = some n := by
  unfold operand at h
  split at h
  · cases h
  · exact h

theorem meaning_operand {scope : String → Option Outline} {e : Expr} {m : Meaning}
    (h : (e.operand engine registry other? scope).meaning? = some m) :
    e.meaning? engine registry other? scope = some m := by
  unfold operand at h
  split at h
  · cases h
  · exact h

end Expr

/-- Terms in scope read the variables around them, and leave something out where they
slice. -/
structure Context.Fit (vars : List String) (c : Context) : Prop where
  reads : c.Every (Term.ReadsIn vars)
  sliced : c.Every (Term.Sliced fun _ => True)

/-- Wherever an expression has a meaning, it is bound to a term that realizes it. -/
def Expr.Sound (engine : Engine) (registry : Registry) (other? : Others) (e : Expr) : Prop :=
  ∀ ⦃vars c m t c'⦄, e.apart vars = true → c.Fit vars →
    e.meaning? engine registry other? c.outlines = some m → (e.bind registry).Yields c t c' →
    c'.scopes = c.scopes ∧ Realizes engine vars c m t

theorem Context.Fit.congr {c c' : Context} (h : c.Fit vars) (same : c'.scopes = c.scopes) :
    c'.Fit vars :=
  ⟨h.reads.of_scopes_eq same, h.sliced.of_scopes_eq same⟩

theorem Realizes.congr {c c' : Context} {m : Meaning} {t : Term}
    (h : Realizes engine vars c m t) (same : c'.scopes = c.scopes) :
    Realizes engine vars c' m t where
  outline := h.outline
  reads := h.reads
  sliced := h.sliced
  datum countable hd :=
    h.datum (countable.of_scopes_eq same.symm) (by rwa [Context.data_congr same] at hd)

/-- The parameter of a lambda over items is in scope as the item. -/
theorem Context.Fit.push_item {c : Context} (h : c.Fit vars) (parameter x : String)
    (array : Term) (codec : Codec) : (c.push parameter (.item array x codec)).Fit (x :: vars) where
  reads := by
    refine (h.reads.mono fun t ht y hy => List.mem_cons_of_mem _ (ht y hy)).push ?_
    intro p hp
    obtain rfl := List.mem_singleton.mp hp
    intro y hy
    obtain rfl : y = x := by simpa [Term.reads] using hy
    exact List.mem_cons_self
  sliced := by
    refine h.sliced.push ?_
    intro p hp
    obtain rfl := List.mem_singleton.mp hp
    exact .other rfl rfl

/-- **A lambda over items is bound to a body that means the same**, for every item. -/
theorem Selects.of_lambda {call : Call Expr} {e : Expr} {s : Items} {c c' : Context}
    {l : Lambda} {f : Selector} (single : call.arguments = [e]) (apart : e.apart vars = true)
    (fit : c.Fit vars)
    (sound : ∀ parameter body, e = .lambda [parameter] body →
      body.Sound engine registry other?)
    (hf : (e.operand engine registry other? c.outlines).selector? s.codec = some f)
    (h : ((Expr.bindArguments registry call).lambda s).Yields c l c') :
    c'.scopes = c.scopes ∧ Selects engine vars c f l := by
  obtain ⟨parameter, body, c₁, rfl, hvar, hbody, rfl⟩ := Call.lambda_yields single h
  obtain ⟨var, t⟩ := l
  obtain rfl : var = serverVar parameter := hvar
  obtain ⟨fresh, apartBody⟩ : serverVar parameter ∉ vars ∧
      body.apart (serverVar parameter :: vars) = true := by
    simpa [Expr.apart] using apart
  obtain ⟨m, hm, hf⟩ := Option.bind_eq_some_iff.mp hf
  obtain rfl := Option.some.inj hf
  let item : Term := .item s.array (serverVar parameter) s.codec
  obtain ⟨hscopes, realizes⟩ := sound parameter body rfl (c := c.push parameter item)
    apartBody (fit.push_item ..) (by rw [Context.outlines_push]; exact hm) hbody
  refine ⟨by simp only [hscopes]; rfl, ?_, ?_, ?_⟩
  · rw [← Term.codec_outline, realizes.outline]
  · intro x hx
    obtain ⟨hread, hne⟩ := List.mem_filter.mp hx
    rcases List.mem_cons.mp (realizes.reads x hread) with rfl | hmem
    · simp at hne
    · exact hmem
  · intro env v r countable hr
    obtain ⟨d, hd, rfl⟩ := Option.map_eq_some_iff.mp hr
    -- The variable is a new one: binding it changes nothing that other parameters stand for.
    have hdata : (c.push parameter item).data engine (env.bind (serverVar parameter) v) =
        Function.update (c.data engine env) parameter (some (.value (some v))) := by
      rw [Context.data_push, Context.data_bind fit.reads fresh]
      simp [item, Term.datum, Term.eval]
    have countable' : (c.push parameter item).Every
        (Term.Countable engine (env.bind (serverVar parameter) v)) := by
      refine (Context.countable_bind fit.reads fresh countable).push ?_
      intro p hp
      obtain rfl := List.mem_singleton.mp hp
      exact .other rfl rfl
    obtain ⟨hdatum, _⟩ := realizes.datum countable' (by rw [hdata]; exact hd)
    rw [← Term.stored_datum, hdatum]

end QueryPipeline
