import Mathlib.Data.Fintype.EquivFin
import Mathlib.Data.List.Basic
import QueryPipeline.Compile
import QueryPipeline.Proofs.Binding.Clauses
import QueryPipeline.Proofs.Binding.Matching

/-!
Names of parameters. A parameter of a lambda can be called anything that occurs nowhere in its
query: compiling the query gives the same command, or fails with the same number
(`Query.compile_renameParameter`). Its name decides nothing but what the texts of failures say,
since the rows of a pipeline are read without variables; a lambda over the items of an array is a
different matter, because the server is given the name of its parameter.
-/

namespace QueryPipeline

/-! ### Renaming -/

namespace Expr

mutual
/-- Renames the parameters that an expression reads, but not those of its own lambdas. -/
def rename (f : String → String) : Expr → Expr
  | .const value type => .const value type
  | .param name => .param (f name)
  | .member target name => .member (target.rename f) name
  | .unary op operand => .unary op (operand.rename f)
  | .binary op left right => .binary op (left.rename f) (right.rename f)
  | .cond test ifTrue ifFalse => .cond (test.rename f) (ifTrue.rename f) (ifFalse.rename f)
  | .new members => .new (renameMembers f members)
  | .index array position => .index (array.rename f) (position.rename f)
  | .call source c => .call (source.rename f) (renameCall f c)
  | .lambda parameters body =>
    .lambda parameters (body.rename fun name => if name ∈ parameters then name else f name)

def renameMembers (f : String → String) : List (String × Expr) → List (String × Expr)
  | [] => []
  | (name, e) :: rest => (name, e.rename f) :: renameMembers f rest

def renameCall (f : String → String) : Call Expr → Call Expr
  | ⟨declaringType, name, types, arguments⟩ =>
    ⟨declaringType, name, types, renameEach f arguments⟩

def renameEach (f : String → String) : List Expr → List Expr
  | [] => []
  | e :: rest => e.rename f :: renameEach f rest
end

mutual
/-- The names of the parameters that an expression reads or binds. -/
def parameterNames : Expr → List String
  | .const _ _ => []
  | .param name => [name]
  | .member target _ => target.parameterNames
  | .unary _ operand => operand.parameterNames
  | .binary _ left right => left.parameterNames ++ right.parameterNames
  | .cond test ifTrue ifFalse =>
    test.parameterNames ++ (ifTrue.parameterNames ++ ifFalse.parameterNames)
  | .new members => memberParameterNames members
  | .index array position => array.parameterNames ++ position.parameterNames
  | .call source c => source.parameterNames ++ callParameterNames c
  | .lambda parameters body => parameters ++ body.parameterNames

def memberParameterNames : List (String × Expr) → List String
  | [] => []
  | (_, e) :: rest => e.parameterNames ++ memberParameterNames rest

def callParameterNames : Call Expr → List String
  | ⟨_, _, _, arguments⟩ => argumentParameterNames arguments

def argumentParameterNames : List Expr → List String
  | [] => []
  | e :: rest => e.parameterNames ++ argumentParameterNames rest
end

/-- What the names in the body of a lambda become when one of its parameters is given a new
name. A name that a later parameter has, too, is read as that one. -/
def renamed (parameters : List String) (k : Nat) (fresh name : String) : String :=
  if parameters[k]? = some name ∧ name ∉ parameters.drop (k + 1) then fresh else name

/-- Gives a parameter of a lambda a new name, and renames it in the body. -/
def renameParameter (k : Nat) (fresh : String) : Expr → Expr
  | .lambda parameters body =>
    .lambda (parameters.set k fresh) (body.rename (renamed parameters k fresh))
  | e => e

end Expr

/-- Gives a parameter of a lambda that is an argument of a clause a new name. -/
def Query.renameParameter (q : Query) (clause argument parameter : Nat) (fresh : String) :
    Query :=
  { q with clauses := q.clauses.modify clause fun call =>
      { call with arguments :=
          call.arguments.modify argument (Expr.renameParameter parameter fresh) } }

/-- The names of the parameters that a query reads or binds. -/
def Query.parameterNames (q : Query) : List String :=
  q.clauses.flatMap Expr.callParameterNames

/-! ### Scopes -/

namespace Scopes

variable {κ α : Type} [DecidableEq κ] {s : Scopes κ α} {name : κ}

/-- What the last of some names stands for that is a given one. -/
def last? (names : List κ) (values : List α) (name : κ) : Option α :=
  ((names.zip values).reverse.find? (·.1 == name)).map Prod.snd

theorem lookup_push_zip {names : List κ} {values : List α} :
    (s.push (names.zip values)).lookup name = (last? names values name).or (s.lookup name) := by
  rw [lookup, push, List.findSome?_cons, last?]
  cases (names.zip values).reverse.find? (·.1 == name) <;> rfl

theorem last?_cons {names : List κ} {values : List α} {key : κ} {a : α} :
    last? (key :: names) (a :: values) name =
      (last? names values name).or (if key = name then some a else none) := by
  rw [last?, last?, List.zip_cons_cons, List.reverse_cons, List.find?_append]
  cases (names.zip values).reverse.find? (·.1 == name) with
  | some p => rfl
  | none =>
    by_cases h : key = name
    · simp [h]
    · simp [h]

theorem last?_isSome {names : List κ} {values : List α}
    (hlength : values.length = names.length) :
    (last? names values name).isSome ↔ name ∈ names := by
  induction names generalizing values with
  | nil => simp [last?]
  | cons key names ih =>
    cases values with
    | nil => cases hlength
    | cons a values =>
      rw [last?_cons, Option.isSome_or, Bool.or_eq_true, ih (Nat.succ.inj hlength),
        List.mem_cons]
      by_cases h : key = name
      · simp [h]
      · simp [h, Ne.symm h]

theorem last?_eq_none {names : List κ} {values : List α}
    (hlength : values.length = names.length) (h : name ∉ names) :
    last? names values name = none := by
  by_contra found
  exact h ((last?_isSome hlength).mp (Option.isSome_iff_ne_none.mpr found))

end Scopes

section Renamed

variable {p : String} {ps : List String} {k : Nat} {fresh name : String}

theorem renamed_zero :
    Expr.renamed (p :: ps) 0 fresh name = if p = name ∧ name ∉ ps then fresh else name := by
  simp only [Expr.renamed, List.getElem?_cons_zero, Option.some.injEq, List.drop_succ_cons,
    List.drop_zero]

theorem renamed_succ :
    Expr.renamed (p :: ps) (k + 1) fresh name = Expr.renamed ps k fresh name := by
  simp only [Expr.renamed, List.getElem?_cons_succ, List.drop_succ_cons]

/-- A name that becomes the fresh one is one of the names. -/
theorem renamed_cases (ps : List String) (k : Nat) (fresh name : String) :
    Expr.renamed ps k fresh name = name ∨
      Expr.renamed ps k fresh name = fresh ∧ name ∈ ps := by
  unfold Expr.renamed
  split
  · rename_i h
    exact .inr ⟨rfl, List.mem_of_getElem? h.1⟩
  · exact .inl rfl

/-- With one of some names replaced by a fresh one, what becomes the fresh name stands for
what it stood for before, and so does every other name. -/
theorem last?_renamed {ts : List Term} (hlength : ts.length = ps.length)
    (hfresh : fresh ∉ ps) (hname : name ≠ fresh) :
    Scopes.last? ps ts name =
      Scopes.last? (ps.set k fresh) ts (Expr.renamed ps k fresh name) := by
  induction ps generalizing k ts with
  | nil => simp [Expr.renamed]
  | cons p ps ih =>
    cases ts with
    | nil => cases hlength
    | cons t ts =>
      have hlength : ts.length = ps.length := Nat.succ.inj hlength
      obtain ⟨hp, hfresh⟩ : fresh ≠ p ∧ fresh ∉ ps := not_or.mp (mt List.mem_cons.mpr hfresh)
      have earlier (hmem : name ∈ ps) : ∃ u, Scopes.last? ps ts name = some u :=
        Option.isSome_iff_exists.mp ((Scopes.last?_isSome hlength).mpr hmem)
      cases k with
      | zero =>
        rw [List.set_cons_zero, renamed_zero, Scopes.last?_cons, Scopes.last?_cons]
        by_cases h : p = name ∧ name ∉ ps
        · rw [if_pos h, if_pos h.1, if_pos rfl, Scopes.last?_eq_none hlength h.2,
            Scopes.last?_eq_none hlength hfresh]
        · rw [if_neg h, if_neg (Ne.symm hname)]
          by_cases hmem : name ∈ ps
          · obtain ⟨u, hu⟩ := earlier hmem
            rw [hu]
            rfl
          · rw [if_neg fun heq => h ⟨heq, hmem⟩]
      | succ k =>
        have later := ih (k := k) hlength hfresh
        rw [List.set_cons_succ, renamed_succ, Scopes.last?_cons, Scopes.last?_cons, ← later]
        rcases renamed_cases ps k fresh name with heq | ⟨-, hmem⟩
        · rw [heq]
        · obtain ⟨u, hu⟩ := earlier hmem
          rw [hu]
          rfl

end Renamed

/-! ### Expressions -/

/-- Two scopes in which expressions are bound that do not mention a fresh name: each name has
become itself or the fresh one, and stands for the same. -/
structure Renames (f : String → String) (fresh : String) (s s' : Scopes String Term) :
    Prop where
  image (name) : f name = name ∨ f name = fresh
  lookup (name) : name ≠ fresh → s.lookup name = s'.lookup (f name)

/-- The parameters of a lambda inside keep their names. -/
theorem Renames.push {f : String → String} {fresh : String} {s s' : Scopes String Term}
    (h : Renames f fresh s s') {ps : List String} (hfresh : fresh ∉ ps) {ts : List Term}
    (hlength : ts.length = ps.length) :
    Renames (fun name => if name ∈ ps then name else f name) fresh (s.push (ps.zip ts))
      (s'.push (ps.zip ts)) where
  image name := by
    by_cases hmem : name ∈ ps
    · exact .inl (if_pos hmem)
    · simpa only [if_neg hmem] using h.image name
  lookup name hname := by
    rw [Scopes.lookup_push_zip, Scopes.lookup_push_zip]
    by_cases hmem : name ∈ ps
    · obtain ⟨t, ht⟩ := Option.isSome_iff_exists.mp ((Scopes.last?_isSome hlength).mpr hmem)
      simp only [if_pos hmem, ht, Option.some_or]
    · have himage : f name ∉ ps := by
        rcases h.image name with heq | heq
        · rwa [heq]
        · rwa [heq]
      simp only [if_neg hmem, Scopes.last?_eq_none hlength hmem,
        Scopes.last?_eq_none hlength himage, Option.none_or]
      exact h.lookup name hname

/-- A parameter of a lambda that is no argument inside another lambda. -/
theorem Renames.renamed {ps : List String} {k : Nat} {fresh : String} {s : Scopes String Term}
    (outermost : ∀ name, s.lookup name = none) (hfresh : fresh ∉ ps) {ts : List Term}
    (hlength : ts.length = ps.length) :
    Renames (Expr.renamed ps k fresh) fresh (s.push (ps.zip ts))
      (s.push ((ps.set k fresh).zip ts)) where
  image name := (renamed_cases ps k fresh name).imp id And.left
  lookup name hname := by
    rw [Scopes.lookup_push_zip, Scopes.lookup_push_zip, last?_renamed hlength hfresh hname,
      outermost, outermost]

/-- Calls denote operators whatever their arguments are called. -/
theorem Operator.ofCall_agree {call call' : Call Expr}
    (hname : call.name = call'.name) (htype : call.declaringType = call'.declaringType)
    (hlength : call.arguments.length = call'.arguments.length) :
    Agree Eq (Operator.ofCall call) (Operator.ofCall call') := by
  have denoted (op : Operator) : op.denotedBy call = op.denotedBy call' := by
    rw [denotedBy, denotedBy, hname, htype, hlength]
  unfold ofCall
  simp only [denoted]
  split
  · exact .refl
  · exact .error rfl

theorem Items.ofTerm_agree {t : Term} {site site' : String} :
    Agree Eq (Items.ofTerm t site) (Items.ofTerm t site') := by
  unfold Items.ofTerm
  split
  · exact .refl
  · exact .error rfl

/-- Inside an expression, too, operators with alike arguments match. -/
theorem Term.applyOperator_matches {registry : Registry} {s s' : Scopes String Term}
    {call call' : Call Argument} (alike : call.Alike s s' Eq call') (source : Term)
    (op : Operator) (text text' : String) :
    Matches s s' Eq (source.applyOperator registry op call text)
      (source.applyOperator registry op call' text') := by
  unfold Term.applyOperator
  split
  · exact matches_bind (Operator.apply_matches alike Group.blind _ registry op) fun _ _ h =>
      matches_pure (by rw [h])
  · split
    · refine matches_bind (matches_ofExcept Items.ofTerm_agree) ?_
      rintro items _ rfl
      exact matches_bind (Operator.apply_matches alike Items.blind _ registry op) fun _ _ h =>
        matches_pure (by rw [h])
    · exact matches_unsupported

namespace Expr

variable {registry : Registry} {fresh : String}

theorem rename_number {f : String → String} (e : Expr) :
    (e.rename f).number? = e.number? := by
  cases e <;> rfl

theorem length_renameEach {f : String → String} (es : List Expr) :
    (renameEach f es).length = es.length := by
  induction es with
  | nil => rfl
  | cons e es ih => rw [renameEach, List.length_cons, List.length_cons, ih]

/-- An argument of a call with the step that binds it. -/
def toArgument (registry : Registry) : Expr → Argument
  | .lambda parameters body => .lambda parameters body (body.bind registry)
  | e => .value e (e.bind registry)

theorem bindEach_eq (es : List Expr) : bindEach registry es = es.map (toArgument registry) := by
  induction es with
  | nil => rw [bindEach, List.map_nil]
  | cons e es ih =>
    rw [List.map_cons, ← ih]
    cases e <;> rw [bindEach, toArgument] <;> exact nofun

theorem bindArguments_eq (c : Call Expr) :
    bindArguments registry c = c.withArguments (c.arguments.map (toArgument registry)) := by
  obtain ⟨declaringType, name, types, arguments⟩ := c
  rw [bindArguments, bindEach_eq]
  rfl

theorem callParameterNames_eq (c : Call Expr) :
    callParameterNames c = c.arguments.flatMap parameterNames := by
  obtain ⟨declaringType, name, types, arguments⟩ := c
  rw [callParameterNames]
  induction arguments with
  | nil => rfl
  | cons e es ih => rw [argumentParameterNames, ih, List.flatMap_cons]

mutual
/-- **Renaming the parameters that an expression reads** to what stands for the same does not
change what it is bound to. -/
theorem bind_rename : ∀ (e : Expr) {f : String → String} {s s' : Scopes String Term},
    fresh ∉ e.parameterNames → Renames f fresh s s' →
    Matches s s' Eq (e.bind registry) ((e.rename f).bind registry)
  | .const value type, f, s, s', _, _ => by
    simp only [rename, Expr.bind]
    split
    · exact matches_pure rfl
    · exact matches_throw rfl
  | .param name, f, s, s', hfresh, h => by
    simp only [rename, Expr.bind]
    exact matches_lookup (h.lookup name fun heq => hfresh (heq ▸ List.mem_singleton_self _))
  | .member target name, f, s, s', hfresh, h => by
    simp only [rename, Expr.bind]
    refine matches_bind (bind_rename target hfresh h) ?_
    rintro t _ rfl
    split
    · exact matches_pure rfl
    · exact matches_throw rfl
  | .unary op operand, f, s, s', hfresh, h => by
    simp only [rename, Expr.bind]
    refine matches_bind (bind_rename operand hfresh h) ?_
    rintro t _ rfl
    exact matches_pure rfl
  | .binary op left right, f, s, s', hfresh, h => by
    simp only [parameterNames, List.mem_append, not_or] at hfresh
    simp only [rename, Expr.bind]
    refine matches_bind (bind_rename left hfresh.1 h) ?_
    rintro l _ rfl
    refine matches_bind (bind_rename right hfresh.2 h) ?_
    rintro r _ rfl
    exact matches_pure rfl
  | .cond test ifTrue ifFalse, f, s, s', hfresh, h => by
    simp only [parameterNames, List.mem_append, not_or] at hfresh
    simp only [rename, Expr.bind]
    refine matches_bind (bind_rename test hfresh.1 h) ?_
    rintro t _ rfl
    refine matches_bind (bind_rename ifTrue hfresh.2.1 h) ?_
    rintro u _ rfl
    refine matches_bind (bind_rename ifFalse hfresh.2.2 h) ?_
    rintro v _ rfl
    exact matches_pure rfl
  | .new members, f, s, s', hfresh, h => by
    simp only [rename, Expr.bind]
    refine matches_bind (bindMembers_rename members _ hfresh h) ?_
    rintro bound _ rfl
    exact matches_pure rfl
  | .index array position, f, s, s', hfresh, h => by
    simp only [parameterNames, List.mem_append, not_or] at hfresh
    simp only [rename, Expr.bind]
    refine matches_bind (bind_rename array hfresh.1 h) ?_
    rintro bound _ rfl
    split
    · refine matches_bind (bind_rename position hfresh.2 h) ?_
      rintro n _ rfl
      exact matches_pure rfl
    · exact matches_unsupported
  | .call source c, f, s, s', hfresh, h => by
    simp only [parameterNames, List.mem_append, not_or] at hfresh
    simp only [rename, Expr.bind]
    obtain ⟨hname, htype, hlength⟩ : c.name = (renameCall f c).name ∧
        c.declaringType = (renameCall f c).declaringType ∧
        c.arguments.length = (renameCall f c).arguments.length := by
      obtain ⟨declaringType, name, types, arguments⟩ := c
      exact ⟨rfl, rfl, (length_renameEach arguments).symm⟩
    refine matches_bind (matches_ofExcept (Operator.ofCall_agree hname htype hlength)) ?_
    rintro op _ rfl
    refine matches_bind (bind_rename source hfresh.1 h) ?_
    rintro bound _ rfl
    exact Term.applyOperator_matches (bindArguments_rename c hfresh.2 h) bound op _ _
  | .lambda parameters body, f, s, s', _, _ => by
    simp only [rename, Expr.bind]
    exact matches_unsupported

theorem bindMembers_rename : ∀ (members : List (String × Expr))
    (bound : UniqueMap String Term) {text text' : String} {f : String → String}
    {s s' : Scopes String Term},
    fresh ∉ memberParameterNames members → Renames f fresh s s' →
    Matches s s' Eq (bindMembers registry text bound members)
      (bindMembers registry text' bound (renameMembers f members))
  | [], bound, text, text', f, s, s', _, _ => by
    simp only [renameMembers, bindMembers]
    exact matches_pure rfl
  | (name, e) :: rest, bound, text, text', f, s, s', hfresh, h => by
    simp only [memberParameterNames, List.mem_append, not_or] at hfresh
    simp only [renameMembers, bindMembers]
    refine matches_bind (bind_rename e hfresh.1 h) ?_
    rintro t _ rfl
    split
    · exact bindMembers_rename rest _ hfresh.2 h
    · exact matches_unsupported

theorem bindArguments_rename : ∀ (c : Call Expr) {f : String → String}
    {s s' : Scopes String Term},
    fresh ∉ callParameterNames c → Renames f fresh s s' →
    (bindArguments registry c).Alike s s' Eq (bindArguments registry (renameCall f c))
  | ⟨_, _, _, arguments⟩, f, s, s', hfresh, h => by
    simp only [renameCall, bindArguments]
    exact ⟨rfl, bindEach_rename arguments hfresh h⟩

theorem bindEach_rename : ∀ (es : List Expr) {f : String → String}
    {s s' : Scopes String Term},
    fresh ∉ argumentParameterNames es → Renames f fresh s s' →
    List.Forall₂ (Argument.Alike s s' Eq) (bindEach registry es)
      (bindEach registry (renameEach f es))
  | [], f, s, s', _, _ => by
    simp only [renameEach, bindEach]
    exact .nil
  | e :: rest, f, s, s', hfresh, h => by
    simp only [argumentParameterNames, List.mem_append, not_or] at hfresh
    have others := bindEach_rename rest hfresh.2 h
    cases e with
    | lambda parameters body =>
      have hbody : fresh ∉ parameters ∧ fresh ∉ body.parameterNames := by
        simpa only [parameterNames, List.mem_append, not_or] using hfresh.1
      simp only [renameEach, rename, bindEach]
      refine .cons (.lambda (List.forall₂_same.mpr fun _ _ => rfl) ?_) others
      intro ts hlength
      exact bind_rename body hbody.2 (h.push hbody.1 hlength)
    | _ =>
      have value := bind_rename _ hfresh.1 h
      simp only [renameEach, rename, bindEach] at value ⊢
      exact .cons (.value (rename_number (f := f) _).symm value) others
end

mutual
/-- Renaming nothing changes nothing. -/
theorem rename_id : ∀ e : Expr, e.rename id = e
  | .const _ _ | .param _ => by simp only [rename, id]
  | .member target _ => by rw [rename, rename_id target]
  | .unary _ operand => by rw [rename, rename_id operand]
  | .binary _ left right => by rw [rename, rename_id left, rename_id right]
  | .cond test ifTrue ifFalse => by
    rw [rename, rename_id test, rename_id ifTrue, rename_id ifFalse]
  | .new members => by rw [rename, renameMembers_id members]
  | .index array position => by rw [rename, rename_id array, rename_id position]
  | .call source c => by rw [rename, rename_id source, renameCall_id c]
  | .lambda parameters body => by
    have kept : (fun name => if name ∈ parameters then name else id name) = id :=
      funext fun name => ite_self name
    rw [rename, kept, rename_id body]

theorem renameMembers_id : ∀ members, renameMembers id members = members
  | [] => by rw [renameMembers]
  | (_, e) :: rest => by rw [renameMembers, rename_id e, renameMembers_id rest]

theorem renameCall_id : ∀ c, renameCall id c = c
  | ⟨_, _, _, arguments⟩ => by rw [renameCall, renameEach_id arguments]

theorem renameEach_id : ∀ es, renameEach id es = es
  | [] => by rw [renameEach]
  | e :: rest => by rw [renameEach, rename_id e, renameEach_id rest]
end

/-- What binding an expression succeeds with leaves the scopes as they were. -/
theorem scopes_of_bind {e : Expr} {c c' : Context} {t : Term}
    (h : (e.bind registry).Yields c t c') : c'.scopes = c.scopes := by
  obtain ⟨fresh, hfresh⟩ := Infinite.exists_notMem_finset e.parameterNames.toFinset
  have itself : Matches c.scopes c.scopes Eq (e.bind registry) ((e.rename id).bind registry) :=
    e.bind_rename (fun hmem => hfresh (List.mem_toFinset.mpr hmem))
      ⟨fun _ => .inl rfl, fun _ _ => rfl⟩
  have ended := itself c.minted
  rw [BindM.Yields] at h
  rw [h] at ended
  generalize BindM.outcome _ _ = ended' at ended
  cases ended
  rfl

/-- An argument of a clause, over whose parameters nothing is in scope, is like itself. -/
theorem toArgument_alike {e : Expr} (hfresh : fresh ∉ e.parameterNames) :
    (toArgument registry e).Alike {} {} (fun _ _ => True) (toArgument registry e) := by
  have unchanged (s : Scopes String Term) : Renames id fresh s s :=
    ⟨fun _ => .inl rfl, fun _ _ => rfl⟩
  have bound {e : Expr} (hfresh : fresh ∉ e.parameterNames) (s : Scopes String Term) :
      Matches s s Eq (e.bind registry) (e.bind registry) := by
    have renamed : Matches s s Eq (e.bind registry) ((e.rename id).bind registry) :=
      bind_rename e hfresh (unchanged s)
    rwa [rename_id] at renamed
  cases e with
  | lambda parameters body =>
    have hbody : fresh ∉ body.parameterNames := fun hmem =>
      hfresh (List.mem_append_right _ hmem)
    exact .lambda (List.forall₂_same.mpr fun _ _ => trivial) fun _ _ => bound hbody _
  | _ => exact .value rfl (bound hfresh _)

/-- With a fresh name for a parameter it is alike. -/
theorem renameParameter_alike {e : Expr} (hfresh : fresh ∉ e.parameterNames) (k : Nat) :
    (toArgument registry e).Alike {} {} (fun _ _ => True)
      (toArgument registry (e.renameParameter k fresh)) := by
  cases e with
  | lambda parameters body =>
    obtain ⟨hparameters, hbody⟩ : fresh ∉ parameters ∧ fresh ∉ body.parameterNames := by
      simpa only [parameterNames, List.mem_append, not_or] using hfresh
    refine .lambda ?_ ?_
    · rw [List.forall₂_iff_get]
      exact ⟨(List.length_set ..).symm, fun _ _ _ => trivial⟩
    · intro ts hlength
      exact bind_rename body hbody (.renamed (fun _ => rfl) hparameters hlength)
  | _ => exact toArgument_alike hfresh

end Expr

/-! ### Queries -/

/-- A list is related to the list with one element changed, if each element is related to
itself and to what it may be changed to. -/
theorem forall₂_modify {α : Type} {rel : α → α → Prop} {f : α → α} {as : List α} (i : Nat)
    (same : ∀ a ∈ as, rel a a) (changed : ∀ a ∈ as, rel a (f a)) :
    List.Forall₂ rel as (as.modify i f) := by
  induction as generalizing i with
  | nil =>
    rw [List.modify_nil]
    exact .nil
  | cons a as ih =>
    have rest (b : α) (hb : b ∈ as) := List.mem_cons_of_mem a hb
    cases i with
    | zero =>
      rw [List.modify_zero_cons]
      exact .cons (changed a List.mem_cons_self)
        (List.forall₂_same.mpr fun b hb => same b (rest b hb))
    | succ i =>
      rw [List.modify_succ_cons]
      exact .cons (same a List.mem_cons_self)
        (ih i (fun b hb => same b (rest b hb)) fun b hb => changed b (rest b hb))

namespace Query

variable {registry : Registry} {fresh : String}

/-- The clauses are the same but for what parameters of their arguments are called. -/
structure Likeness (registry : Registry) (clause clause' : Call Expr) : Prop where
  name : clause.name = clause'.name
  declaringType : clause.declaringType = clause'.declaringType
  length : clause.arguments.length = clause'.arguments.length
  arguments : (Expr.bindArguments registry clause).Alike {} {} (fun _ _ => True)
    (Expr.bindArguments registry clause')

theorem likeness_of_arguments {clause : Call Expr} {arguments : List Expr}
    (h : List.Forall₂ (fun e e' => (Expr.toArgument registry e).Alike {} {} (fun _ _ => True)
      (Expr.toArgument registry e')) clause.arguments arguments) :
    Likeness registry clause { clause with arguments } where
  name := rfl
  declaringType := rfl
  length := h.length_eq
  arguments := by
    rw [Expr.bindArguments_eq, Expr.bindArguments_eq]
    exact ⟨rfl, List.forall₂_map_left_iff.mpr (List.forall₂_map_right_iff.mpr h)⟩

/-- **Clauses that differ in names of parameters only** make the same of a pipeline. -/
theorem bindClauses_matches {clauses clauses' : List (Call Expr)}
    (h : List.Forall₂ (Likeness registry) clauses clauses') (p : Pipeline) :
    Matches {} {} Eq (bindClauses registry p clauses) (bindClauses registry p clauses') := by
  induction h generalizing p with
  | nil => exact matches_pure rfl
  | @cons clause clause' rest rest' hclause hrest ih =>
    rw [bindClauses, bindClauses]
    have denoted := Operator.ofCall_agree hclause.name hclause.declaringType hclause.length
    refine matches_bind (matches_ofExcept denoted) ?_
    rintro op _ rfl
    refine matches_bind (Operator.apply_matches hclause.arguments Pipeline.blind p registry op) ?_
    rintro applied _ rfl
    cases applied with
    | sequence p => exact ih p
    | terminal p =>
      cases hrest with
      | nil => exact matches_pure rfl
      | cons => exact matches_unsupported

theorem bind_renameParameter {q : Query} (hfresh : fresh ∉ q.parameterNames)
    (clause argument parameter : Nat) :
    Matches {} {} Eq (q.bind registry)
      ((q.renameParameter clause argument parameter fresh).bind registry) := by
  have unnamed {c : Call Expr} (hc : c ∈ q.clauses) {e : Expr} (he : e ∈ c.arguments) :
      fresh ∉ e.parameterNames := by
    intro hmem
    refine hfresh (List.mem_flatMap.mpr ⟨c, hc, ?_⟩)
    rw [Expr.callParameterNames_eq]
    exact List.mem_flatMap.mpr ⟨e, he, hmem⟩
  have itself (c : Call Expr) (hc : c ∈ q.clauses) : Likeness registry c c :=
    likeness_of_arguments (List.forall₂_same.mpr fun e he =>
      Expr.toArgument_alike (unnamed hc he))
  have changed (c : Call Expr) (hc : c ∈ q.clauses) : Likeness registry c
      { c with arguments := c.arguments.modify argument (Expr.renameParameter parameter fresh) } :=
    likeness_of_arguments (forall₂_modify argument
      (fun e he => Expr.toArgument_alike (unnamed hc he))
      fun e he => Expr.renameParameter_alike (unnamed hc he) parameter)
  unfold Query.bind
  simp only [renameParameter]
  split
  · exact bindClauses_matches (forall₂_modify clause itself changed) _
  · exact matches_throw rfl

/-- **What parameters of top-level lambdas are called does not matter.** With a name that
occurs nowhere in the query for one of them, the query compiles to the same command or fails
with the same number. -/
theorem compile_renameParameter (registry : Registry) (o : Options) (q : Query)
    (clause argument parameter : Nat) {fresh : String} (h : fresh ∉ q.parameterNames) :
    ((q.renameParameter clause argument parameter fresh).compile registry o).mapError
        CompileError.code =
      (q.compile registry o).mapError CompileError.code := by
  have matched : Matches {} {} Eq (q.bind registry)
      ((q.renameParameter clause argument parameter fresh).bind registry) :=
    bind_renameParameter h clause argument parameter
  have ends := matched 0
  have bound (q : Query) : q.bound registry = (q.bind registry).outcome ⟨{}, 0⟩ := rfl
  unfold compile
  rw [bound, bound]
  generalize (q.bind registry).outcome ⟨{}, 0⟩ = outcome,
    ((q.renameParameter clause argument parameter fresh).bind registry).outcome ⟨{}, 0⟩ =
      outcome' at ends
  cases ends with
  | ok hsame =>
    subst hsame
    rfl
  | error hcode => exact congrArg Except.error hcode.symm

end Query

/-- How many of those with a name are young. Two lambdas call their parameter `x`. -/
def youngNamesakes (name : String) : Query where
  collection := "people"
  itemType := .document "Person"
  clauses := [⟨"Queryable", "GroupBy", [], [
    .lambda ["x"] (.member (.param "x") "Name"),
    .lambda [name, "g"] (.new [("Name", .param name), ("Young", .call (.param "g")
      ⟨"Enumerable", "Count", [], [.lambda ["x"] (.binary .lt
        (.member (.param "x") "Age") (.const (.int32 18) .int32))]⟩)])]⟩]

theorem youngNamesakes_renamed :
    "name" ∉ (youngNamesakes "x").parameterNames ∧
      (youngNamesakes "x").renameParameter 0 1 0 "name" = youngNamesakes "name" ∧
      ((youngNamesakes "name").compile people {}).mapError CompileError.code =
        ((youngNamesakes "x").compile people {}).mapError CompileError.code := by
  have fresh : "name" ∉ (youngNamesakes "x").parameterNames := by decide
  exact ⟨fresh, rfl, Query.compile_renameParameter people {} (youngNamesakes "x") 0 1 0 fresh⟩

end QueryPipeline
