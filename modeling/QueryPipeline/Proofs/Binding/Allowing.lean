import QueryPipeline.Binding.Query

/-!
Binding with restricted names. Most names in a query have to be those of registered members;
only the members of a record and those of an untyped value are named as its author likes.
`Expr.bindAllowing` binds an expression and refuses such names if they are not allowed. If a
query has no other names than allowed ones, nothing is refused, and this is how it is bound.
-/

namespace QueryPipeline

/-- Reads a member of a bound term, an untyped value having only members with allowed
names. -/
def Term.memberAllowing (allowed : String → Bool) (registry : Registry) (target : Term)
    (name : String) : Option Term :=
  match target.codec with
  | .dynamic => if allowed name then target.member registry name else none
  | _ => target.member registry name

/-- What is read with an allowed name is read without the restriction, too. -/
theorem Term.memberAllowing_eq_some {allowed : String → Bool} {registry : Registry}
    {target t : Term} {name : String}
    (h : target.memberAllowing allowed registry name = some t) :
    target.member registry name = some t ∧ (target.codec = .dynamic → allowed name) := by
  unfold memberAllowing at h
  split at h
  · split at h
    · rename_i hname
      exact ⟨h, fun _ => hname⟩
    · cases h
  · rename_i typed
    exact ⟨h, fun untyped => absurd untyped typed⟩

theorem Term.memberAllowing_of_allowed {allowed : String → Bool} {registry : Registry}
    {target : Term} {name : String} (h : allowed name) :
    target.memberAllowing allowed registry name = target.member registry name := by
  unfold memberAllowing
  split
  · exact if_pos h
  · rfl

namespace Expr

/-! ### Expressions -/

mutual
/-- Binds an expression, allowing only some names for the members of records and of untyped
values. -/
def bindAllowing (allowed : String → Bool) (registry : Registry) : Expr → BindM Term
  | .const value type =>
    match registry.codec? type with
    | some codec => return .const value codec
    | none => throw (.unknownType type.text)
  | .param name => BindM.lookup name
  | .member target name => do
    let bound ← target.bindAllowing allowed registry
    match bound.memberAllowing allowed registry name with
    | some t => return t
    | none => throw (.unresolvedMember name (Expr.member target name).text)
  | .unary op operand => do return .foldUnary op (← operand.bindAllowing allowed registry)
  | .binary op left right => do
    let left ← left.bindAllowing allowed registry
    let right ← right.bindAllowing allowed registry
    return .foldBinary op left right
  | .cond test ifTrue ifFalse => do
    let test ← test.bindAllowing allowed registry
    let ifTrue ← ifTrue.bindAllowing allowed registry
    let ifFalse ← ifFalse.bindAllowing allowed registry
    return .foldCond test ifTrue ifFalse
  | .new members => do
    return .ofMembers
      (← bindMembersAllowing allowed registry (Expr.new members).text .empty members)
  | .index array position => do
    let bound ← array.bindAllowing allowed registry
    if bound.codec.isArray then
      return .elemAt bound (← position.bindAllowing allowed registry)
    else .unsupported (Expr.index array position).text
  | .call source c => do
    let op ← BindM.ofExcept (Operator.ofCall c)
    let bound ← source.bindAllowing allowed registry
    bound.applyOperator registry op (bindArgumentsAllowing allowed registry c)
      (Expr.call source c).text
  | .lambda parameters body => .unsupported (Expr.lambda parameters body).text

/-- Binds the members of a record, whose names must be allowed. -/
def bindMembersAllowing (allowed : String → Bool) (registry : Registry) (text : String)
    (bound : UniqueMap String Term) : List (String × Expr) → BindM (UniqueMap String Term)
  | [] => return bound
  | (name, e) :: rest =>
    if allowed name then do
      let t ← e.bindAllowing allowed registry
      match bound.insert name t with
      | .ok bound => bindMembersAllowing allowed registry text bound rest
      | .error _ => .unsupported text
    else .unsupported text

/-- A call with the steps that bind its arguments, which allow the same names. -/
def bindArgumentsAllowing (allowed : String → Bool) (registry : Registry) :
    Call Expr → Call Argument
  | ⟨declaringType, name, types, arguments⟩ =>
    ⟨declaringType, name, types, bindEachAllowing allowed registry arguments⟩

def bindEachAllowing (allowed : String → Bool) (registry : Registry) :
    List Expr → List Argument
  | [] => []
  | .lambda parameters body :: rest =>
    .lambda parameters body (body.bindAllowing allowed registry) ::
      bindEachAllowing allowed registry rest
  | e :: rest =>
    .value e (e.bindAllowing allowed registry) :: bindEachAllowing allowed registry rest
end

mutual
/-- The names of members that an expression gives or reads. -/
def memberNames : Expr → List String
  | .const _ _ | .param _ => []
  | .member target name => name :: target.memberNames
  | .unary _ operand => operand.memberNames
  | .binary _ left right => left.memberNames ++ right.memberNames
  | .cond test ifTrue ifFalse =>
    test.memberNames ++ (ifTrue.memberNames ++ ifFalse.memberNames)
  | .new members => recordNames members
  | .index array position => array.memberNames ++ position.memberNames
  | .call source c => source.memberNames ++ callNames c
  | .lambda _ body => body.memberNames

def recordNames : List (String × Expr) → List String
  | [] => []
  | (name, e) :: rest => name :: (e.memberNames ++ recordNames rest)

def callNames : Call Expr → List String
  | ⟨_, _, _, arguments⟩ => eachNames arguments

def eachNames : List Expr → List String
  | [] => []
  | e :: rest => e.memberNames ++ eachNames rest
end

variable {allowed : String → Bool} {registry : Registry}

mutual
/-- **Nothing is refused** of an expression whose member names are all allowed. -/
theorem bindAllowing_eq :
    ∀ e : Expr, (∀ name ∈ e.memberNames, allowed name) →
      e.bindAllowing allowed registry = e.bind registry
  | .const value type, _ => rfl
  | .param name, _ => rfl
  | .member target name, h => by
    simp only [memberNames, List.forall_mem_cons] at h
    simp only [bindAllowing, bindAllowing_eq target h.2, Term.memberAllowing_of_allowed h.1]
    rfl
  | .unary op operand, h => by
    simp only [memberNames] at h
    simp only [bindAllowing, bind, bindAllowing_eq operand h]
  | .binary op left right, h => by
    simp only [memberNames, List.forall_mem_append] at h
    simp only [bindAllowing, bind, bindAllowing_eq left h.1, bindAllowing_eq right h.2]
  | .cond test ifTrue ifFalse, h => by
    simp only [memberNames, List.forall_mem_append] at h
    simp only [bindAllowing, bind, bindAllowing_eq test h.1, bindAllowing_eq ifTrue h.2.1,
      bindAllowing_eq ifFalse h.2.2]
  | .new members, h => by
    simp only [memberNames] at h
    simp only [bindAllowing, bind, bindMembersAllowing_eq members h]
  | .index array position, h => by
    simp only [memberNames, List.forall_mem_append] at h
    simp only [bindAllowing, bind, bindAllowing_eq array h.1, bindAllowing_eq position h.2]
  | .call source c, h => by
    simp only [memberNames, List.forall_mem_append] at h
    simp only [bindAllowing, bind, bindAllowing_eq source h.1, bindArgumentsAllowing_eq c h.2]
  | .lambda parameters body, _ => rfl

theorem bindMembersAllowing_eq :
    ∀ (members : List (String × Expr)), (∀ name ∈ recordNames members, allowed name) →
      ∀ {text : String} {bound : UniqueMap String Term},
        bindMembersAllowing allowed registry text bound members =
          bindMembers registry text bound members
  | [], _, _, _ => rfl
  | (name, e) :: rest, h, _, _ => by
    simp only [recordNames, List.forall_mem_cons, List.forall_mem_append] at h
    simp only [bindMembersAllowing, if_pos h.1, bindAllowing_eq e h.2.1,
      bindMembersAllowing_eq rest h.2.2]
    rfl

theorem bindArgumentsAllowing_eq :
    ∀ c : Call Expr, (∀ name ∈ callNames c, allowed name) →
      bindArgumentsAllowing allowed registry c = bindArguments registry c
  | ⟨_, _, _, arguments⟩, h => by
    simp only [callNames] at h
    simp only [bindArgumentsAllowing, bindArguments, bindEachAllowing_eq arguments h]

theorem bindEachAllowing_eq :
    ∀ es : List Expr, (∀ name ∈ eachNames es, allowed name) →
      bindEachAllowing allowed registry es = bindEach registry es
  | [], _ => rfl
  | e :: rest, h => by
    simp only [eachNames, List.forall_mem_append] at h
    cases e with
    | lambda parameters body =>
      simp only [memberNames] at h
      simp only [bindEachAllowing, bindEach, bindAllowing_eq body h.1,
        bindEachAllowing_eq rest h.2]
    | _ =>
      simp only [bindEachAllowing, bindEach, bindAllowing_eq _ h.1,
        bindEachAllowing_eq rest h.2]
end

/-- Where all names are allowed, an expression is bound as ever. -/
theorem bindAllowing_all (e : Expr) : e.bindAllowing (fun _ => true) registry = e.bind registry :=
  bindAllowing_eq e fun _ _ => rfl

theorem bindArgumentsAllowing_all (c : Call Expr) :
    bindArgumentsAllowing (fun _ => true) registry c = bindArguments registry c :=
  bindArgumentsAllowing_eq c fun _ _ => rfl

end Expr

/-! ### Queries -/

namespace Query

/-- Applies the clauses of a query, allowing only some names. -/
def bindClausesAllowing (allowed : String → Bool) (registry : Registry) :
    Pipeline → List (Call Expr) → BindM Pipeline
  | p, [] => return p
  | p, clause :: rest => do
    let op ← BindM.ofExcept (Operator.ofCall clause)
    match ← op.apply registry p (Expr.bindArgumentsAllowing allowed registry clause) with
    | .sequence p => bindClausesAllowing allowed registry p rest
    | .terminal p =>
      match rest with
      | [] => return p
      | next :: _ => .unsupported (Expr.callText next ++ " after " ++ Expr.callText clause)

/-- Binds a query, allowing only some names for the members of records and of untyped
values. -/
def bindAllowing (allowed : String → Bool) (registry : Registry) (q : Query) :
    BindM Pipeline :=
  match registry.codec? q.itemType with
  | some codec => bindClausesAllowing allowed registry (.ofRoot codec) q.clauses
  | none => throw (.unknownType q.itemType.text)

/-- The names that the members of records and of untyped values have in a query are allowed:
nothing is refused when the query is bound. -/
def NamesAllowed (allowed : String → Bool) (registry : Registry) (q : Query) : Prop :=
  (q.bindAllowing allowed registry).run.run {} = (q.bind registry).run.run {}

variable {allowed : String → Bool} {registry : Registry}

theorem bindClausesAllowing_eq (clauses : List (Call Expr)) (p : Pipeline)
    (h : ∀ clause ∈ clauses, ∀ name ∈ Expr.callNames clause, allowed name) :
    bindClausesAllowing allowed registry p clauses = bindClauses registry p clauses := by
  induction clauses generalizing p with
  | nil => rfl
  | cons clause rest ih =>
    have hrest := fun p => ih p fun c hc => h c (List.mem_cons_of_mem _ hc)
    simp only [bindClausesAllowing,
      Expr.bindArgumentsAllowing_eq clause (h clause List.mem_cons_self), hrest]
    rfl

/-- Where all names are allowed, a query is bound as ever. -/
theorem bindAllowing_all (q : Query) :
    q.bindAllowing (fun _ => true) registry = q.bind registry := by
  have clauses (p : Pipeline) : bindClausesAllowing (fun _ => true) registry p q.clauses =
      bindClauses registry p q.clauses := bindClausesAllowing_eq q.clauses p fun _ _ _ _ => rfl
  simp only [bindAllowing, clauses]
  rfl

/-- A query all of whose member names are allowed gives and reads allowed names only. -/
theorem namesAllowed_of_memberNames {q : Query}
    (h : ∀ clause ∈ q.clauses, ∀ name ∈ Expr.callNames clause, allowed name) :
    q.NamesAllowed allowed registry := by
  simp only [NamesAllowed, bindAllowing, bindClausesAllowing_eq q.clauses _ h]
  rfl

end Query

end QueryPipeline
