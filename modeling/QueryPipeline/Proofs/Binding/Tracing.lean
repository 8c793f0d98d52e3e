import QueryPipeline.Proofs.Binding.Evaluation
import QueryPipeline.Proofs.Binding.Renaming
import QueryPipeline.Proofs.Binding.Variables
import QueryPipeline.Proofs.Emission.Closure

/-!
Where references come from. Parameters of lambdas over items are replaced by variables, and the
server finds a variable in the nearest sub-query that binds one of its name. Every reference in
what an expression is written as is traced back to where the expression reads a parameter, with
the lambdas around it (`Expr.references_of_bind`). It is found in the sub-query of the lambda that
declares the parameter unless a lambda in between has a parameter with the same variable
(`findsOwn_iff`): `serverVar` gives different parameters one variable, and nothing keeps them
apart.
-/

namespace QueryPipeline

/-! ### Readings -/

namespace Expr

mutual
/-- The parameters that an expression reads, each with the parameters of the lambdas around it,
the innermost first. -/
def readings (around : List String) : Expr → List (List String × String)
  | .const _ _ => []
  | .param name => [(around, name)]
  | .member target _ => target.readings around
  | .unary _ operand => operand.readings around
  | .binary _ left right => left.readings around ++ right.readings around
  | .cond test ifTrue ifFalse =>
    test.readings around ++ (ifTrue.readings around ++ ifFalse.readings around)
  | .new members => memberReadings around members
  | .index array position => array.readings around ++ position.readings around
  | .call source c => source.readings around ++ callReadings around c
  | .lambda parameters body => body.readings (parameters.reverse ++ around)

def memberReadings (around : List String) : List (String × Expr) → List (List String × String)
  | [] => []
  | (_, e) :: rest => e.readings around ++ memberReadings around rest

def callReadings (around : List String) : Call Expr → List (List String × String)
  | ⟨_, _, _, arguments⟩ => eachReadings around arguments

def eachReadings (around : List String) : List Expr → List (List String × String)
  | [] => []
  | e :: rest => e.readings around ++ eachReadings around rest
end

end Expr

/-- The nearest of the sub-queries around that binds the variable of a parameter is the one of
the nearest lambda that declares the parameter. -/
def FindsOwn (around : List String) (parameter : String) : Prop :=
  (around.map serverVar).idxOf (serverVar parameter) = around.idxOf parameter

/-- No lambda between a parameter and the lambda that declares it has a parameter with the same
variable. -/
def Unshared (around : List String) (parameter : String) : Prop :=
  ∀ p ∈ around.takeWhile (· ≠ parameter), serverVar p ≠ serverVar parameter

/-- **A parameter is captured** just by a lambda in between that has its variable. -/
theorem findsOwn_iff {around : List String} {parameter : String} (declared : parameter ∈ around) :
    FindsOwn around parameter ↔ Unshared around parameter := by
  unfold FindsOwn Unshared
  induction around with
  | nil => cases declared
  | cons p around ih =>
    -- Both searches go past a lambda that neither declares the parameter nor has its variable.
    by_cases same : p = parameter
    · simp [same]
    · have further : parameter ∈ around := by
        rcases List.mem_cons.mp declared with rfl | further
        · exact absurd rfl same
        · exact further
      by_cases shared : serverVar p = serverVar parameter
      · simp [same, shared]
      · simp [same, shared, ih further]

/-- Where a variable comes from that is read where some variables are bound. -/
inductive Origin (readings : List (List String × String)) (scopes : Scopes String Term) :
    List String → String → Prop
  /-- A parameter of one of the lambdas around it is read, whose sub-queries are all that bind a
  variable there. It is found in the one of its own lambda just if no lambda in between has a
  parameter with the same variable. -/
  | parameter {around p} : (around, p) ∈ readings → p ∈ around →
      (FindsOwn around p ↔ Unshared around p) →
        Origin readings scopes (around.map serverVar) (serverVar p)
  /-- A parameter from around all lambdas is read, whose term refers to the variable. -/
  | given {around name t inner var} : (around, name) ∈ readings → name ∉ around →
      scopes.lookup name = some t → t.Refers [] inner var →
        Origin readings scopes (inner ++ around.map serverVar) var
  /-- The class of an item is tested. -/
  | classTest {bound} : Origin readings scopes (classVar :: bound) classVar

/-! ### Scopes -/

/-- Scopes in some lambdas over items. The parameters of the lambdas stand for items, and all
others for what they stand for around the lambdas. -/
structure Scopes.Inside (base : Scopes String Term) (around : List String)
    (s : Scopes String Term) : Prop where
  item {p t} : p ∈ around → s.lookup p = some t →
    ∃ array codec, t = .item array (serverVar p) codec
  given {name t} : name ∉ around → s.lookup name = some t → base.lookup name = some t

theorem Scopes.Inside.push {base s : Scopes String Term} {around : List String}
    (h : base.Inside around s) {p : String} {array : Term} {codec : Codec} :
    base.Inside (p :: around) (s.push [(p, .item array (serverVar p) codec)]) where
  item {q t} hq hlookup := by
    rw [show s.push _ = (Context.push { scopes := s } p _).scopes from rfl,
      Context.lookup_push] at hlookup
    by_cases same : q = p
    · subst same
      rw [Function.update_self] at hlookup
      exact ⟨array, codec, (Option.some.inj hlookup).symm⟩
    · rw [Function.update_of_ne same] at hlookup
      exact h.item ((List.mem_cons.mp hq).resolve_left same) hlookup
  given {name t} hname hlookup := by
    obtain ⟨other, hname⟩ := not_or.mp (mt List.mem_cons.mpr hname)
    rw [show s.push _ = (Context.push { scopes := s } p _).scopes from rfl,
      Context.lookup_push, Function.update_of_ne other] at hlookup
    exact h.given hname hlookup

/-! ### Arguments -/

namespace Argument

variable {rule : List String → String → Prop} {base : Scopes String Term}
  {around : List String} {a : Argument}

/-- The parameters around the argument, and around its body if it is a lambda, the innermost
first. -/
def inside (around : List String) : Argument → List String
  | .lambda parameters _ _ => parameters.reverse ++ around
  | .value _ _ => around

/-- In lambdas over items, what the argument or its body is bound to keeps to a rule. -/
def Traced (rule : List String → String → Prop) (base : Scopes String Term)
    (around : List String) (a : Argument) : Prop :=
  ∀ ⦃c t c'⦄, base.Inside (a.inside around) c.scopes → a.step.Yields c t c' →
    t.KeepsTo rule ((a.inside around).map serverVar)

/-- The body of a lambda over items is bound with the variable of its parameter around it. -/
theorem Traced.gives (traced : a.Traced rule base around)
    (still : a.step.Keeps fun _ => True) :
    a.Gives (base.Inside around) (Term.KeepsTo rule (around.map serverVar))
      (fun s : Items => s.array.KeepsTo rule (around.map serverVar)) (fun _ _ => True)
      fun _ l => l.body.KeepsTo rule (l.var :: around.map serverVar) where
  value {c t c'} hc h := by
    cases a with
    | lambda => exact absurd h BindM.not_yields_unsupported
    | value e bind => exact ⟨traced hc h, (still (fun _ _ _ => trivial) h).2⟩
  element {s c l c'} hs hc h := by
    refine ⟨?_, (keeps_bindElement still (fun _ _ _ => trivial) (fun _ => trivial) h).2.2⟩
    unfold bindElement at h
    split at h
    · simp only [BindM.yields_bind, BindM.yields_pure, BindM.yields_within] at h
      obtain ⟨t, c₁, ⟨c₂, hbody, rfl⟩, rfl, rfl⟩ := h
      refine traced ?_ hbody
      exact hc.push
    · exact absurd h BindM.not_yields_unsupported
  pair {s first second c l c'} hs hc _ _ h := by
    obtain ⟨-, hscopes⟩ := keeps_bindPair still (fun _ _ _ => trivial) (fun _ => trivial)
      (fun _ => trivial) h
    exact ⟨trivial, hscopes⟩

end Argument

/-! ### Expressions -/

namespace Expr

variable {registry : Registry} {readings : List (List String × String)}
  {base : Scopes String Term}

/-- Binding an argument leaves the scopes as they were. -/
theorem still_bindArguments (call : Call Expr) :
    ∀ a ∈ (bindArguments registry call).arguments, a.step.Keeps fun _ => True := by
  rw [bindArguments_eq]
  intro a ha c c' t _ h
  obtain ⟨e, -, rfl⟩ := List.mem_map.mp ha
  cases e <;> exact ⟨trivial, scopes_of_bind h⟩

/-- A parameter that is read is one of the lambdas around, or comes from around them all. -/
theorem keepsTo_lookup {name : String} {around : List String} {s : Scopes String Term} {t : Term}
    (read : (around, name) ∈ readings) (hs : base.Inside around s)
    (h : s.lookup name = some t) : t.KeepsTo (Origin readings base) (around.map serverVar) := by
  by_cases declared : name ∈ around
  · obtain ⟨array, codec, rfl⟩ := hs.item declared h
    refine .of_variable rfl ?_
    rintro var ⟨⟩
    exact .parameter read declared (findsOwn_iff declared)
  · intro bound var href
    have alone : t.Refers ([] ++ around.map serverVar) bound var := href
    obtain ⟨inner, rfl, hown⟩ := alone.of_append
    exact .given read declared (hs.given declared h) hown

-- The bodies of lambdas are bound with more parameters around them, so the induction is for all
-- lists of parameters; what the whole expression reads stays fixed.
mutual
/-- **All that a bound expression refers to comes from what the expression reads.** -/
theorem keepsTo_bind : ∀ (e : Expr) {around : List String} {c c' : Context} {t : Term},
    e.readings around ⊆ readings → base.Inside around c.scopes →
      (e.bind registry).Yields c t c' →
        t.KeepsTo (Origin readings base) (around.map serverVar)
  | .const value type, around, c, c', t, _, _, h => by
    unfold Expr.bind at h
    split at h
    · obtain ⟨rfl, rfl⟩ := BindM.yields_pure.mp h
      exact .const
    · exact absurd h BindM.not_yields_throw
  | .param name, around, c, c', t, read, hc, h => by
    unfold Expr.bind at h
    exact keepsTo_lookup (read (List.mem_singleton_self _)) hc (BindM.yields_lookup.mp h).1
  | .member target name, around, c, c', t, read, hc, h => by
    unfold Expr.bind at h
    obtain ⟨bound, c₁, hbound, h⟩ := BindM.yields_bind.mp h
    have htarget := keepsTo_bind target read hc hbound
    split at h
    · rename_i u hmember
      obtain ⟨rfl, rfl⟩ := BindM.yields_pure.mp h
      exact htarget.member hmember
    · exact absurd h BindM.not_yields_throw
  | .unary op operand, around, c, c', t, read, hc, h => by
    unfold Expr.bind at h
    simp only [BindM.yields_bind, BindM.yields_pure] at h
    obtain ⟨u, c₁, hu, rfl, rfl⟩ := h
    exact .foldUnary (keepsTo_bind operand read hc hu)
  | .binary op left right, around, c, c', t, read, hc, h => by
    unfold Expr.bind at h
    simp only [BindM.yields_bind, BindM.yields_pure] at h
    obtain ⟨l, c₁, hl, r, c₂, hr, rfl, rfl⟩ := h
    obtain ⟨readLeft, readRight⟩ := List.append_subset.mp read
    exact .foldBinary (keepsTo_bind left readLeft hc hl)
      (keepsTo_bind right readRight (scopes_of_bind hl ▸ hc) hr)
  | .cond test ifTrue ifFalse, around, c, c', t, read, hc, h => by
    unfold Expr.bind at h
    simp only [BindM.yields_bind, BindM.yields_pure] at h
    obtain ⟨b, c₁, hb, u, c₂, hu, v, c₃, hv, rfl, rfl⟩ := h
    obtain ⟨readTest, readBranches⟩ := List.append_subset.mp read
    obtain ⟨readTrue, readFalse⟩ := List.append_subset.mp readBranches
    have hc₁ : base.Inside around c₁.scopes := scopes_of_bind hb ▸ hc
    exact .foldCond (keepsTo_bind test readTest hc hb) (keepsTo_bind ifTrue readTrue hc₁ hu)
      (keepsTo_bind ifFalse readFalse (scopes_of_bind hu ▸ hc₁) hv)
  | .new members, around, c, c', t, read, hc, h => by
    unfold Expr.bind at h
    simp only [BindM.yields_bind, BindM.yields_pure] at h
    obtain ⟨bound, c₁, hbound, rfl, rfl⟩ := h
    exact .document (keepsTo_bindMembers members read hc (fun u hu => by cases hu) hbound)
  | .index array position, around, c, c', t, read, hc, h => by
    unfold Expr.bind at h
    obtain ⟨bound, c₁, hbound, h⟩ := BindM.yields_bind.mp h
    obtain ⟨readArray, readPosition⟩ := List.append_subset.mp read
    split at h
    · simp only [BindM.yields_bind, BindM.yields_pure] at h
      obtain ⟨n, c₂, hn, rfl, rfl⟩ := h
      exact .elemAt (keepsTo_bind array readArray hc hbound)
        (keepsTo_bind position readPosition (scopes_of_bind hbound ▸ hc) hn)
    · exact absurd h BindM.not_yields_unsupported
  | .call source applied, around, c, c', t, read, hc, h => by
    unfold Expr.bind at h
    simp only [BindM.yields_bind, BindM.yields_ofExcept] at h
    obtain ⟨op, c₁, ⟨-, rfl⟩, bound, c₂, hbound, h⟩ := h
    obtain ⟨readSource, readCall⟩ := List.append_subset.mp read
    have still : ∀ a ∈ (bindArguments registry applied).arguments, a.step.Keeps fun _ => True :=
      still_bindArguments applied
    have traced := traced_bindArguments applied readCall
    exact (keepsTo_bind source readSource hc hbound).applyOperator (fun _ => .classTest)
      (fun a ha => (traced a ha).gives (still a ha)) still (scopes_of_bind hbound ▸ hc) h
  | .lambda parameters body, around, c, c', t, _, _, h => by
    unfold Expr.bind at h
    exact absurd h BindM.not_yields_unsupported

theorem keepsTo_bindMembers : ∀ (members : List (String × Expr)) {around : List String}
    {text : String} {bound bound' : UniqueMap String Term} {c c' : Context},
    memberReadings around members ⊆ readings → base.Inside around c.scopes →
      (∀ u ∈ bound.entries.map Prod.snd,
        u.KeepsTo (Origin readings base) (around.map serverVar)) →
      (bindMembers registry text bound members).Yields c bound' c' →
        ∀ u ∈ bound'.entries.map Prod.snd,
          u.KeepsTo (Origin readings base) (around.map serverVar)
  | [], around, text, bound, bound', c, c', _, _, hbound, h => by
    unfold bindMembers at h
    obtain ⟨rfl, rfl⟩ := BindM.yields_pure.mp h
    exact hbound
  | (name, e) :: rest, around, text, bound, bound', c, c', read, hc, hbound, h => by
    unfold bindMembers at h
    obtain ⟨t, c₁, ht, h⟩ := BindM.yields_bind.mp h
    obtain ⟨readMember, readRest⟩ := List.append_subset.mp read
    have hmember := keepsTo_bind e readMember hc ht
    split at h
    · rename_i next hinsert
      refine keepsTo_bindMembers rest readRest (scopes_of_bind ht ▸ hc) ?_ h
      rw [UniqueMap.entries_insert hinsert, List.map_append]
      exact List.forall_mem_append.mpr ⟨hbound, List.forall_mem_singleton.mpr hmember⟩
    · exact absurd h BindM.not_yields_unsupported

theorem traced_bindArguments : ∀ (call : Call Expr) {around : List String},
    callReadings around call ⊆ readings → ∀ a ∈ (bindArguments registry call).arguments,
      a.Traced (Origin readings base) base around
  | ⟨_, _, _, arguments⟩, around, read, a, ha => by
    unfold bindArguments at ha
    exact traced_bindEach arguments read a ha

theorem traced_bindEach : ∀ (es : List Expr) {around : List String},
    eachReadings around es ⊆ readings → ∀ a ∈ bindEach registry es,
      a.Traced (Origin readings base) base around
  | [], around, _, a, ha => by
    unfold bindEach at ha
    cases ha
  | e :: rest, around, read, a, ha => by
    obtain ⟨readFirst, readRest⟩ := List.append_subset.mp read
    cases e with
    | lambda parameters body =>
      simp only [bindEach] at ha
      rcases List.mem_cons.mp ha with rfl | ha
      · exact fun _ _ _ hc h => keepsTo_bind body readFirst hc h
      · exact traced_bindEach rest readRest a ha
    | _ =>
      simp only [bindEach] at ha
      rcases List.mem_cons.mp ha with rfl | ha
      · exact fun _ _ _ hc h => keepsTo_bind _ readFirst hc h
      · exact traced_bindEach rest readRest a ha
end

/-- **Where the references of an expression come from.** If no registered member, no member of a
record or of an untyped value, and no term in scope has a name with a sigil, each text that
starts with two dollar signs in what the expression is written as is the row or refers to a
variable of known origin: the parameter of a lambda around it, which is captured just by a
lambda in between that has its variable, the term of a parameter from around the expression, or
the test of an item's class. -/
theorem references_of_bind {e : Expr} {c c' : Context} {t : Term} {v : Value}
    (free : registry.isSigilFree) (names : ∀ name ∈ e.memberNames, hasNoSigil name)
    (scope : c.Every Term.SigilFree) (h : (e.bind registry).Yields c t c')
    (hv : t.emit [] = .ok v) {bound : List String} {s rest : String}
    (hs : .text bound s ∈ v.occurrences []) (reference : s = "$$" ++ rest) :
    RefersBy (Origin (e.readings []) c.scopes bound) s := by
  have sigilFree : t.SigilFree := by
    rw [← e.bindAllowing_eq names] at h
    exact (e.bindAllowing_keeps (Term.sigilFree_invariant free) () scope h).1
  have traced : t.KeepsTo (Origin (e.readings []) c.scopes) [] :=
    e.keepsTo_bind (List.Subset.refl _) ⟨nofun, fun _ hlookup => hlookup⟩ h
  exact Term.keepsTo_emit t sigilFree (fun _ _ href _ => traced href) hv _ hs rfl rest reference

end Expr

/-- As it is bound, the search through the scores of a friend is a sub-query in the condition. -/
def rivalNamesBound : Term :=
  let scores : Term := .field ⟨some "f", ["scores"]⟩ (.arrayOf .int32)
  .map
    (.filter (.field (.field "friends") (.array (friends.codec? (.document "Person")))) "f"
      (.anyTrue (.map scores "s"
        (.binary .gt (.item scores "s" .int32) (.field (.field "age") .int32)))))
    "f" (.field ⟨some "f", ["name"]⟩ .string)

/-- As it is written, each sub-query names the variable of its items. -/
def rivalNamesWritten : Value :=
  .operator "$map" (.document [
    ("input", .operator "$filter" (.document [
      ("input", .string "$friends"),
      ("as", .string "f"),
      ("cond", .operator "$anyElementTrue" (.array [.operator "$map" (.document [
        ("input", .string "$$f.scores"),
        ("as", .string "s"),
        ("in", .operator "$gt" (.array [.string "$$s", .string "$age"]))])]))])),
    ("as", .string "f"),
    ("in", .string "$$f.name")])

/-- The score that is compared is read by the variable of the search through the scores. -/
theorem rivalNames_references :
    friends.isSigilFree ∧ (∀ name ∈ rivalNames.memberNames, hasNoSigil name) ∧
      ofPerson.Every Term.SigilFree ∧
      (rivalNames.bind friends).Yields ofPerson rivalNamesBound ofPerson ∧
      rivalNamesBound.emit [] = .ok rivalNamesWritten ∧
      .text ["s", "f"] "$$s" ∈ rivalNamesWritten.occurrences [] ∧
      RefersBy (Origin (rivalNames.readings []) ofPerson.scopes ["s", "f"]) "$$s" := by
  have free : friends.isSigilFree = true := by decide
  have names : ∀ name ∈ rivalNames.memberNames, hasNoSigil name := by decide
  have scope : ofPerson.Every Term.SigilFree := by
    refine Context.Every.push nofun fun p hp => ?_
    obtain rfl := List.mem_singleton.mp hp
    exact .field nofun (by decide)
  have bound : (rivalNames.bind friends).Yields ofPerson rivalNamesBound ofPerson := rfl
  have written : rivalNamesBound.emit [] = .ok rivalNamesWritten := rfl
  have compared : .text ["s", "f"] "$$s" ∈ rivalNamesWritten.occurrences [] :=
    List.mem_of_getElem? (i := 16) rfl
  have reference : "$$s" = "$$" ++ "s" := rfl
  exact ⟨free, names, scope, bound, written, compared,
    Expr.references_of_bind free names scope bound written compared reference⟩

end QueryPipeline
