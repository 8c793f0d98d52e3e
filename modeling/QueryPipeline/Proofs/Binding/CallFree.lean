import QueryPipeline.Proofs.Binding.Lambda
import QueryPipeline.Proofs.Binding.Renaming
import QueryPipeline.Proofs.Semantics.Group

/-!
Expressions without sub-queries. Nothing in them opens a scope, so they are bound in one
context, and what they mean is defined as soon as they are bound. They look at the parameters
that they name and at no other: a bound expression stands for its meaning wherever these
parameters stand for what they do in scope.
-/

namespace QueryPipeline

variable {engine : Engine} {registry : Registry} {other? : Others}

/-- A term stands for what an expression means, wherever the parameters that the expression
names stand for what they do in scope. -/
structure StandsFor (engine : Engine) (c : Context) (names : List String) (m : Meaning)
    (t : Term) : Prop where
  outline : t.outline = m.outline
  datum {env : Env} {data : Data} : (∀ name ∈ names, data name = c.data engine env name) →
    m.datum data = some (t.datum engine env)

namespace StandsFor

variable {c : Context} {names names' : List String}

theorem mono {m : Meaning} {t : Term} (h : StandsFor engine c names m t)
    (sub : ∀ name ∈ names, name ∈ names') : StandsFor engine c names' m t where
  outline := h.outline
  datum same := h.datum fun name hname => same name (sub name hname)

theorem const (v : Value) (codec : Codec) :
    StandsFor engine c names ⟨.ofShape (.constant v codec), fun _ => some (.value (some v))⟩
      (.const v codec) where
  outline := rfl
  datum _ := rfl

theorem param {name : String} {t : Term} (h : c.scopes.lookup name = some t) :
    StandsFor engine c [name] ⟨t.outline, fun data => data name⟩ t where
  outline := rfl
  datum same := by
    simp only [same name List.mem_cons_self, Context.data, h, Option.map_some]

theorem member {m : Meaning} {target t : Term} {name : String}
    (h : StandsFor engine c names m target) (hmember : target.member registry name = some t) :
    ∃ read, m.outline.member? registry engine name = some (t.outline, read) ∧
      StandsFor engine c names ⟨t.outline, fun data => (m.datum data).map read⟩ t := by
  obtain ⟨read, found, hdatum⟩ := Term.member_outline engine hmember
  refine ⟨read, h.outline ▸ found, rfl, fun {env} data same => ?_⟩
  simp only [h.datum same, hdatum env, Option.map_some]

theorem index {ma mp : Meaning} {a p : Term} (ha : StandsFor engine c names ma a)
    (hp : StandsFor engine c names' mp p) :
    StandsFor engine c (names ++ names')
      ⟨.stored (ma.outline.codec.item?.getD .dynamic), fun data => do
        let d ← ma.datum data
        let i ← mp.datum data
        return .value (match d.stored, i.stored.bind Value.integer? with
          | some (.array items), some (_, n) => Value.itemAt items n
          | _, _ => none)⟩
      (.elemAt a p) where
  outline := by
    simp only [Term.outline, Term.shape, Term.codec, Outline.ofShape, Outline.stored,
      ← ha.outline, Term.codec_outline]
  datum {env data} same := by
    simp only [ha.datum fun name hname => same name (List.mem_append_left _ hname),
      hp.datum fun name hname => same name (List.mem_append_right _ hname), Option.bind_eq_bind,
      Option.bind_some, Option.pure_def, Term.stored_datum]
    rfl

section Folding

variable (exact : engine.Exact)
include exact

theorem unary {op : UnaryOp} {m : Meaning} {t : Term} (h : StandsFor engine c names m t) :
    StandsFor engine c names ⟨.unary op m.outline, fun data =>
        (m.datum data).map fun d => .value (engine.unary op d.stored)⟩
      (.foldUnary op t) where
  outline := by rw [Term.outline_foldUnary, h.outline]
  datum same := by
    simp only [h.datum same, Term.datum_foldUnary exact, Option.map_some, Term.stored_datum]

theorem binary {op : BinaryOp} {ml mr : Meaning} {l r : Term}
    (hl : StandsFor engine c names ml l) (hr : StandsFor engine c names' mr r) :
    StandsFor engine c (names ++ names') ⟨.binary op ml.outline mr.outline, fun data => do
        let a ← ml.datum data
        let b ← mr.datum data
        return .value (engine.binary op a.stored b.stored)⟩
      (.foldBinary op l r) where
  outline := by rw [Term.outline_foldBinary, hl.outline, hr.outline]
  datum same := by
    simp only [hl.datum fun name hname => same name (List.mem_append_left _ hname),
      hr.datum fun name hname => same name (List.mem_append_right _ hname), Option.bind_eq_bind,
      Option.bind_some, Option.pure_def, Term.stored_datum, Term.datum_foldBinary exact]

theorem cond {names'' : List String} {mt myes mno : Meaning} {t yes no : Term}
    (ht : StandsFor engine c names mt t) (hyes : StandsFor engine c names' myes yes)
    (hno : StandsFor engine c names'' mno no) :
    StandsFor engine c (names ++ (names' ++ names''))
      ⟨.cond mt.outline myes.outline mno.outline, fun data => do
        let d ← mt.datum data
        (if engine.isTrue d.stored then myes.datum data else mno.datum data).map
          (Outline.cond mt.outline myes.outline mno.outline).view⟩
      (.foldCond t yes no) where
  outline := by rw [Term.outline_foldCond, ht.outline, hyes.outline, hno.outline]
  datum {env data} same := by
    have same' : ∀ name ∈ names' ++ names'', data name = c.data engine env name :=
      fun name hname => same name (List.mem_append_right _ hname)
    rw [Term.datum_foldCond exact, Term.outline_foldCond, ht.outline, hyes.outline, hno.outline]
    simp only [ht.datum fun name hname => same name (List.mem_append_left _ hname),
      hyes.datum fun name hname => same' name (List.mem_append_left _ hname),
      hno.datum fun name hname => same' name (List.mem_append_right _ hname),
      Option.bind_eq_bind, Option.bind_some, Term.stored_datum]
    split <;> rfl

end Folding

/-- The members of a record, each with its name. -/
abbrev Members (engine : Engine) (c : Context) (names : List String)
    (members : List (String × Meaning)) (fields : List (String × Term)) : Prop :=
  List.Forall₂ (fun m f => m.1 = f.1 ∧ StandsFor engine c names m.2 f.2) members fields

theorem record {members : List (String × Meaning)} {fields : List (String × Term)}
    (h : Members engine c names members fields) :
    StandsFor engine c names (.record members) (.document fields) where
  outline := by
    have outlines : Term.fieldOutlines fields = members.map fun m => (m.1, m.2.outline) := by
      induction h with
      | nil => rfl
      | @cons m f _ _ first _ ih =>
        obtain ⟨name, t⟩ := f
        obtain ⟨rfl, stands⟩ := first
        rw [Term.fieldOutlines, ih, stands.outline]
        rfl
    simp only [Term.outline, outlines]
    rfl
  datum {env data} same := by
    have parts : (members.mapM fun m : String × Meaning => (m.2.datum data).map (m.1, ·)) =
        some (Term.fieldData engine env fields) := by
      induction h with
      | nil => rfl
      | @cons m f _ _ first _ ih =>
        obtain ⟨name, t⟩ := f
        obtain ⟨rfl, stands⟩ := first
        rw [List.mapM_cons, ih, stands.datum same]
        rfl
    simp only [Meaning.record, parts, Option.map_some, Term.datum]

end StandsFor

namespace Expr

-- By recursion on expressions, as they are bound. No context is changed on the way, so all
-- parts are bound where the parameters stand for the same.
mutual
/-- **An expression without sub-queries stands for what it means**, as soon as it is bound. -/
theorem standsFor_of_bind (exact : engine.Exact) : (e : Expr) → e.isCallFree = true →
    ∀ ⦃c c' : Context⦄ ⦃t : Term⦄, (e.bind registry).Yields c t c' →
    c = c' ∧ ∃ m, e.meaning? engine registry other? c.outlines = some m ∧
      StandsFor engine c e.parameterNames m t
  | .const v type, _, c, c', t, h => by
      rw [Expr.bind] at h
      split at h
      · rename_i codec hcodec
        obtain ⟨rfl, rfl⟩ := BindM.yields_pure.mp h
        exact ⟨rfl, _, by rw [meaning?, hcodec]; rfl, .const v codec⟩
      · exact absurd h BindM.not_yields_throw
  | .param name, _, c, c', t, h => by
      rw [Expr.bind] at h
      obtain ⟨hlookup, rfl⟩ := BindM.yields_lookup.mp h
      refine ⟨rfl, _, ?_, .param hlookup⟩
      rw [meaning?, Context.outlines, hlookup]
      rfl
  | .member target name, free, c, c', t, h => by
      simp only [Expr.bind, BindM.yields_bind] at h
      obtain ⟨bound, c₁, htarget, h⟩ := h
      obtain ⟨rfl, m, hm, stands⟩ := standsFor_of_bind exact target free htarget
      cases hmember : bound.member registry name with
      | none => simp [hmember] at h
      | some u =>
        simp only [hmember, BindM.yields_pure] at h
        obtain ⟨rfl, rfl⟩ := h
        obtain ⟨read, hread, stands'⟩ := stands.member hmember
        refine ⟨rfl, _, ?_, stands'⟩
        rw [meaning?, hm]
        simp only [Option.bind_eq_bind, Option.bind_some, hread]
        rfl
  | .unary op operand, free, c, c', t, h => by
      simp only [Expr.bind, BindM.yields_bind, BindM.yields_pure] at h
      obtain ⟨u, c₁, hoperand, rfl, rfl⟩ := h
      obtain ⟨rfl, m, hm, stands⟩ := standsFor_of_bind exact operand free hoperand
      refine ⟨rfl, _, ?_, stands.unary exact⟩
      rw [meaning?, hm]
      rfl
  | .binary op left right, free, c, c', t, h => by
      rw [isCallFree, Bool.and_eq_true] at free
      simp only [Expr.bind, BindM.yields_bind, BindM.yields_pure] at h
      obtain ⟨l, c₁, hleft, r, c₂, hright, rfl, rfl⟩ := h
      obtain ⟨rfl, ml, hml, hl⟩ := standsFor_of_bind exact left free.1 hleft
      obtain ⟨rfl, mr, hmr, hr⟩ := standsFor_of_bind exact right free.2 hright
      refine ⟨rfl, _, ?_, hl.binary exact hr⟩
      rw [meaning?, hml, hmr]
      rfl
  | .cond test ifTrue ifFalse, free, c, c', t, h => by
      rw [isCallFree, Bool.and_eq_true, Bool.and_eq_true] at free
      simp only [Expr.bind, BindM.yields_bind, BindM.yields_pure] at h
      obtain ⟨u, c₁, htest, yes, c₂, hyes, no, c₃, hno, rfl, rfl⟩ := h
      obtain ⟨rfl, mt, hmt, ht⟩ := standsFor_of_bind exact test free.1.1 htest
      obtain ⟨rfl, myes, hmyes, hy⟩ := standsFor_of_bind exact ifTrue free.1.2 hyes
      obtain ⟨rfl, mno, hmno, hn⟩ := standsFor_of_bind exact ifFalse free.2 hno
      refine ⟨rfl, _, ?_, ht.cond exact hy hn⟩
      rw [meaning?, hmt, hmyes, hmno]
      rfl
  | .new members, free, c, c', t, h => by
      simp only [Expr.bind, BindM.yields_bind, BindM.yields_pure] at h
      obtain ⟨bound, c₁, hmembers, rfl, rfl⟩ := h
      obtain ⟨rfl, ms, fields, hms, hentries, stands⟩ :=
        standsFor_of_bindMembers exact members free hmembers
      have hfields : bound.entries = fields := by simpa [UniqueMap.empty] using hentries
      refine ⟨rfl, .record ms, by rw [meaning?, hms]; rfl, ?_⟩
      exact .record (hfields ▸ stands)
  | .index array position, free, c, c', t, h => by
      rw [isCallFree, Bool.and_eq_true] at free
      simp only [Expr.bind, BindM.yields_bind] at h
      obtain ⟨a, c₁, harray, h⟩ := h
      obtain ⟨rfl, ma, hma, ha⟩ := standsFor_of_bind exact array free.1 harray
      split at h
      · rename_i isArray
        simp only [BindM.yields_bind, BindM.yields_pure] at h
        obtain ⟨p, c₂, hposition, rfl, rfl⟩ := h
        obtain ⟨rfl, mp, hmp, hp⟩ := standsFor_of_bind exact position free.2 hposition
        rw [← Term.codec_outline, ha.outline] at isArray
        refine ⟨rfl, _, ?_, ha.index hp⟩
        rw [meaning?, hma, hmp]
        exact if_pos isArray
      · exact absurd h BindM.not_yields_unsupported
  | .call _ _, free, _, _, _, _ => nomatch free
  | .lambda parameters body, _, c, c', t, h => by
      rw [Expr.bind] at h
      exact absurd h BindM.not_yields_unsupported

/-- The members of a record are added, in order, to those bound before. -/
theorem standsFor_of_bindMembers (exact : engine.Exact) : (members : List (String × Expr)) →
    allCallFree members = true →
    ∀ ⦃c c' : Context⦄ ⦃text : String⦄ ⦃bound bound' : UniqueMap String Term⦄,
    (bindMembers registry text bound members).Yields c bound' c' →
    c = c' ∧ ∃ ms fields,
      memberMeanings? engine registry other? c.outlines members = some ms ∧
      bound'.entries = bound.entries ++ fields ∧
      StandsFor.Members engine c (memberParameterNames members) ms fields
  | [], _, c, c', text, bound, bound', h => by
      rw [bindMembers, BindM.yields_pure] at h
      obtain ⟨rfl, rfl⟩ := h
      exact ⟨rfl, [], [], rfl, by simp, .nil⟩
  | (name, e) :: rest, free, c, c', text, bound, bound', h => by
      rw [allCallFree, Bool.and_eq_true] at free
      rw [bindMembers, BindM.yields_bind] at h
      obtain ⟨t, c₁, ht, h⟩ := h
      obtain ⟨rfl, m, hm, stands⟩ := standsFor_of_bind exact e free.1 ht
      cases hinsert : bound.insert name t with
      | error taken => simp [hinsert] at h
      | ok bound₁ =>
        simp only [hinsert] at h
        obtain ⟨rfl, ms, fields, hms, hentries, hrest⟩ :=
          standsFor_of_bindMembers exact rest free.2 h
        rw [UniqueMap.entries_insert hinsert, List.append_assoc] at hentries
        refine ⟨rfl, (name, m) :: ms, (name, t) :: fields, ?_, hentries, ?_⟩
        · rw [memberMeanings?, hm, hms]
          rfl
        · rw [memberParameterNames]
          refine .cons ⟨rfl, stands.mono fun _ => List.mem_append_left _⟩ ?_
          exact hrest.imp fun _ _ both =>
            ⟨both.1, both.2.mono fun _ => List.mem_append_right _⟩
end

/-- The parameters around it that an argument names. -/
def outerNames : Expr → List String
  | .lambda parameters body => body.parameterNames.filter fun name => !parameters.contains name
  | e => e.parameterNames

end Expr

/-- The parameters around a call that its arguments name. -/
def Call.outerNames (call : Call Expr) : List String := call.arguments.flatMap Expr.outerNames

end QueryPipeline
