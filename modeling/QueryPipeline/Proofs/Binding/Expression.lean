import QueryPipeline.Proofs.Binding.Outcome
import QueryPipeline.Proofs.Semantics.Shape
import QueryPipeline.Proofs.Success

/-!
Binding an expression keeps its meaning. The parameters in scope stand for terms, so
an expression is bound by substituting those terms into it, folding operators on
constants and picking members out of records on the way. The bound term has the
shape of the expression and, for every row, its value.
-/

namespace QueryPipeline

/-! ### Parameters -/

namespace Context

/-- The shapes that parameters in scope have. -/
def shapes (c : Context) (name : String) : Option Shape :=
  (c.scopes.lookup name).map Term.shape

/-- The values that parameters in scope have for a row. -/
def values (c : Context) (engine : Engine) (env : Env) (name : String) : Option Value :=
  (c.scopes.lookup name).bind (·.eval engine env)

/-- Every parameter in scope stands for a readable term. -/
def Readable (c : Context) : Prop :=
  ∀ name t, c.scopes.lookup name = some t → t.Readable

end Context

/-- A term means what an expression means whose parameters stand for the terms in
scope. -/
structure Represents (engine : Engine) (registry : Registry) (c : Context) (e : Expr)
    (t : Term) : Prop where
  readable : t.Readable
  shape : e.shape? registry c.shapes = some t.shape
  value (env : Env) : e.value engine registry c.shapes (c.values engine env) =
    t.eval engine env

/-- Fields mean what the members of a record mean. -/
structure RepresentsMembers (engine : Engine) (registry : Registry) (c : Context)
    (members : List (String × Expr)) (fields : List (String × Term)) : Prop where
  readable : ∀ f ∈ fields, f.2.Readable
  shapes : Expr.memberShapes? registry c.shapes members = some (Term.fieldShapes fields)
  values (env : Env) :
    Expr.memberValues engine registry c.shapes (c.values engine env) members =
      Term.evalFields engine env fields

/-! ### Expressions -/

namespace Expr

variable {engine : Engine} {registry : Registry} {c : Context}

/-- A member that binding finds is the member of the expression. -/
theorem represents_member {target : Expr} {name : String} {bound t : Term}
    (ofTarget : Represents engine registry c target bound)
    (isMember : Term.IsMember registry bound name t) :
    Represents engine registry c (.member target name) t := by
  obtain ⟨access, found, read⟩ := isMember.read
  refine ⟨isMember.readable, ?_, ?_⟩
  · simp [shape?, ofTarget.shape, found]
  · intro env
    simp only [value, ofTarget.shape, Option.bind_some, found]
    rw [ofTarget.value env, read engine env]

section Operators

variable (exact : engine.Exact)
include exact

theorem represents_unary {op : UnaryOp} {operand : Expr} {t : Term}
    (h : Represents engine registry c operand t) :
    Represents engine registry c (.unary op operand) (.foldUnary op t) := by
  refine ⟨Term.readable_foldUnary op t, ?_, ?_⟩
  · simp [shape?, h.shape, Term.shape_foldUnary]
  · intro env
    rw [Term.eval_foldUnary exact, value, h.value env]

theorem represents_binary {op : BinaryOp} {left right : Expr} {l r : Term}
    (hl : Represents engine registry c left l) (hr : Represents engine registry c right r) :
    Represents engine registry c (.binary op left right) (.foldBinary op l r) := by
  refine ⟨Term.readable_foldBinary op l r, ?_, ?_⟩
  · simp [shape?, hl.shape, hr.shape, Term.shape_foldBinary]
  · intro env
    rw [Term.eval_foldBinary exact, value, hl.value env, hr.value env]

theorem represents_cond {test ifTrue ifFalse : Expr} {t yes no : Term}
    (htest : Represents engine registry c test t)
    (hyes : Represents engine registry c ifTrue yes)
    (hno : Represents engine registry c ifFalse no) :
    Represents engine registry c (.cond test ifTrue ifFalse) (.foldCond t yes no) := by
  refine ⟨Term.readable_foldCond t hyes.readable hno.readable, ?_, ?_⟩
  · simp [shape?, htest.shape, hyes.shape, hno.shape, Term.shape_foldCond]
  · intro env
    rw [Term.eval_foldCond exact, value, htest.value env, hyes.value env, hno.value env]

end Operators

/-- A record is bound member by member. -/
theorem represents_new {members : List (String × Expr)} {m : UniqueMap String Term}
    (h : RepresentsMembers engine registry c members m.entries) :
    Represents engine registry c (.new members) (.ofMembers m) := by
  refine ⟨.record m.nodup_keys h.readable, ?_, ?_⟩
  · simp only [shape?, h.shapes, Option.map_some, Term.ofMembers, Term.shape]
  · intro env
    simp only [value, h.values env, Term.ofMembers, Term.eval]

mutual
/-- **Binding an expression keeps its meaning**, and leaves the context as it was. -/
theorem represents_of_bind (exact : engine.Exact) (inScope : c.Readable) :
    (e : Expr) → {t : Term} → {c' : Context} → e.isPlain = true →
    (e.bind registry).Yields c t c' → c = c' ∧ Represents engine registry c e t
  | .const v type, t, c', _, h => by
      rw [bind] at h
      cases hcodec : registry.codec? type with
      | none => simp [hcodec] at h
      | some codec =>
        simp only [hcodec, BindM.yields_pure] at h
        obtain ⟨rfl, rfl⟩ := h
        exact ⟨rfl, .other (by simp) rfl, by simp [shape?, hcodec, Term.shape], fun _ => rfl⟩
  | .param name, t, c', _, h => by
      rw [bind, BindM.yields_lookup] at h
      obtain ⟨hlookup, rfl⟩ := h
      refine ⟨rfl, inScope name t hlookup, ?_, ?_⟩
      · simp [shape?, Context.shapes, hlookup]
      · intro env
        simp [value, Context.values, hlookup]
  | .member target name, t, c', plain, h => by
      rw [isPlain] at plain
      rw [bind, BindM.yields_bind] at h
      obtain ⟨bound, c₁, htarget, h⟩ := h
      obtain ⟨rfl, represents⟩ := represents_of_bind exact inScope target plain htarget
      cases hmember : bound.member registry name with
      | none => simp [hmember] at h
      | some u =>
        simp only [hmember, BindM.yields_pure] at h
        obtain ⟨rfl, rfl⟩ := h
        exact ⟨rfl, represents_member represents
          (Term.isMember_of_member represents.readable hmember)⟩
  | .unary op operand, t, c', plain, h => by
      rw [isPlain] at plain
      simp only [bind, BindM.yields_bind, BindM.yields_pure] at h
      obtain ⟨u, c₁, hoperand, rfl, rfl⟩ := h
      obtain ⟨rfl, represents⟩ := represents_of_bind exact inScope operand plain hoperand
      exact ⟨rfl, represents_unary exact represents⟩
  | .binary op left right, t, c', plain, h => by
      simp only [isPlain, Bool.and_eq_true] at plain
      simp only [bind, BindM.yields_bind, BindM.yields_pure] at h
      obtain ⟨l, c₁, hleft, r, c₂, hright, rfl, rfl⟩ := h
      obtain ⟨rfl, hl⟩ := represents_of_bind exact inScope left plain.1 hleft
      obtain ⟨rfl, hr⟩ := represents_of_bind exact inScope right plain.2 hright
      exact ⟨rfl, represents_binary exact hl hr⟩
  | .cond test ifTrue ifFalse, t, c', plain, h => by
      simp only [isPlain, Bool.and_eq_true] at plain
      simp only [bind, BindM.yields_bind, BindM.yields_pure] at h
      obtain ⟨u, c₁, htest, yes, c₂, hyes, no, c₃, hno, rfl, rfl⟩ := h
      obtain ⟨rfl, ht⟩ := represents_of_bind exact inScope test plain.1.1 htest
      obtain ⟨rfl, hy⟩ := represents_of_bind exact inScope ifTrue plain.1.2 hyes
      obtain ⟨rfl, hn⟩ := represents_of_bind exact inScope ifFalse plain.2 hno
      exact ⟨rfl, represents_cond exact ht hy hn⟩
  | .new members, t, c', plain, h => by
      rw [isPlain] at plain
      simp only [bind, BindM.yields_bind, BindM.yields_pure] at h
      obtain ⟨m, c₁, hmembers, rfl, rfl⟩ := h
      obtain ⟨rfl, fields, hentries, represents⟩ :=
        represents_of_bindMembers exact inScope members plain hmembers
      have hfields : m.entries = fields := by simpa [UniqueMap.empty] using hentries
      exact ⟨rfl, represents_new (hfields ▸ represents)⟩
  | .index _ _, _, _, plain, _ | .call _ _, _, _, plain, _ | .lambda _ _, _, _, plain, _ => by
      simp [isPlain] at plain

/-- The members of a record are added, in order, to those bound before. -/
theorem represents_of_bindMembers (exact : engine.Exact) (inScope : c.Readable) :
    (members : List (String × Expr)) →
    {text : String} → {bound m : UniqueMap String Term} → {c' : Context} →
    allPlain members = true →
    (bindMembers registry text bound members).Yields c m c' →
    c = c' ∧ ∃ fields, m.entries = bound.entries ++ fields ∧
      RepresentsMembers engine registry c members fields
  | [], text, bound, m, c', _, h => by
      rw [bindMembers, BindM.yields_pure] at h
      obtain ⟨rfl, rfl⟩ := h
      refine ⟨rfl, [], by simp, by simp, rfl, ?_⟩
      intro env
      rfl
  | (name, e) :: rest, text, bound, m, c', plain, h => by
      simp only [allPlain, Bool.and_eq_true] at plain
      rw [bindMembers, BindM.yields_bind] at h
      obtain ⟨t, c₁, hbind, h⟩ := h
      obtain ⟨rfl, represents⟩ := represents_of_bind exact inScope e plain.1 hbind
      cases hinsert : bound.insert name t with
      | error taken => simp [hinsert] at h
      | ok bound' =>
        simp only [hinsert] at h
        obtain ⟨rfl, fields, hentries, hrest⟩ :=
          represents_of_bindMembers exact inScope rest plain.2 h
        rw [UniqueMap.entries_insert hinsert, List.append_assoc] at hentries
        refine ⟨rfl, (name, t) :: fields, hentries, ?_, ?_, ?_⟩
        · intro f hf
          rcases List.mem_cons.mp hf with rfl | hf
          · exact represents.readable
          · exact hrest.readable f hf
        · simp [memberShapes?, represents.shape, hrest.shapes, Term.fieldShapes]
        · intro env
          rw [memberValues, represents.value env, hrest.values env, Term.evalFields]
end

end Expr

end QueryPipeline
