import QueryPipeline.Proofs.Binding.Allowing
import QueryPipeline.Proofs.Binding.Invariant

/-!
Invariants of what binding builds. A `TermInvariant` is a family of properties that each way
to build a term keeps; `Expr.bind_keeps` carries it over to all expressions, whatever the
terms are that their parameters stand for, and `Query.bind_keeps` to pipelines. It is a
family since the terms in a lambda over the rows of a group are under another property than
those around it. Where only some names are allowed, as in `Expr.bindAllowing`, an invariant
may count on them.
-/

namespace QueryPipeline

/-- Properties that each way to build a bound term keeps, where only some names are allowed
for the members of records and of untyped values. -/
structure TermInvariant {ι : Type} (registry : Registry) (holds : ι → Term → Prop)
    (allowed : String → Bool := fun _ => true) : Prop where
  const {i v type codec} : registry.codec? type = some codec → holds i (.const v codec)
  member {i t u name} : holds i t → (t.codec = .dynamic → allowed name) →
    t.member registry name = some u → holds i u
  foldUnary {i op operand} : holds i operand → holds i (.foldUnary op operand)
  foldBinary {i op left right} :
    holds i left → holds i right → holds i (.foldBinary op left right)
  foldCond {i test ifTrue ifFalse} :
    holds i test → holds i ifTrue → holds i ifFalse → holds i (.foldCond test ifTrue ifFalse)
  document {i fields} : (fields.map Prod.fst).Nodup → (∀ f ∈ fields, allowed f.1) →
    (∀ u ∈ fields.map Prod.snd, holds i u) → holds i (.document fields)
  elemAt {i array position} : array.codec.isArray → holds i array → holds i position →
    holds i (.elemAt array position)
  applyOperator {i source op} {call : Call Argument} {text c c' t} : holds i source →
    (∀ a ∈ call.arguments, ∀ j, a.step.Keeps (holds j)) → c.Every (holds i) →
    (source.applyOperator registry op call text).Yields c t c' →
    holds i t ∧ c'.scopes = c.scopes

namespace Expr

variable {ι : Type} {registry : Registry} {holds : ι → Term → Prop} {allowed : String → Bool}

mutual
/-- **Binding an expression keeps an invariant** of the terms in scope. -/
theorem bindAllowing_keeps (inv : TermInvariant registry holds allowed) :
    ∀ (e : Expr) (i : ι), (e.bindAllowing allowed registry).Keeps (holds i)
  | .const value type, i => by
    intro c c' t hc h
    unfold Expr.bindAllowing at h
    split at h
    · rename_i codec hcodec
      obtain ⟨rfl, rfl⟩ := BindM.yields_pure.mp h
      exact ⟨inv.const hcodec, rfl⟩
    · exact absurd h BindM.not_yields_throw
  | .param name, i => by
    intro c c' t hc h
    unfold Expr.bindAllowing at h
    obtain ⟨hlookup, rfl⟩ := BindM.yields_lookup.mp h
    exact ⟨hc name t hlookup, rfl⟩
  | .member target name, i => by
    intro c c' t hc h
    unfold Expr.bindAllowing at h
    obtain ⟨bound, c₁, hbound, h⟩ := BindM.yields_bind.mp h
    obtain ⟨htarget, hscopes⟩ := bindAllowing_keeps inv target i hc hbound
    split at h
    · rename_i u hmember
      obtain ⟨rfl, rfl⟩ := BindM.yields_pure.mp h
      obtain ⟨hmember, hname⟩ := Term.memberAllowing_eq_some hmember
      exact ⟨inv.member htarget hname hmember, hscopes⟩
    · exact absurd h BindM.not_yields_throw
  | .unary op operand, i => by
    intro c c' t hc h
    unfold Expr.bindAllowing at h
    simp only [BindM.yields_bind, BindM.yields_pure] at h
    obtain ⟨u, c₁, hu, rfl, rfl⟩ := h
    obtain ⟨hoperand, hscopes⟩ := bindAllowing_keeps inv operand i hc hu
    exact ⟨inv.foldUnary hoperand, hscopes⟩
  | .binary op left right, i => by
    intro c c' t hc h
    unfold Expr.bindAllowing at h
    simp only [BindM.yields_bind, BindM.yields_pure] at h
    obtain ⟨l, c₁, hl, r, c₂, hr, rfl, rfl⟩ := h
    obtain ⟨hleft, hscopes₁⟩ := bindAllowing_keeps inv left i hc hl
    obtain ⟨hright, hscopes₂⟩ := bindAllowing_keeps inv right i (hc.of_scopes_eq hscopes₁) hr
    exact ⟨inv.foldBinary hleft hright, hscopes₂.trans hscopes₁⟩
  | .cond test ifTrue ifFalse, i => by
    intro c c' t hc h
    unfold Expr.bindAllowing at h
    simp only [BindM.yields_bind, BindM.yields_pure] at h
    obtain ⟨b, c₁, hb, u, c₂, hu, v, c₃, hv, rfl, rfl⟩ := h
    obtain ⟨htest, hscopes₁⟩ := bindAllowing_keeps inv test i hc hb
    obtain ⟨htrue, hscopes₂⟩ := bindAllowing_keeps inv ifTrue i (hc.of_scopes_eq hscopes₁) hu
    have hscopes := hscopes₂.trans hscopes₁
    obtain ⟨hfalse, hscopes₃⟩ := bindAllowing_keeps inv ifFalse i (hc.of_scopes_eq hscopes) hv
    exact ⟨inv.foldCond htest htrue hfalse, hscopes₃.trans hscopes⟩
  | .new members, i => by
    intro c c' t hc h
    unfold Expr.bindAllowing at h
    simp only [BindM.yields_bind, BindM.yields_pure] at h
    obtain ⟨bound, c₁, hbound, rfl, rfl⟩ := h
    obtain ⟨hnames, hmembers, hscopes⟩ :=
      bindMembersAllowing_keeps inv members i (fun f hf => by cases hf)
        (fun u hu => by cases hu) hc hbound
    exact ⟨inv.document bound.nodup_keys hnames hmembers, hscopes⟩
  | .index array position, i => by
    intro c c' t hc h
    unfold Expr.bindAllowing at h
    obtain ⟨bound, c₁, hbound, h⟩ := BindM.yields_bind.mp h
    obtain ⟨harray, hscopes₁⟩ := bindAllowing_keeps inv array i hc hbound
    split at h
    · rename_i isArray
      simp only [BindM.yields_bind, BindM.yields_pure] at h
      obtain ⟨n, c₂, hn, rfl, rfl⟩ := h
      obtain ⟨hposition, hscopes₂⟩ :=
        bindAllowing_keeps inv position i (hc.of_scopes_eq hscopes₁) hn
      exact ⟨inv.elemAt isArray harray hposition, hscopes₂.trans hscopes₁⟩
    · exact absurd h BindM.not_yields_unsupported
  | .call source applied, i => by
    intro c c' t hc h
    unfold Expr.bindAllowing at h
    simp only [BindM.yields_bind, BindM.yields_ofExcept] at h
    obtain ⟨op, c₁, ⟨-, rfl⟩, bound, c₂, hbound, h⟩ := h
    obtain ⟨hsource, hscopes₁⟩ := bindAllowing_keeps inv source i hc hbound
    obtain ⟨ht, hscopes₂⟩ := inv.applyOperator hsource
      (bindArgumentsAllowing_keeps inv applied) (hc.of_scopes_eq hscopes₁) h
    exact ⟨ht, hscopes₂.trans hscopes₁⟩
  | .lambda parameters body, i => by
    intro c c' t hc h
    unfold Expr.bindAllowing at h
    exact absurd h BindM.not_yields_unsupported

theorem bindMembersAllowing_keeps (inv : TermInvariant registry holds allowed) :
    ∀ (members : List (String × Expr)) (i : ι) {text : String}
      {bound bound' : UniqueMap String Term} {c c' : Context},
      (∀ f ∈ bound.entries, allowed f.1) →
      (∀ u ∈ bound.entries.map Prod.snd, holds i u) →
      c.Every (holds i) →
      (bindMembersAllowing allowed registry text bound members).Yields c bound' c' →
      (∀ f ∈ bound'.entries, allowed f.1) ∧
        (∀ u ∈ bound'.entries.map Prod.snd, holds i u) ∧ c'.scopes = c.scopes
  | [], i, text, bound, bound', c, c', hnames, hbound, hc, h => by
    unfold bindMembersAllowing at h
    obtain ⟨rfl, rfl⟩ := BindM.yields_pure.mp h
    exact ⟨hnames, hbound, rfl⟩
  | (name, e) :: rest, i, text, bound, bound', c, c', hnames, hbound, hc, h => by
    unfold bindMembersAllowing at h
    split at h
    · rename_i hname
      obtain ⟨t, c₁, ht, h⟩ := BindM.yields_bind.mp h
      obtain ⟨hmember, hscopes₁⟩ := bindAllowing_keeps inv e i hc ht
      split at h
      · rename_i next hinsert
        have hnextNames : ∀ f ∈ next.entries, allowed f.1 := by
          rw [UniqueMap.entries_insert hinsert]
          intro f hf
          rcases List.mem_append.mp hf with hf | hf
          · exact hnames f hf
          · exact List.mem_singleton.mp hf ▸ hname
        have hnext : ∀ u ∈ next.entries.map Prod.snd, holds i u := by
          rw [UniqueMap.entries_insert hinsert, List.map_append]
          intro u hu
          rcases List.mem_append.mp hu with hu | hu
          · exact hbound u hu
          · exact List.mem_singleton.mp hu ▸ hmember
        obtain ⟨hnames', hbound', hscopes₂⟩ := bindMembersAllowing_keeps inv rest i hnextNames
          hnext (hc.of_scopes_eq hscopes₁) h
        exact ⟨hnames', hbound', hscopes₂.trans hscopes₁⟩
      · exact absurd h BindM.not_yields_unsupported
    · exact absurd h BindM.not_yields_unsupported

theorem bindArgumentsAllowing_keeps (inv : TermInvariant registry holds allowed) :
    ∀ (call : Call Expr), ∀ a ∈ (bindArgumentsAllowing allowed registry call).arguments,
      ∀ i, a.step.Keeps (holds i)
  | ⟨_, _, _, arguments⟩, a, ha, i => by
    unfold bindArgumentsAllowing at ha
    exact bindEachAllowing_keeps inv arguments a ha i

theorem bindEachAllowing_keeps (inv : TermInvariant registry holds allowed) :
    ∀ (es : List Expr), ∀ a ∈ bindEachAllowing allowed registry es, ∀ i, a.step.Keeps (holds i)
  | [], a, ha, i => by
    unfold bindEachAllowing at ha
    cases ha
  | e :: rest, a, ha, i => by
    cases e with
    | lambda parameters body =>
      simp only [bindEachAllowing] at ha
      rcases List.mem_cons.mp ha with rfl | ha
      · exact bindAllowing_keeps inv body i
      · exact bindEachAllowing_keeps inv rest a ha i
    | _ =>
      simp only [bindEachAllowing] at ha
      rcases List.mem_cons.mp ha with rfl | ha
      · exact bindAllowing_keeps inv _ i
      · exact bindEachAllowing_keeps inv rest a ha i
end

theorem bind_keeps (inv : TermInvariant registry holds) (e : Expr) (i : ι) :
    (e.bind registry).Keeps (holds i) :=
  bindAllowing_all e ▸ bindAllowing_keeps inv e i

/-- The arguments of a call keep an invariant. -/
theorem bindArguments_keeps (inv : TermInvariant registry holds) (call : Call Expr) :
    ∀ a ∈ (bindArguments registry call).arguments, ∀ i, a.step.Keeps (holds i) :=
  bindArgumentsAllowing_all call ▸ bindArgumentsAllowing_keeps inv call

end Expr

/-! ### Queries -/

namespace Query

variable {registry : Registry} {allowed : String → Bool} {outer : Term → Prop}
  {keeps result : Pipeline → Prop} {inner : Pipeline → Term → Prop}
  {lambda : Pipeline → Lambda → Prop}
  (inv : SequenceInvariant registry Pipeline Pipeline outer keeps inner result lambda)
  (ends : ∀ p, keeps p → result p)
include inv ends

section Allowing

variable (arguments : ∀ clause,
  ∀ a ∈ (Expr.bindArgumentsAllowing allowed registry clause).arguments,
    a.step.Keeps outer ∧ ∀ p, keeps p → a.step.Keeps (inner p))
include arguments

theorem bindClausesAllowing_keeps (clauses : List (Call Expr)) {p p' : Pipeline} {c c' : Context}
    (hp : keeps p) (hc : c.Every outer)
    (h : (bindClausesAllowing allowed registry p clauses).Yields c p' c') : result p' := by
  induction clauses generalizing p c with
  | nil =>
    obtain ⟨rfl, rfl⟩ := BindM.yields_pure.mp h
    exact ends p hp
  | cons clause rest ih =>
    simp only [bindClausesAllowing, BindM.yields_bind, BindM.yields_ofExcept] at h
    obtain ⟨op, c₁, ⟨-, rfl⟩, applied, c₂, happlied, h⟩ := h
    obtain ⟨hholds, hscopes⟩ := Operator.apply_keeps inv (arguments clause) hp hc happlied
    cases applied with
    | sequence p₁ => exact ih hholds (hc.of_scopes_eq hscopes) h
    | terminal p₁ =>
      cases rest with
      | nil =>
        obtain ⟨rfl, rfl⟩ := BindM.yields_pure.mp h
        exact hholds
      | cons next rest => exact absurd h BindM.not_yields_unsupported

/-- **Binding a query keeps an invariant** of the rows that it starts from. -/
theorem bindAllowing_keeps {q : Query}
    (start : ∀ codec, registry.codec? q.itemType = some codec → keeps (.ofRoot codec))
    {p : Pipeline} {c : Context} (h : (q.bindAllowing allowed registry).Yields {} p c) :
    result p := by
  unfold bindAllowing at h
  split at h
  · rename_i codec hcodec
    refine bindClausesAllowing_keeps inv ends arguments q.clauses (start codec hcodec) ?_ h
    intro name t hlookup
    cases hlookup
  · exact absurd h BindM.not_yields_throw

end Allowing

theorem bind_keeps (arguments : ∀ clause, ∀ a ∈ (Expr.bindArguments registry clause).arguments,
      a.step.Keeps outer ∧ ∀ p, keeps p → a.step.Keeps (inner p))
    (start : ∀ codec, keeps (.ofRoot codec)) {q : Query} {p : Pipeline} {c : Context}
    (h : (q.bind registry).Yields {} p c) : result p := by
  rw [← bindAllowing_all q] at h
  refine bindAllowing_keeps inv ends ?_ (fun codec _ => start codec) h
  intro clause
  rw [Expr.bindArgumentsAllowing_all]
  exact arguments clause

end Query

end QueryPipeline
