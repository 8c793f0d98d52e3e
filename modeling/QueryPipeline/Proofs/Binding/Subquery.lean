import Mathlib.Data.Option.Basic
import QueryPipeline.Proofs.Binding.Chain

/-!
Binding sub-queries keeps their meaning. Every expression is bound to a term with its
outline, which stands for what the expression means wherever that is defined: calls by
what operators make of items, all other forms part by part.
-/

namespace QueryPipeline

variable {engine : Engine} {registry : Registry} {other? : Others} {vars : List String}

/-! ### Expressions -/

theorem Datum.items?_eq_some {d : Datum} {items : List Value} (h : d.items? = some items) :
    d.stored = some (.array items) ∧ items.length ≤ Window.maxOffset := by
  unfold items? at h
  split at h
  · rename_i found hstored
    split at h
    · rename_i few
      obtain rfl := Option.some.inj h
      exact ⟨hstored, few⟩
    · cases h
  · cases h

theorem Outline.itemCodec?_eq_some {o : Outline} {item : Codec}
    (h : o.itemCodec? = some item) : ∃ codec, o = .stored codec ∧ codec.item? = some item := by
  unfold itemCodec? at h
  split at h
  · rename_i codec
    exact ⟨codec, rfl, h⟩
  · cases h

/-- Expressions with other operators are bound to terms that realize what is said of
them. -/
def Others.Sound (engine : Engine) (registry : Registry) (other? : Others) : Prop :=
  ∀ ⦃e vars c m t c'⦄, Expr.apart vars e = true → Context.Fit vars c →
    other? c.outlines e = some m → (e.bind registry).Yields c t c' →
    c'.scopes = c.scopes ∧ Realizes engine vars c m t

/-- What is assumed of evaluation: operators on constants are exact, a missing value
counts in conditions as null does, and other operators are bound to what is said of
them. -/
structure Laws (engine : Engine) (registry : Registry) (other? : Others) : Prop where
  exact : engine.Exact
  absent : engine.isTrue none = engine.isTrue (some .null)
  others : other?.Sound engine registry

theorem Expr.Sound.of_scopes_eq {e : Expr} {c c₁ c₂ : Context} {m : Meaning} {t : Term}
    (h : e.Sound engine registry other?) (apart : e.apart vars = true) (fit : c.Fit vars)
    (hm : e.meaning? engine registry other? c.outlines = some m)
    (same : c₁.scopes = c.scopes) (hbind : (e.bind registry).Yields c₁ t c₂) :
    c₂.scopes = c.scopes ∧ Realizes engine vars c m t := by
  obtain ⟨same', realizes⟩ :=
    h apart (fit.congr same) (by rw [Context.outlines_congr same]; exact hm) hbind
  exact ⟨same'.trans same, realizes.congr same.symm⟩

namespace Realizes

variable {c : Context}

theorem const (v : Value) (codec : Codec) :
    Realizes engine vars c ⟨.ofShape (.constant v codec), fun _ => some (.value (some v))⟩
      (.const v codec) where
  outline := rfl
  reads := nofun
  sliced := .other rfl rfl
  datum _ hd := by
    obtain rfl := Option.some.inj hd
    exact ⟨rfl, .other rfl rfl⟩

theorem param {name : String} {t : Term} (fit : c.Fit vars)
    (h : c.scopes.lookup name = some t) :
    Realizes engine vars c ⟨t.outline, fun data => data name⟩ t where
  outline := rfl
  reads := fit.reads name t h
  sliced := fit.sliced name t h
  datum countable hd := by
    obtain rfl : t.datum engine _ = _ := by simpa [Context.data, h] using hd
    exact ⟨rfl, countable name t h⟩

theorem member {m : Meaning} {target t : Term} {name : String}
    (h : Realizes engine vars c m target) (hmember : target.member registry name = some t) :
    ∃ read, m.outline.member? registry engine name = some (t.outline, read) ∧
      Realizes engine vars c ⟨t.outline, fun data => (m.datum data).map read⟩ t := by
  obtain ⟨read, found, hdatum⟩ := Term.member_outline engine hmember
  refine ⟨read, h.outline ▸ found, rfl, Term.readsIn_member h.reads hmember,
    Term.sliced_member h.sliced hmember, ?_⟩
  intro env d countable hd
  obtain ⟨d', hd', rfl⟩ := Option.map_eq_some_iff.mp hd
  obtain ⟨rfl, counted⟩ := h.datum countable hd'
  exact ⟨hdatum env, Term.sliced_member counted hmember⟩

section Folding

variable (exact : engine.Exact)
include exact

theorem unary {op : UnaryOp} {m : Meaning} {t : Term} (h : Realizes engine vars c m t) :
    Realizes engine vars c ⟨.unary op m.outline, fun data =>
        (m.datum data).map fun d => .value (engine.unary op d.stored)⟩
      (.foldUnary op t) where
  outline := by rw [Term.outline_foldUnary, h.outline]
  reads := Term.readsIn_foldUnary h.reads
  sliced := Term.sliced_foldUnary op t
  datum countable hd := by
    obtain ⟨d', hd', rfl⟩ := Option.map_eq_some_iff.mp hd
    obtain ⟨rfl, _⟩ := h.datum countable hd'
    exact ⟨by rw [Term.datum_foldUnary exact, Term.stored_datum], Term.sliced_foldUnary op t⟩

theorem binary {op : BinaryOp} {ml mr : Meaning} {l r : Term}
    (hl : Realizes engine vars c ml l) (hr : Realizes engine vars c mr r) :
    Realizes engine vars c ⟨.binary op ml.outline mr.outline, fun data => do
        let a ← ml.datum data
        let b ← mr.datum data
        return .value (engine.binary op a.stored b.stored)⟩
      (.foldBinary op l r) where
  outline := by rw [Term.outline_foldBinary, hl.outline, hr.outline]
  reads := Term.readsIn_foldBinary hl.reads hr.reads
  sliced := Term.sliced_foldBinary op l r
  datum countable hd := by
    obtain ⟨a, ha, hd⟩ := Option.bind_eq_some_iff.mp hd
    obtain ⟨b, hb, hd⟩ := Option.bind_eq_some_iff.mp hd
    obtain rfl := Option.some.inj hd
    obtain ⟨rfl, _⟩ := hl.datum countable ha
    obtain ⟨rfl, _⟩ := hr.datum countable hb
    exact ⟨by rw [Term.datum_foldBinary exact, Term.stored_datum, Term.stored_datum],
      Term.sliced_foldBinary op l r⟩

theorem cond {mt myes mno : Meaning} {t yes no : Term} (ht : Realizes engine vars c mt t)
    (hyes : Realizes engine vars c myes yes) (hno : Realizes engine vars c mno no) :
    Realizes engine vars c ⟨.cond mt.outline myes.outline mno.outline, fun data => do
        let d ← mt.datum data
        (if engine.isTrue d.stored then myes.datum data else mno.datum data).map
          (Outline.cond mt.outline myes.outline mno.outline).view⟩
      (.foldCond t yes no) where
  outline := by rw [Term.outline_foldCond, ht.outline, hyes.outline, hno.outline]
  reads := Term.readsIn_foldCond ht.reads hyes.reads hno.reads
  sliced := Term.sliced_foldCond t hyes.sliced hno.sliced
  datum {env} d countable hd := by
    obtain ⟨test, htest, hd⟩ := Option.bind_eq_some_iff.mp hd
    obtain ⟨chosen, hchosen, rfl⟩ := Option.map_eq_some_iff.mp hd
    obtain ⟨rfl, _⟩ := ht.datum countable htest
    rw [Term.stored_datum] at hchosen
    rw [Term.datum_foldCond exact, Term.outline_foldCond, ht.outline, hyes.outline, hno.outline]
    cases htrue : engine.isTrue (t.eval engine env) with
    | true =>
      rw [htrue] at hchosen
      obtain ⟨rfl, counted⟩ := hyes.datum countable hchosen
      exact ⟨rfl, Term.sliced_foldCond_of_isTrue exact (by rwa [htrue])⟩
    | false =>
      rw [htrue] at hchosen
      obtain ⟨rfl, counted⟩ := hno.datum countable hchosen
      exact ⟨rfl, Term.sliced_foldCond_of_isTrue exact (by rwa [htrue])⟩

end Folding

theorem index {ma mp : Meaning} {a p : Term} (ha : Realizes engine vars c ma a)
    (hp : Realizes engine vars c mp p) :
    Realizes engine vars c
      ⟨.stored (ma.outline.codec.item?.getD .dynamic), fun data => do
        let d ← ma.datum data
        let i ← mp.datum data
        return .value (match d.stored, i.stored.bind Value.integer? with
          | some (.array items), some (_, n) => Value.itemAt items n
          | _, _ => none)⟩
      (.elemAt a p) where
  outline := by
    simp only [Term.outline, Term.shape, Term.codec, Outline.ofShape, Outline.stored,
      ← ha.outline, Term.codec_outline]
  reads x hx := (List.mem_append.mp hx).elim (ha.reads x) (hp.reads x)
  sliced := .other rfl rfl
  datum countable hd := by
    obtain ⟨d, hd', hd⟩ := Option.bind_eq_some_iff.mp hd
    obtain ⟨i, hi, hd⟩ := Option.bind_eq_some_iff.mp hd
    obtain rfl := Option.some.inj hd
    obtain ⟨rfl, _⟩ := ha.datum countable hd'
    obtain ⟨rfl, _⟩ := hp.datum countable hi
    refine ⟨?_, .other rfl rfl⟩
    rw [Term.stored_datum, Term.stored_datum]
    rfl

/-- **One call** on a source that is realized. -/
theorem call {m : Meaning} {source u : Term} {s : Items} {q : Sequel} {site : String}
    (h : Realizes engine vars c m source) (hs : Items.ofTerm source site = .ok s)
    (follows : Follows engine vars c s q u) :
    Realizes engine vars c
      ⟨.stored q.codec, fun data => do
        let items ← (m.datum data).bind Datum.items?
        let v ← q.value data items
        return .value v⟩ u where
  outline := follows.outline
  reads := follows.reads
  sliced := follows.sliced
  datum countable hd := by
    obtain ⟨items, hitems, hd⟩ := Option.bind_eq_some_iff.mp hd
    obtain ⟨v, hv, hd⟩ := Option.bind_eq_some_iff.mp hd
    obtain rfl := Option.some.inj hd
    obtain ⟨d, hd', hitems⟩ := Option.bind_eq_some_iff.mp hitems
    obtain ⟨rfl, counted⟩ := h.datum countable hd'
    obtain ⟨heval, few⟩ := Datum.items?_eq_some hitems
    rw [Term.stored_datum] at heval
    obtain ⟨rfl, counted'⟩ :=
      follows.value countable (Items.holds_ofTerm hs heval few counted) hv
    exact ⟨Term.datum_of_isValue (Items.isValue_of_outline follows.outline), counted'⟩

/-- The members of a record, each with its name. -/
abbrev Members (engine : Engine) (vars : List String) (c : Context)
    (members : List (String × Meaning)) (fields : List (String × Term)) : Prop :=
  List.Forall₂ (fun m f => m.1 = f.1 ∧ Realizes engine vars c m.2 f.2) members fields

namespace Members

variable {members : List (String × Meaning)} {fields : List (String × Term)}

theorem exists_realizes (h : Members engine vars c members fields) :
    ∀ f ∈ fields, ∃ m, Realizes engine vars c m f.2 := by
  induction h with
  | nil => nofun
  | cons first _ ih =>
    intro f hf
    rcases List.mem_cons.mp hf with rfl | hf
    · exact ⟨_, first.2⟩
    · exact ih f hf

theorem outlines (h : Members engine vars c members fields) :
    Term.fieldOutlines fields = members.map fun m => (m.1, m.2.outline) := by
  induction h with
  | nil => rfl
  | @cons m f members fields first _ ih =>
    obtain ⟨name, t⟩ := f
    obtain ⟨rfl, realizes⟩ := first
    rw [Term.fieldOutlines, ih, realizes.outline]
    rfl

/-- The members that have data are bound to fields that stand for them. -/
theorem data (h : Members engine vars c members fields) {env : Env}
    {ds : List (String × Datum)} (countable : c.Every (Term.Countable engine env))
    (hds : (members.mapM fun m : String × Meaning =>
      (m.2.datum (c.data engine env)).map (m.1, ·)) = some ds) :
    Term.fieldData engine env fields = ds ∧ ∀ f ∈ fields, f.2.Countable engine env := by
  induction h generalizing ds with
  | nil =>
    obtain rfl : [] = ds := by simpa using hds
    exact ⟨rfl, nofun⟩
  | @cons m f members fields first _ ih =>
    obtain ⟨name, t⟩ := f
    obtain ⟨rfl, realizes⟩ := first
    rw [List.mapM_cons] at hds
    obtain ⟨entry, hentry, hds⟩ := Option.bind_eq_some_iff.mp hds
    obtain ⟨d, hd, rfl⟩ := Option.map_eq_some_iff.mp hentry
    obtain ⟨rest, hrest, hds⟩ := Option.bind_eq_some_iff.mp hds
    obtain rfl := Option.some.inj hds
    obtain ⟨rfl, counted⟩ := realizes.datum countable hd
    obtain ⟨rfl, countedRest⟩ := ih hrest
    refine ⟨rfl, ?_⟩
    intro f hf
    rcases List.mem_cons.mp hf with rfl | hf
    · exact counted
    · exact countedRest f hf

end Members

theorem record {members : List (String × Meaning)} {fields : List (String × Term)}
    (h : Members engine vars c members fields) :
    Realizes engine vars c (.record members) (.document fields) where
  outline := by
    simp only [Term.outline, h.outlines]
    rfl
  reads x hx := by
    obtain ⟨f, hf, hread⟩ := Term.mem_fieldReads.mp hx
    obtain ⟨m, realizes⟩ := h.exists_realizes f hf
    exact realizes.reads x hread
  sliced := .record fun f hf => by
    obtain ⟨m, realizes⟩ := h.exists_realizes f hf
    exact realizes.sliced
  datum countable hd := by
    obtain ⟨ds, hds, rfl⟩ := Option.map_eq_some_iff.mp hd
    obtain ⟨hdata, counted⟩ := h.data countable hds
    exact ⟨by simp only [Term.datum, hdata], .record counted⟩

end Realizes

namespace Expr

theorem callOperands_eq (scope : String → Option Outline) (call : Call Expr) :
    callOperands engine registry other? scope call =
      call.arguments.map (operand engine registry other? scope) := by
  obtain ⟨declaringType, name, types, arguments⟩ := call
  exact operands_eq scope arguments

theorem callApart_eq (call : Call Expr) :
    callApart vars call = call.arguments.all (apart vars) := by
  obtain ⟨declaringType, name, types, arguments⟩ := call
  change allApart vars arguments = _
  induction arguments with
  | nil => rfl
  | cons e rest ih => rw [allApart, ih, List.all_cons]

/-- **A call is bound to what it means**, if its source and its arguments are. -/
theorem sound_call (laws : Laws engine registry other?) {source : Expr} {call : Call Expr}
    (ofSource : source.Sound engine registry other?)
    (values : ∀ e ∈ call.arguments, e.Sound engine registry other?)
    (lambdas : ∀ e ∈ call.arguments, ∀ parameter body, e = .lambda [parameter] body →
      body.Sound engine registry other?) :
    (Expr.call source call).Sound engine registry other? := by
  intro vars c m u c' apart fit hm hbind
  have hapart := apart
  rw [Expr.apart, callApart_eq, Bool.and_eq_true, List.all_eq_true] at hapart
  rw [meaning?] at hm
  rcases (Option.orElse_eq_some _ _ _).mp hm with hm | ⟨_, hm⟩
  · obtain ⟨ms, hms, hm⟩ := Option.bind_eq_some_iff.mp hm
    obtain ⟨codec, hcodec, hm⟩ := Option.bind_eq_some_iff.mp hm
    obtain ⟨q, hq, hm⟩ := Option.bind_eq_some_iff.mp hm
    obtain rfl := Option.some.inj hm
    rw [callOperands_eq] at hq
    simp only [bind, BindM.yields_bind, BindM.yields_ofExcept] at hbind
    obtain ⟨op, c₁, ⟨hop, rfl⟩, t, c₂, ht, happly⟩ := hbind
    obtain ⟨same, realizes⟩ := ofSource hapart.1 fit hms ht
    obtain ⟨stored, houtline, hitem⟩ := Outline.itemCodec?_eq_some hcodec
    have htoutline : t.outline = .stored stored := realizes.outline.trans houtline
    obtain ⟨_, s, applied, hs, happlied, rfl⟩ :=
      (Term.applyOperator_yields (Items.no_group_of_outline htoutline)).mp happly
    obtain ⟨ranges, hstored⟩ :=
      Items.over_ofTerm hs htoutline realizes.reads realizes.sliced
    obtain rfl : codec = s.codec := by simpa [hstored, Codec.item?, eq_comm] using hitem
    obtain ⟨same', follows⟩ :=
      Follows.of_apply laws.exact laws.absent hop hapart.2 (fit.congr same) values lambdas ranges
        (by rwa [Context.outlines_congr same]) happlied
    exact ⟨same'.trans same, (realizes.congr same |>.call hs follows).congr same.symm⟩
  · exact laws.others apart fit hm hbind

-- By recursion on expressions, as they are bound. Each part leaves the scopes as they were,
-- so the parts behind it are bound where the parameters stand for the same.
mutual
/-- **Every expression is bound to what it means.** -/
theorem sound (laws : Laws engine registry other?) :
    (e : Expr) → e.Sound engine registry other?
  | .const v type => by
      intro vars c m t c' _ _ hm h
      rw [meaning?] at hm
      obtain ⟨codec, hcodec, rfl⟩ := Option.map_eq_some_iff.mp hm
      simp only [bind, hcodec, BindM.yields_pure] at h
      obtain ⟨rfl, rfl⟩ := h
      exact ⟨rfl, .const v codec⟩
  | .param name => by
      intro vars c m t c' _ fit hm h
      rw [meaning?] at hm
      obtain ⟨o, ho, rfl⟩ := Option.map_eq_some_iff.mp hm
      obtain ⟨hlookup, rfl⟩ := BindM.yields_lookup.mp h
      obtain rfl : t.outline = o := by simpa [Context.outlines, hlookup] using ho
      exact ⟨rfl, .param fit hlookup⟩
  | .member target name => by
      intro vars c m t c' apart fit hm h
      rw [meaning?] at hm
      obtain ⟨mt, hmt, hm⟩ := Option.bind_eq_some_iff.mp hm
      obtain ⟨⟨o, read⟩, hread, hm⟩ := Option.bind_eq_some_iff.mp hm
      obtain rfl := Option.some.inj hm
      simp only [bind, BindM.yields_bind] at h
      obtain ⟨bound, c₁, htarget, h⟩ := h
      obtain ⟨same, realizes⟩ := sound laws target apart fit hmt htarget
      cases hmember : bound.member registry name with
      | none => simp [hmember] at h
      | some u =>
        simp only [hmember, BindM.yields_pure] at h
        obtain ⟨rfl, rfl⟩ := h
        obtain ⟨read', hread', realizes'⟩ := realizes.member hmember
        obtain ⟨rfl, rfl⟩ : o = u.outline ∧ read = read' := by
          simpa using hread.symm.trans hread'
        exact ⟨same, realizes'⟩
  | .unary op operand => by
      intro vars c m t c' apart fit hm h
      rw [meaning?] at hm
      obtain ⟨mo, hmo, hm⟩ := Option.bind_eq_some_iff.mp hm
      obtain rfl := Option.some.inj hm
      simp only [bind, BindM.yields_bind, BindM.yields_pure] at h
      obtain ⟨u, c₁, hoperand, rfl, rfl⟩ := h
      obtain ⟨same, realizes⟩ := sound laws operand apart fit hmo hoperand
      exact ⟨same, realizes.unary laws.exact⟩
  | .binary op left right => by
      intro vars c m t c' apart fit hm h
      rw [Expr.apart, Bool.and_eq_true] at apart
      rw [meaning?] at hm
      obtain ⟨ml, hml, hm⟩ := Option.bind_eq_some_iff.mp hm
      obtain ⟨mr, hmr, hm⟩ := Option.bind_eq_some_iff.mp hm
      obtain rfl := Option.some.inj hm
      simp only [bind, BindM.yields_bind, BindM.yields_pure] at h
      obtain ⟨l, c₁, hleft, r, c₂, hright, rfl, rfl⟩ := h
      obtain ⟨same, hl⟩ := sound laws left apart.1 fit hml hleft
      obtain ⟨same', hr⟩ := (sound laws right).of_scopes_eq apart.2 fit hmr same hright
      exact ⟨same', hl.binary laws.exact hr⟩
  | .cond test ifTrue ifFalse => by
      intro vars c m t c' apart fit hm h
      rw [Expr.apart, Bool.and_eq_true, Bool.and_eq_true] at apart
      rw [meaning?] at hm
      obtain ⟨mt, hmt, hm⟩ := Option.bind_eq_some_iff.mp hm
      obtain ⟨myes, hmyes, hm⟩ := Option.bind_eq_some_iff.mp hm
      obtain ⟨mno, hmno, hm⟩ := Option.bind_eq_some_iff.mp hm
      obtain rfl := Option.some.inj hm
      simp only [bind, BindM.yields_bind, BindM.yields_pure] at h
      obtain ⟨u, c₁, htest, yes, c₂, hyes, no, c₃, hno, rfl, rfl⟩ := h
      obtain ⟨same, ht⟩ := sound laws test apart.1.1 fit hmt htest
      obtain ⟨same', hy⟩ := (sound laws ifTrue).of_scopes_eq apart.1.2 fit hmyes same hyes
      obtain ⟨same'', hn⟩ := (sound laws ifFalse).of_scopes_eq apart.2 fit hmno same' hno
      exact ⟨same'', ht.cond laws.exact hy hn⟩
  | .new members => by
      intro vars c m t c' apart fit hm h
      rw [meaning?] at hm
      obtain ⟨ms, hms, hm⟩ := Option.bind_eq_some_iff.mp hm
      obtain rfl := Option.some.inj hm
      simp only [bind, BindM.yields_bind, BindM.yields_pure] at h
      obtain ⟨bound, c₁, hmembers, rfl, rfl⟩ := h
      obtain ⟨same, fields, hentries, realizes⟩ :=
        sound_members laws members apart fit hms rfl hmembers
      have hfields : bound.entries = fields := by simpa [UniqueMap.empty] using hentries
      exact ⟨same, .record (hfields ▸ realizes)⟩
  | .index array position => by
      intro vars c m t c' apart fit hm h
      rw [Expr.apart, Bool.and_eq_true] at apart
      rw [meaning?] at hm
      obtain ⟨ma, hma, hm⟩ := Option.bind_eq_some_iff.mp hm
      obtain ⟨mp, hmp, hm⟩ := Option.bind_eq_some_iff.mp hm
      split at hm
      · obtain rfl := Option.some.inj hm
        simp only [bind, BindM.yields_bind] at h
        obtain ⟨a, c₁, harray, h⟩ := h
        obtain ⟨same, ha⟩ := sound laws array apart.1 fit hma harray
        split at h
        · simp only [BindM.yields_bind, BindM.yields_pure] at h
          obtain ⟨p, c₂, hposition, rfl, rfl⟩ := h
          obtain ⟨same', hp⟩ := (sound laws position).of_scopes_eq apart.2 fit hmp same hposition
          exact ⟨same', ha.index hp⟩
        · exact absurd h BindM.not_yields_unsupported
      · cases hm
  | .call source ⟨declaringType, name, types, arguments⟩ =>
      sound_call laws (sound laws source)
        (fun e he => (sound_arguments laws arguments e he).1)
        (fun e he => (sound_arguments laws arguments e he).2)
  | .lambda parameters body => by
      intro vars c m t c' _ _ _ h
      exact absurd h BindM.not_yields_unsupported

/-- The members of a record are added, in order, to those bound before. -/
theorem sound_members (laws : Laws engine registry other?) :
    (members : List (String × Expr)) →
    ∀ ⦃vars : List String⦄ ⦃c c₀ c' : Context⦄ ⦃text : String⦄
      ⦃ms : List (String × Meaning)⦄ ⦃bound bound' : UniqueMap String Term⦄,
    membersApart vars members = true → c.Fit vars →
    memberMeanings? engine registry other? c.outlines members = some ms →
    c₀.scopes = c.scopes →
    (bindMembers registry text bound members).Yields c₀ bound' c' →
    c'.scopes = c.scopes ∧ ∃ fields, bound'.entries = bound.entries ++ fields ∧
      Realizes.Members engine vars c ms fields
  | [] => by
      intro vars c c₀ c' text ms bound bound' _ _ hms same h
      rw [bindMembers, BindM.yields_pure] at h
      obtain ⟨rfl, rfl⟩ := h
      obtain rfl := Option.some.inj hms
      exact ⟨same, [], by simp, .nil⟩
  | (name, e) :: rest => by
      intro vars c c₀ c' text ms bound bound' apart fit hms same h
      rw [membersApart, Bool.and_eq_true] at apart
      rw [memberMeanings?] at hms
      obtain ⟨m, hm, hms⟩ := Option.bind_eq_some_iff.mp hms
      obtain ⟨more, hmore, hms⟩ := Option.bind_eq_some_iff.mp hms
      obtain rfl := Option.some.inj hms
      rw [bindMembers, BindM.yields_bind] at h
      obtain ⟨t, c₁, ht, h⟩ := h
      obtain ⟨same₁, realizes⟩ := (sound laws e).of_scopes_eq apart.1 fit hm same ht
      cases hinsert : bound.insert name t with
      | error taken => simp [hinsert] at h
      | ok bound₁ =>
        simp only [hinsert] at h
        obtain ⟨same', fields, hentries, hrest⟩ :=
          sound_members laws rest apart.2 fit hmore same₁ h
        rw [UniqueMap.entries_insert hinsert, List.append_assoc] at hentries
        exact ⟨same', (name, t) :: fields, hentries, .cons ⟨rfl, realizes⟩ hrest⟩

/-- The body of a lambda is bound to what it means. -/
theorem sound_body (laws : Laws engine registry other?) :
    (e : Expr) → ∀ parameter body, e = .lambda [parameter] body →
    body.Sound engine registry other?
  | .lambda parameters body => by
      rintro parameter body' ⟨⟩
      exact sound laws body
  | .const _ _ | .param _ | .member _ _ | .unary _ _ | .binary _ _ _ | .cond _ _ _ | .new _
  | .index _ _ | .call _ _ => nofun

theorem sound_arguments (laws : Laws engine registry other?) :
    (arguments : List Expr) → ∀ e ∈ arguments,
    e.Sound engine registry other? ∧ ∀ parameter body, e = .lambda [parameter] body →
      body.Sound engine registry other?
  | [] => nofun
  | e :: rest => List.forall_mem_cons.mpr
      ⟨⟨sound laws e, sound_body laws e⟩, sound_arguments laws rest⟩
end

end Expr

end QueryPipeline
