import QueryPipeline.Proofs.Binding.Terms
import QueryPipeline.Proofs.Term.Children

/-!
Properties that bound terms inherit. Binding writes records, whose names differ, paths from
the row, which grow by one member after the other, slices, which have a bound, and
accumulators; all else that it writes is made of terms that it has by then. So a property that
the records, the slices and the accumulators have, that a member of a path inherits from the
path, and that is trivial for all other terms, holds of every part of a bound term if it holds
of the parts of the terms in scope. Only the rows of a group make accumulators, so what needs
them to have the property says so (`accumulators`).
-/

namespace QueryPipeline

namespace Term

/-- A property of the term and of all terms below it. -/
def Everywhere (holds : Term → Prop) (t : Term) : Prop := ∀ u ∈ t.subterms, holds u

/-- Whether the term is a record, a slice or an accumulator, or reads a path that starts at
the row. -/
def isGiven : Term → Bool
  | .document _ | .slice .. | .accumulator .. => true
  | .field path _ => path.var.isNone
  | _ => false

variable {holds : Term → Prop} {t u v w : Term}

theorem everywhere_iff : t.Everywhere holds ↔
    holds t ∧ ∀ u ∈ t.children, u.Everywhere holds := by
  constructor
  · intro h
    exact ⟨h t (mem_subterms_self t), fun u hu v hv => h v (mem_subterms_of_child hu hv)⟩
  · rintro ⟨own, parts⟩ v hv
    rcases mem_subterms_cases hv with rfl | ⟨u, hu, hv⟩
    · exact own
    · exact parts u hu v hv

/-- Nothing is below a path. -/
theorem everywhere_field {path : FieldPath} {codec : Codec} (h : holds (.field path codec)) :
    (Term.field path codec).Everywhere holds :=
  everywhere_iff.mpr ⟨h, nofun⟩

namespace Everywhere

theorem self (h : t.Everywhere holds) : holds t := (everywhere_iff.mp h).1

theorem child (h : t.Everywhere holds) (hu : u ∈ t.children) : u.Everywhere holds :=
  (everywhere_iff.mp h).2 u hu

theorem groupKey (h : t.Everywhere holds) : (Operator.groupKey t).Everywhere holds := by
  unfold Operator.groupKey
  split
  · exact h.child (by simp [children])
  · exact h

end Everywhere

/-! ### Members by codec -/

/-- Whether the members of the term are found by its codec. A record has its own members, and
a group has a key. -/
def readsByCodec : Term → Bool
  | .document _ | .grouping .. => false
  | _ => true

/-- An element of a document that is read from the term. -/
def element (t : Term) (name : String) (codec : Codec) : Term :=
  match t with
  | .field path _ => .field (path.child name) codec
  | .item _ var _ => .field ((FieldPath.ofVar var).child name) codec
  | _ => .getField t name codec

theorem member_of_readsByCodec {registry : Registry} {name : String}
    (h : t.readsByCodec = true) : t.member registry name =
    if t.codec.isArray && (name == "Length" || name == "Count") then some (.size t)
    else (registry.member? t.codec name).map fun m => t.element m.1 m.2 := by
  cases t with
  | document | grouping => cases h
  | _ => rfl

/-! ### What binding passes on -/

/-- A property that records, slices with a bound and the members of paths inherit, and that
says nothing of other terms, accumulators apart. -/
structure Inherited (registry : Registry) (holds : Term → Prop) : Prop where
  other {t : Term} : t.isGiven = false → holds t
  record {fields} : (fields.map Prod.fst).Nodup → holds (.document fields)
  slice {array bounds} : bounds ≠ {} → holds (.slice array bounds)
  child {path codec name element codec'} : path.var = none → holds (.field path codec) →
    registry.member? codec name = some (element, codec') →
      holds (.field (path.child element) codec')

namespace Inherited

variable {registry : Registry} (inv : Inherited registry holds)
include inv

/-- A term that is made of other terms. -/
theorem built (other : t.isGiven = false) (parts : ∀ u ∈ t.children, u.Everywhere holds) :
    t.Everywhere holds :=
  everywhere_iff.mpr ⟨inv.other other, parts⟩

theorem const {v : Value} {codec : Codec} : Everywhere holds (.const v codec) :=
  inv.built rfl nofun

/-- A path that starts at a variable. -/
theorem variablePath {path : FieldPath} {codec : Codec} (bound : path.var.isNone = false) :
    Everywhere holds (.field path codec) :=
  everywhere_field (inv.other bound)

theorem binary {op : BinaryOp} (hu : u.Everywhere holds) (hv : v.Everywhere holds) :
    (Term.binary op u v).Everywhere holds :=
  inv.built rfl (by simp [children, hu, hv])

theorem foldBinary {op : BinaryOp} (hu : u.Everywhere holds) (hv : v.Everywhere holds) :
    (Term.foldBinary op u v).Everywhere holds := by
  unfold Term.foldBinary
  split
  · split
    · exact inv.const
    · exact inv.binary hu hv
  · exact inv.binary hu hv

theorem foldUnary {op : UnaryOp} (hu : u.Everywhere holds) :
    (Term.foldUnary op u).Everywhere holds := by
  have unfolded : (Term.unary op u).Everywhere holds := inv.built rfl (by simp [children, hu])
  unfold Term.foldUnary
  split
  · split
    · exact inv.const
    · exact unfolded
  · exact unfolded

theorem foldCond (hu : u.Everywhere holds) (hv : v.Everywhere holds)
    (hw : w.Everywhere holds) : (Term.foldCond u v w).Everywhere holds := by
  unfold Term.foldCond
  split
  · split
    · exact hv
    · exact hw
  · exact inv.built rfl (by simp [children, hu, hv, hw])

theorem document {fields : List (String × Term)} (distinct : (fields.map Prod.fst).Nodup)
    (parts : ∀ u ∈ fields.map Prod.snd, u.Everywhere holds) :
    (Term.document fields).Everywhere holds :=
  everywhere_iff.mpr ⟨inv.record distinct, parts⟩

theorem size (hu : u.Everywhere holds) : (Term.size u).Everywhere holds :=
  inv.built rfl (by simp [children, hu])

theorem filter {var : String} (hu : u.Everywhere holds) (hv : v.Everywhere holds) :
    (Term.filter u var v).Everywhere holds :=
  inv.built rfl (by simp [children, hu, hv])

theorem map {var : String} (hu : u.Everywhere holds) (hv : v.Everywhere holds) :
    (Term.map u var v).Everywhere holds :=
  inv.built rfl (by simp [children, hu, hv])

theorem sortArray {keys : List ItemKey} (hu : u.Everywhere holds) :
    (Term.sortArray u keys).Everywhere holds :=
  inv.built rfl (by simp [children, hu])

theorem setOp {op : SetOp} {arguments : List Term}
    (parts : ∀ u ∈ arguments, u.Everywhere holds) :
    (Term.setOp op arguments).Everywhere holds :=
  inv.built rfl parts

/-- An element of a document is read by a longer path, or from the document. -/
theorem element {name element : String} {codec : Codec} (ht : t.Everywhere holds)
    (found : registry.member? t.codec name = some (element, codec)) :
    (t.element element codec).Everywhere holds := by
  have picked : (Term.getField t element codec).Everywhere holds :=
    inv.built rfl (by simpa [children] using ht)
  cases t with
  | field path codec' =>
    cases hvar : path.var with
    | none =>
      rw [Term.codec] at found
      exact everywhere_field (inv.child hvar ht.self found)
    | some var => exact inv.variablePath (by simp [FieldPath.child, hvar])
  | item array var codec' => exact inv.variablePath rfl
  | _ => exact picked

/-- A member of a term is one of its parts, or is read from it. -/
theorem member {name : String} (ht : t.Everywhere holds)
    (h : t.member registry name = some u) : u.Everywhere holds := by
  have read (byCodec : t.readsByCodec = true) : u.Everywhere holds := by
    rw [member_of_readsByCodec byCodec] at h
    split at h
    · cases h
      exact inv.size ht
    · obtain ⟨⟨element, codec⟩, found, rfl⟩ := Option.map_eq_some_iff.mp h
      exact inv.element ht found
  cases t with
  | document fields =>
    obtain ⟨f, hf, rfl⟩ := Option.map_eq_some_iff.mp h
    exact ht.child (List.mem_map_of_mem (List.mem_of_find?_eq_some hf))
  | grouping stage key element predicate distinct =>
    simp only [Term.member] at h
    split at h
    · cases h
      exact ht.child (by simp [children])
    · cases h
  | _ => exact read rfl

end Inherited

end Term

/-! ### Items of arrays -/

/-- What a window leaves to write out has a bound. -/
theorem Window.bounds_ne_of_isPending {w : Window} (h : w.isPending = true) : w.bounds ≠ {} := by
  unfold Window.bounds
  split
  · nofun
  · intro hbounds
    obtain ⟨hskip, hlimit⟩ := Bounds.mk.inj hbounds
    simp [isPending, hlimit] at h
    simp [h] at hskip

namespace Items

open Term (Everywhere Inherited)

variable {registry : Registry} {holds : Term → Prop} (inv : Inherited registry holds)
  {s : Items} {l : Lambda}
include inv

theorem everywhere_windowed (h : s.array.Everywhere holds) : s.windowed.Everywhere holds := by
  unfold windowed
  split
  · exact h
  · rename_i hpending
    split
    · exact inv.const
    · exact Term.everywhere_iff.mpr
        ⟨inv.slice (Window.bounds_ne_of_isPending (by simpa using hpending)),
          by simpa [Term.children] using h⟩

theorem everywhere_mapped (h : s.array.Everywhere holds) (hl : l.body.Everywhere holds) :
    (s.mapped l).Everywhere holds :=
  inv.map (everywhere_windowed inv h) hl

omit inv in
theorem everywhere_ofTerm {t : Term} {site : String} (ht : t.Everywhere holds)
    (h : Items.ofTerm t site = .ok s) : s.array.Everywhere holds := by
  unfold Items.ofTerm at h
  split at h
  · cases h
    unfold ofArray
    split
    · exact ht.child List.mem_cons_self
    · exact ht
  · cases h

theorem everywhere_element {pick : Pick} {site : String} {t : Term}
    (h : s.array.Everywhere holds) (helement : s.element pick site = .ok t) :
    t.Everywhere holds := by
  have position (n : Int) : (Term.position n).Everywhere holds := by
    unfold Term.position
    split
    · exact inv.const
    · exact inv.const
  have picked {array : Term} (harray : array.Everywhere holds) (n : Int) :
      (Term.elemAt array (.position n)).Everywhere holds :=
    inv.built rfl (by simp [Term.children, harray, position])
  cases pick with
  | first | firstOrDefault =>
    simp only [Items.element] at helement
    split at helement
    · split at helement
      · cases helement
        exact picked h _
      · cases helement
    · cases helement
      exact picked (everywhere_windowed inv h) _
  | last | lastOrDefault =>
    cases helement
    exact picked (everywhere_windowed inv h) _
  | single | singleOrDefault => cases helement

/-- Operators on the items of an array pass on what their terms inherit. -/
theorem inherits : SequenceInvariant registry Items Term (Everywhere holds)
    (fun s => s.array.Everywhere holds) (fun _ => Everywhere holds) (Everywhere holds) where
  inner_outer _ ht := ht
  inner_groupKey := .groupKey
  inner_item hs := inv.built rfl (by simpa [Sequence.item, Items.item, Term.children] using hs)
  lambda_element _ hbody := hbody
  closeSort hs := hs
  filter hs hl h := by
    cases h
    exact inv.filter (everywhere_windowed inv hs) hl
  project hs hl h := by
    cases h
    exact everywhere_mapped inv hs hl
  unwind _ _ h := nomatch h
  groupBy _ _ _ h := nomatch h
  distinct hs h := by
    cases h
    exact inv.setOp (List.forall_mem_singleton.mpr (everywhere_windowed inv hs))
  sortBy hs _ h := by
    obtain ⟨key, -, h⟩ := bind_eq_ok.mp h
    cases h
    exact inv.sortArray (everywhere_windowed inv hs)
  thenBy hs _ h := by
    obtain ⟨key, -, h⟩ := bind_eq_ok.mp h
    split at h
    · rename_i input keys _ harray
      cases h
      rw [harray] at hs
      exact inv.sortArray (hs.child List.mem_cons_self)
    · cases h
  skip hs h := by
    cases h
    exact hs
  take hs h := by
    cases h
    exact hs
  ofType hs _ h := by
    simp only [Sequence.ofType, Items.ofType] at h
    split at h
    · cases h
      exact inv.filter (everywhere_windowed inv hs)
        (inv.binary (inv.variablePath rfl) inv.const)
    · cases h
  combine hs ht h := by
    simp only [Sequence.combine, Items.combine] at h
    split at h
    · cases h
      exact inv.setOp (by simp [everywhere_windowed inv hs, ht])
    · cases h
  collect hs h := by
    obtain ⟨rfl, rfl⟩ := BindM.yields_pure.mp h
    exact ⟨hs, rfl⟩
  any := by
    intro s r predicate site hs hl h
    cases h
    unfold Items.any
    cases predicate with
    | some l =>
      exact inv.built rfl (by simpa [Term.children] using everywhere_mapped inv hs (hl l rfl))
    | none => exact inv.binary (inv.size (everywhere_windowed inv hs)) inv.const
  all hs hl h := by
    cases h
    exact inv.built rfl (by simpa [Term.children] using everywhere_mapped inv hs hl)
  contains hs ht h := by
    cases h
    exact inv.built rfl (by simp [Term.children, everywhere_windowed inv hs, ht])
  aggregate := by
    intro s kind selector site c r c' hs hl h
    obtain ⟨rfl, rfl⟩ := BindM.yields_pure.mp h
    refine ⟨?_, rfl⟩
    unfold Items.aggregate
    split
    · exact inv.size (everywhere_windowed inv hs)
    · cases selector with
      | some l =>
        exact inv.built rfl
          (by simpa [Term.children] using everywhere_mapped inv hs (hl l rfl))
      | none => exact inv.built rfl (by simpa [Term.children] using everywhere_windowed inv hs)
  element hs h := by
    obtain ⟨hpicked, rfl⟩ := BindM.yields_ofExcept.mp h
    exact ⟨everywhere_element inv hs hpicked, rfl⟩

end Items

/-! ### Rows of groups -/

namespace Group

open Term (Everywhere Inherited)

variable {registry : Registry} {holds : Term → Prop} (inv : Inherited registry holds)
  {g : Group}

/-- The parts of a group that its aggregates take over. -/
theorem everywhere_parts (h : g.term.Everywhere holds) :
    g.key.Everywhere holds ∧ g.element.Everywhere holds ∧
      ∀ p ∈ g.predicate, p.Everywhere holds := by
  refine ⟨h.child (by simp [term, Term.children]), h.child (by simp [term, Term.children]), ?_⟩
  intro p hp
  exact h.child (by simp [term, Term.children, Option.mem_def.mp hp])

include inv

theorem everywhere_term (key : g.key.Everywhere holds) (element : g.element.Everywhere holds)
    (predicate : ∀ p ∈ g.predicate, p.Everywhere holds) : g.term.Everywhere holds := by
  refine inv.built rfl ?_
  intro u hu
  simp only [term, Term.children, List.mem_append, List.mem_cons, List.not_mem_nil, or_false,
    Option.mem_toList] at hu
  rcases hu with (rfl | rfl) | hu
  · exact key
  · exact element
  · exact predicate u hu

/-- Operators on the rows of a group that give out no names pass on what their terms
inherit. -/
theorem passesOn : PureInvariant registry Group Term (Everywhere holds)
    (fun g => g.term.Everywhere holds) (fun _ => Everywhere holds) (Everywhere holds) where
  inner_outer _ ht := ht
  inner_groupKey := .groupKey
  inner_item hg := (everywhere_parts hg).2.1
  lambda_element _ hbody := hbody
  closeSort hg := hg
  filter := by
    intro g g' l site hg hl h
    cases h
    obtain ⟨hkey, helement, hpredicate⟩ := everywhere_parts hg
    refine everywhere_term inv hkey helement ?_
    intro p hp
    cases hsome : g.predicate with
    | none =>
      simp only [Group.filter, hsome, Option.elim_none, Option.mem_some] at hp
      exact hp ▸ hl
    | some before =>
      simp only [Group.filter, hsome, Option.elim_some, Option.mem_some] at hp
      exact hp ▸ inv.binary (hpredicate before hsome) hl
  project hg hl h := by
    cases h
    obtain ⟨hkey, -, hpredicate⟩ := everywhere_parts hg
    exact everywhere_term inv hkey hl hpredicate
  unwind _ _ h := nomatch h
  groupBy _ _ _ h := nomatch h
  distinct hg h := by
    cases h
    obtain ⟨hkey, helement, hpredicate⟩ := everywhere_parts hg
    exact everywhere_term inv hkey helement hpredicate
  sortBy _ _ h := nomatch h
  thenBy _ _ h := nomatch h
  skip _ h := nomatch h
  take _ h := nomatch h
  ofType _ _ h := nomatch h
  combine _ _ h := nomatch h
  any _ _ h := nomatch h
  all _ _ h := nomatch h
  contains _ _ h := nomatch h

omit inv in
/-- The step gives up, or makes an accumulator of the group, whose source has a property
everywhere. -/
def Accumulates (g : Group) (holds : Term → Prop) (step : BindM Term) : Prop :=
  (∃ site, step = .unsupported site) ∨
    ∃ kind source codec, source.Everywhere holds ∧ step = g.accumulator kind source codec

theorem accumulates_aggregate {kind : Aggregate} {selector : Option Lambda} {site : String}
    (hg : g.term.Everywhere holds) (hl : ∀ l ∈ selector, l.body.Everywhere holds) :
    g.Accumulates holds (g.aggregate kind selector site) := by
  obtain ⟨-, helement, hpredicate⟩ := everywhere_parts hg
  unfold aggregate
  split
  · exact .inl ⟨site, rfl⟩
  · have hvalue : ((selector.map Lambda.body).getD g.element).Everywhere holds := by
      cases selector with
      | none => exact helement
      | some l => exact hl l rfl
    generalize (selector.map Lambda.body).getD g.element = value at hvalue
    have hsource : (aggregated kind value).Everywhere holds := by
      unfold aggregated
      split
      · exact inv.const
      · exact inv.const
      · exact hvalue
    have hneutral : (neutral kind (aggregated kind value)).Everywhere holds := by
      unfold neutral
      split <;> exact inv.const
    refine .inr ⟨_, _, _, ?_, rfl⟩
    split
    · rename_i predicate hsome
      exact inv.built rfl
        (by simp [Term.children, hpredicate predicate hsome, hsource, hneutral])
    · exact hsource

omit inv in
theorem accumulates_collect {site : String} (hg : g.term.Everywhere holds) :
    g.Accumulates holds (g.collect site) := by
  unfold collect
  split
  · exact .inl ⟨site, rfl⟩
  · exact .inr ⟨_, _, _, (everywhere_parts hg).2.1, rfl⟩

omit inv in
theorem accumulates_pick {pick : Pick} {site : String} (hg : g.term.Everywhere holds) :
    g.Accumulates holds (g.pick pick site) := by
  unfold Group.pick
  split
  · exact .inl ⟨site, rfl⟩
  · split
    · exact .inr ⟨_, _, _, (everywhere_parts hg).2.1, rfl⟩
    · exact .inl ⟨site, rfl⟩

variable (accumulators : ∀ a : Accumulator, holds a.term)
include accumulators

omit inv in
theorem Accumulates.everywhere {step : BindM Term} (h : g.Accumulates holds step)
    {c c' : Context} {t : Term} (hstep : step.Yields c t c') :
    t.Everywhere holds ∧ c'.scopes = c.scopes := by
  rcases h with ⟨site, rfl⟩ | ⟨kind, source, codec, hsource, rfl⟩
  · exact absurd hstep BindM.not_yields_unsupported
  · simp only [accumulator, BindM.yields_bind, BindM.yields_mint, BindM.yields_pure] at hstep
    obtain ⟨name, c₁, ⟨rfl, rfl⟩, rfl, rfl⟩ := hstep
    refine ⟨Term.everywhere_iff.mpr ⟨accumulators ⟨g.stage, kind, source, _, codec⟩, ?_⟩, rfl⟩
    simpa [Term.children] using hsource

/-- So do those that give out names, where accumulators have the property. -/
theorem inherits : SequenceInvariant registry Group Term (Everywhere holds)
    (fun g => g.term.Everywhere holds) (fun _ => Everywhere holds) (Everywhere holds) where
  toPureInvariant := passesOn inv
  collect := by
    intro g c a c' site hg h
    simp only [Sequence.collect, BindM.yields_bind, BindM.yields_pure] at h
    obtain ⟨t, c₁, h, rfl, rfl⟩ := h
    exact (accumulates_collect hg).everywhere accumulators h
  aggregate hg hl h := (accumulates_aggregate inv hg hl).everywhere accumulators h
  element hg h := (accumulates_pick hg).everywhere accumulators h

end Group

/-! ### Expressions -/

namespace Term

namespace Inherited

variable {registry : Registry} {holds : Term → Prop} (inv : Inherited registry holds)
  (accumulators : ∀ a : Accumulator, holds a.term)
include inv accumulators

theorem applyOperator {source : Term} {op : Operator} {call : Call Argument} {text : String}
    (hsource : source.Everywhere holds)
    (arguments : ∀ a ∈ call.arguments, a.step.Keeps (Everywhere holds)) {c c' : Context}
    (hc : c.Every (Everywhere holds)) {t : Term}
    (h : (source.applyOperator registry op call text).Yields c t c') :
    t.Everywhere holds ∧ c'.scopes = c.scopes := by
  unfold Term.applyOperator at h
  split at h
  · rename_i stage key element predicate distinct
    simp only [BindM.yields_bind, BindM.yields_pure] at h
    obtain ⟨a, c₁, ha, rfl, rfl⟩ := h
    have hgroup : (Group.term ⟨stage, key, element, predicate, distinct⟩).Everywhere holds :=
      hsource
    obtain ⟨hholds, hscopes⟩ := Operator.apply_keeps (Group.inherits inv accumulators)
      (fun a ha => ⟨arguments a ha, fun _ _ => arguments a ha⟩) hgroup hc ha
    refine ⟨?_, hscopes⟩
    cases a with
    | sequence g => exact hholds
    | terminal t => exact hholds
  · split at h
    · simp only [BindM.yields_bind, BindM.yields_ofExcept, BindM.yields_pure] at h
      obtain ⟨s, c₁, ⟨hs, rfl⟩, a, c₂, ha, rfl, rfl⟩ := h
      obtain ⟨hholds, hscopes⟩ := Operator.apply_keeps (Items.inherits inv)
        (fun a ha => ⟨arguments a ha, fun _ _ => arguments a ha⟩)
        (Items.everywhere_ofTerm hsource hs) hc ha
      refine ⟨?_, hscopes⟩
      cases a with
      | sequence s => exact Items.everywhere_windowed inv hholds
      | terminal t => exact hholds
    · exact absurd h BindM.not_yields_unsupported

/-- **What bound terms inherit holds of every part of them.** -/
theorem invariant : TermInvariant registry fun _ : Unit => Everywhere holds where
  const _ := inv.const
  member ht _ h := inv.member ht h
  foldUnary := inv.foldUnary
  foldBinary := inv.foldBinary
  foldCond := inv.foldCond
  document distinct _ parts := inv.document distinct parts
  elemAt _ harray hposition := inv.built rfl (by simp [children, harray, hposition])
  applyOperator hsource arguments hc h :=
    inv.applyOperator accumulators hsource (fun a ha => arguments a ha ()) hc h

end Inherited

end Term

end QueryPipeline
