import QueryPipeline.Proofs.Binding.Terms
import QueryPipeline.Proofs.Grouping.Placement
import QueryPipeline.Proofs.Term.Names

/-!
Names in bound queries. If no registered member is stored under a name with a sigil, and a
query gives no member of a record and reads no member of an untyped value by such a name,
then no name has one in the pipeline that the query is bound to. Sub-queries name their items
as the server wants it, whatever the parameters of their lambdas are called.
-/

namespace QueryPipeline

open Term (SigilFree)

/-! ### Items of arrays -/

/-- Items are sorted by paths of names without sigils. -/
theorem Term.SigilFree.sortKey {l : Lambda} {direction : Direction} {site : String}
    {key : ItemKey} (hl : l.body.SigilFree) (h : Items.sortKey l direction site = .ok key) :
    ∀ path ∈ key.path, hasNoSigil path := by
  unfold Items.sortKey at h
  split at h
  · split at h
    · cases h
      nofun
    · cases h
  · rename_i path codec hbody
    split at h
    · cases h
      intro text htext
      obtain rfl := Option.some.inj htext
      have names := hl.own
      rw [hbody] at names
      exact FieldPath.hasNoSigil_dotted names.1
    · cases h
  · cases h

namespace Items

/-- The array that the items are taken from has no sigils, nor has the codec of the items. -/
structure SigilFree (s : Items) : Prop where
  array : s.array.SigilFree
  codec : s.codec.isSigilFree = true

/-- A lambda over the items, as it is written: its variable has a name for the server. -/
def WritesLambda (l : Lambda) : Prop := isServerName l.var ∧ l.body.SigilFree

namespace SigilFree

variable {s : Items} {l : Lambda}

theorem windowed (h : s.SigilFree) : s.windowed.SigilFree := by
  unfold Items.windowed
  split
  · exact h.array
  · split
    · exact .const h.codec
    · exact .of_parts trivial (by simpa [Term.children] using h.array)

theorem mapped (h : s.SigilFree) (hl : WritesLambda l) : (s.mapped l).SigilFree :=
  .map hl.1 h.windowed hl.2

theorem withArray {array : Term} (h : s.SigilFree) (harray : array.SigilFree) :
    (s.withArray array).SigilFree :=
  ⟨harray, h.codec⟩

theorem size (h : s.SigilFree) : (Term.size s.windowed).SigilFree :=
  .of_parts trivial (by simpa [Term.children] using h.windowed)

theorem ofTerm {t : Term} {site : String} (ht : t.SigilFree)
    (h : Items.ofTerm t site = .ok s) : s.SigilFree := by
  unfold Items.ofTerm at h
  split at h
  · rename_i codec hitem
    cases h
    have hcodec := Codec.isSigilFree_item ht.codec hitem
    unfold ofArray
    split
    · exact ⟨ht.child List.mem_cons_self, hcodec⟩
    · exact ⟨ht, hcodec⟩
  · cases h

theorem element {pick : Pick} {site : String} {t : Term} (h : s.SigilFree)
    (helement : s.element pick site = .ok t) : t.SigilFree := by
  have position (n : Int) : (Term.position n).SigilFree := by
    unfold Term.position
    split
    · exact .const rfl
    · exact .const rfl
  have picked {array : Term} (harray : array.SigilFree) (n : Int) :
      (Term.elemAt array (.position n)).SigilFree :=
    .of_parts trivial (by simp [Term.children, harray, position])
  cases pick with
  | first | firstOrDefault =>
    simp only [Items.element] at helement
    split at helement
    · split at helement
      · cases helement
        exact picked h.array _
      · cases helement
    · cases helement
      exact picked h.windowed _
  | last | lastOrDefault =>
    cases helement
    exact picked h.windowed _
  | single | singleOrDefault => cases helement

theorem aggregate {kind : Aggregate} {selector : Option Lambda} (h : s.SigilFree)
    (hl : ∀ l ∈ selector, WritesLambda l) : (s.aggregate kind selector).SigilFree := by
  have reduced {op : ReduceOp} {input : Term} {codec : Codec} (hinput : input.SigilFree)
      (hcodec : codec.isSigilFree) :
      (Term.reduce op input (if op = .avg then .double else codec)).SigilFree := by
    refine .of_parts ?_ (by simpa [Term.children] using hinput)
    show Codec.isSigilFree _ = true
    split
    · rfl
    · exact hcodec
  unfold Items.aggregate
  split
  · exact h.size
  · cases selector with
    | some l => exact reduced (h.mapped (hl l rfl)) (hl l rfl).2.codec
    | none => exact reduced h.windowed h.codec

end SigilFree

/-- Operators on the items of an array add no sigils. -/
theorem keepsSigilFree {registry : Registry} (free : registry.isSigilFree) :
    SequenceInvariant registry Items Term Term.SigilFree Items.SigilFree
      (fun _ => Term.SigilFree) Term.SigilFree (fun _ => WritesLambda) where
  inner_outer _ ht := ht
  inner_groupKey := .groupKey
  inner_item hs := .item hs.codec hs.array
  lambda_element hvar hbody := ⟨hvar ▸ isServerName_serverVar _, hbody⟩
  closeSort hs := ⟨hs.array, hs.codec⟩
  filter hs hl h := by
    cases h
    exact hs.withArray (.filter hl.1 hs.windowed hl.2)
  project hs hl h := by
    cases h
    exact ⟨hs.mapped hl, hl.2.codec⟩
  unwind _ _ h := nomatch h
  groupBy _ _ _ h := nomatch h
  distinct hs h := by
    cases h
    exact hs.withArray (.of_parts trivial (by simpa [Term.children] using hs.windowed))
  sortBy hs hl h := by
    obtain ⟨key, hkey, h⟩ := bind_eq_ok.mp h
    cases h
    have named := hl.2.sortKey hkey
    exact ⟨.sortArray (List.forall_mem_singleton.mpr named) hs.windowed, hs.codec⟩
  thenBy hs hl h := by
    obtain ⟨key, hkey, h⟩ := bind_eq_ok.mp h
    split at h
    · rename_i input keys _ harray
      cases h
      have sorted := hs.array
      rw [harray] at sorted
      have named : ∀ k ∈ keys ++ [key], ∀ path ∈ k.path, hasNoSigil path :=
        List.forall_mem_append.mpr
          ⟨sorted.own, List.forall_mem_singleton.mpr (hl.2.sortKey hkey)⟩
      exact ⟨.sortArray named (sorted.child List.mem_cons_self), hs.codec⟩
    · cases h
  skip hs h := by
    cases h
    exact ⟨hs.array, hs.codec⟩
  take hs h := by
    cases h
    exact ⟨hs.array, hs.codec⟩
  ofType hs hclass h := by
    simp only [Sequence.ofType, Items.ofType] at h
    split at h
    · cases h
      have classVariable : isServerName classVar = true := by decide
      refine ⟨.filter classVariable hs.windowed (.classTest (by simp [FieldPath.ofVar])), ?_⟩
      simpa only [Codec.isSigilFree] using registry.isSigilFree_class free hclass
    · cases h
  combine hs ht h := by
    simp only [Sequence.combine, Items.combine] at h
    split at h
    · cases h
      exact hs.withArray (.of_parts trivial (by simp [Term.children, hs.windowed, ht]))
    · cases h
  collect hs h := by
    obtain ⟨rfl, rfl⟩ := BindM.yields_pure.mp h
    exact ⟨hs, rfl⟩
  any := by
    intro s r predicate site hs hl h
    cases h
    unfold Items.any
    cases predicate with
    | some l => exact .of_parts trivial (by simpa [Term.children] using hs.mapped (hl l rfl))
    | none => exact .binary hs.size (.const rfl)
  all hs hl h := by
    cases h
    exact .of_parts trivial (by simpa [Term.children] using hs.mapped hl)
  contains hs ht h := by
    cases h
    exact .of_parts trivial (by simp [Term.children, hs.windowed, ht])
  aggregate hs hl h := by
    obtain ⟨rfl, rfl⟩ := BindM.yields_pure.mp h
    exact ⟨hs.aggregate hl, rfl⟩
  element hs h := by
    obtain ⟨hpicked, rfl⟩ := BindM.yields_ofExcept.mp h
    exact ⟨hs.element hpicked, rfl⟩

end Items

/-! ### Rows of groups -/

namespace Group

variable {g : Group}

/-- The parts of a group that its aggregates take over. -/
theorem sigilFree_parts (h : g.term.SigilFree) :
    g.key.SigilFree ∧ g.element.SigilFree ∧ ∀ p ∈ g.predicate, p.SigilFree := by
  refine ⟨h.child (by simp [term, Term.children]), h.child (by simp [term, Term.children]), ?_⟩
  intro p hp
  exact h.child (by simp [term, Term.children, Option.mem_def.mp hp])

theorem sigilFree_term (key : g.key.SigilFree) (element : g.element.SigilFree)
    (predicate : ∀ p ∈ g.predicate, p.SigilFree) : g.term.SigilFree := by
  refine .of_parts trivial ?_
  intro u hu
  simp only [term, Term.children, List.mem_append, List.mem_cons, List.not_mem_nil, or_false,
    Option.mem_toList] at hu
  rcases hu with (rfl | rfl) | hu
  · exact key
  · exact element
  · exact predicate u hu

theorem sigilFree_accumulator {kind : AccumulatorKind} {source : Term} {codec : Codec}
    {c c' : Context} {t : Term} (hsource : source.SigilFree) (hcodec : codec.isSigilFree)
    (h : (g.accumulator kind source codec).Yields c t c') :
    t.SigilFree ∧ c'.scopes = c.scopes := by
  simp only [accumulator, BindM.yields_bind, BindM.yields_mint, BindM.yields_pure] at h
  obtain ⟨name, c₁, ⟨rfl, rfl⟩, rfl, rfl⟩ := h
  exact ⟨.accumulator (hasNoSigil_accumulatorName _) hcodec hsource, rfl⟩

theorem sigilFree_aggregate {kind : Aggregate} {selector : Option Lambda} {site : String}
    {c c' : Context} {t : Term} (hg : g.term.SigilFree)
    (hl : ∀ l ∈ selector, l.body.SigilFree)
    (h : (g.aggregate kind selector site).Yields c t c') :
    t.SigilFree ∧ c'.scopes = c.scopes := by
  obtain ⟨-, helement, hpredicate⟩ := sigilFree_parts hg
  unfold aggregate at h
  split at h
  · exact absurd h BindM.not_yields_unsupported
  · have hvalue : ((selector.map Lambda.body).getD g.element).SigilFree := by
      cases selector with
      | none => exact helement
      | some l => exact hl l rfl
    generalize (selector.map Lambda.body).getD g.element = value at h hvalue
    have hsource : (aggregated kind value).SigilFree := by
      unfold aggregated
      split
      · exact .const rfl
      · exact .const rfl
      · exact hvalue
    have hneutral : (neutral kind (aggregated kind value)).SigilFree := by
      unfold neutral
      split
      · exact .const rfl
      · exact .const rfl
      · exact .const rfl
      all_goals exact .const hsource.codec
    have hcodec : (aggregateCodec kind value).isSigilFree = true := by
      cases kind with
      | count | longCount | average => rfl
      | sum | min | max => exact hvalue.codec
    refine sigilFree_accumulator ?_ hcodec h
    split
    · rename_i predicate hsome
      exact .of_parts trivial
        (by simp [Term.children, hpredicate predicate hsome, hsource, hneutral])
    · exact hsource

/-- Operators on the rows of a group add no sigils. -/
theorem keepsSigilFree (registry : Registry) :
    SequenceInvariant registry Group Term Term.SigilFree (fun g => g.term.SigilFree)
      (fun _ => Term.SigilFree) Term.SigilFree where
  inner_outer _ ht := ht
  inner_groupKey := .groupKey
  inner_item hg := (sigilFree_parts hg).2.1
  lambda_element _ hbody := hbody
  closeSort hg := hg
  filter := by
    intro g g' l site hg hl h
    cases h
    obtain ⟨hkey, helement, hpredicate⟩ := sigilFree_parts hg
    refine sigilFree_term hkey helement ?_
    intro p hp
    cases hsome : g.predicate with
    | none =>
      simp only [Group.filter, hsome, Option.elim_none, Option.mem_some] at hp
      exact hp ▸ hl
    | some before =>
      simp only [Group.filter, hsome, Option.elim_some, Option.mem_some] at hp
      exact hp ▸ .binary (hpredicate before hsome) hl
  project hg hl h := by
    cases h
    obtain ⟨hkey, -, hpredicate⟩ := sigilFree_parts hg
    exact sigilFree_term hkey hl hpredicate
  unwind _ _ h := nomatch h
  groupBy _ _ _ h := nomatch h
  distinct hg h := by
    cases h
    obtain ⟨hkey, helement, hpredicate⟩ := sigilFree_parts hg
    exact sigilFree_term hkey helement hpredicate
  sortBy _ _ h := nomatch h
  thenBy _ _ h := nomatch h
  skip _ h := nomatch h
  take _ h := nomatch h
  ofType _ _ h := nomatch h
  combine _ _ h := nomatch h
  collect := by
    intro g c a c' site hg h
    simp only [Sequence.collect, BindM.yields_bind, BindM.yields_pure] at h
    obtain ⟨t, c₁, h, rfl, rfl⟩ := h
    unfold Group.collect at h
    split at h
    · exact absurd h BindM.not_yields_unsupported
    · have helement := (sigilFree_parts hg).2.1
      refine sigilFree_accumulator helement ?_ h
      simpa only [Codec.isSigilFree] using helement.codec
  any _ _ h := nomatch h
  all _ _ h := nomatch h
  contains _ _ h := nomatch h
  aggregate hg hl h := sigilFree_aggregate hg hl h
  element := by
    intro g pick site c r c' hg h
    simp only [Sequence.element, Group.pick] at h
    split at h
    · exact absurd h BindM.not_yields_unsupported
    · split at h
      · have helement := (sigilFree_parts hg).2.1
        exact sigilFree_accumulator helement helement.codec h
      · exact absurd h BindM.not_yields_unsupported

end Group

/-! ### Expressions -/

namespace Term

theorem SigilFree.applyOperator {registry : Registry} (free : registry.isSigilFree)
    {source : Term} {op : Operator} {call : Call Argument} {text : String}
    (hsource : source.SigilFree) (arguments : ∀ a ∈ call.arguments, a.step.Keeps SigilFree)
    {c c' : Context} (hc : c.Every SigilFree) {t : Term}
    (h : (source.applyOperator registry op call text).Yields c t c') :
    t.SigilFree ∧ c'.scopes = c.scopes := by
  unfold Term.applyOperator at h
  split at h
  · rename_i stage key element predicate distinct
    simp only [BindM.yields_bind, BindM.yields_pure] at h
    obtain ⟨a, c₁, ha, rfl, rfl⟩ := h
    have hgroup : (Group.term ⟨stage, key, element, predicate, distinct⟩).SigilFree := hsource
    obtain ⟨hholds, hscopes⟩ := Operator.apply_keeps (Group.keepsSigilFree registry)
      (fun a ha => ⟨arguments a ha, fun _ _ => arguments a ha⟩) hgroup hc ha
    refine ⟨?_, hscopes⟩
    cases a with
    | sequence g => exact hholds
    | terminal t => exact hholds
  · split at h
    · simp only [BindM.yields_bind, BindM.yields_ofExcept, BindM.yields_pure] at h
      obtain ⟨s, c₁, ⟨hs, rfl⟩, a, c₂, ha, rfl, rfl⟩ := h
      obtain ⟨hholds, hscopes⟩ := Operator.apply_keeps (Items.keepsSigilFree free)
        (fun a ha => ⟨arguments a ha, fun _ _ => arguments a ha⟩)
        (Items.SigilFree.ofTerm hsource hs) hc ha
      refine ⟨?_, hscopes⟩
      cases a with
      | sequence s => exact hholds.windowed
      | terminal t => exact hholds
    · exact absurd h BindM.not_yields_unsupported

/-- **A bound expression has no sigils** where only names without one are allowed. -/
theorem sigilFree_invariant {registry : Registry} (free : registry.isSigilFree) :
    TermInvariant registry (fun _ : Unit => SigilFree) hasNoSigil where
  const hcodec := .const (registry.isSigilFree_codec free hcodec)
  member ht hname h := ht.member free hname h
  foldUnary := .foldUnary
  foldBinary := .foldBinary
  foldCond := .foldCond
  document _ := .document
  elemAt _ harray hposition := .of_parts trivial (by simp [children, harray, hposition])
  applyOperator hsource arguments hc h :=
    hsource.applyOperator free (fun a ha => arguments a ha ()) hc h

end Term

/-! ### Rows of a pipeline -/

/-- The names that a stage brings along itself, apart from its terms, have no sigil: those of
the values that a group computes, and those on the path that an array is flattened at, which
leads from the row. -/
def Stage.OwnNamesFree : Stage → Prop
  | .group _ accumulators => ∀ a ∈ accumulators, hasNoSigil a.output
  | .unwind path => path.var = none ∧ ∀ name ∈ path.segments, hasNoSigil name
  | _ => True

/-- No name in the stage has a sigil. -/
structure Stage.SigilFree (s : Stage) : Prop where
  own : s.OwnNamesFree
  terms : ∀ t ∈ s.terms, t.SigilFree

namespace Pipeline

/-- No name in the pipeline has a sigil. -/
structure SigilFree (p : Pipeline) : Prop where
  stages : ∀ s ∈ p.stages, s.SigilFree
  projector : p.projector.SigilFree
  result : ∀ r ∈ p.result, r.source.SigilFree

namespace SigilFree

variable {p p' : Pipeline} {s : Stage}

/-- Paging has no names. -/
theorem of_bounds {b : Bounds} (hs : s ∈ b.stages) : s.SigilFree := by
  simp only [Bounds.stages, List.mem_append, Option.mem_toList, Option.map_eq_some_iff] at hs
  rcases hs with ⟨n, -, rfl⟩ | ⟨n, -, rfl⟩
  · exact ⟨trivial, by simp [Stage.terms]⟩
  · exact ⟨trivial, by simp [Stage.terms]⟩

theorem flush (h : p.SigilFree) : p.flush.SigilFree := by
  refine ⟨?_, h.projector, h.result⟩
  intro s hs
  rcases List.mem_append.mp hs with hs | hs
  · exact h.stages s hs
  · exact of_bounds hs

/-- Adding a stage behind the paging. -/
theorem write (h : p.SigilFree) (hs : s.SigilFree) : (p.flush.push s).SigilFree := by
  refine ⟨?_, h.projector, h.result⟩
  intro s' hmem
  rcases List.mem_append.mp hmem with hmem | hmem
  · exact h.flush.stages s' hmem
  · exact List.mem_singleton.mp hmem ▸ hs

theorem withProjector {projector : Term} (h : p.SigilFree) (hprojector : projector.SigilFree) :
    ({ p with projector } : Pipeline).SigilFree :=
  ⟨h.stages, hprojector, h.result⟩

theorem withResult {kind : TerminalKind} {source : Term} (h : p.SigilFree)
    (hsource : source.SigilFree) : (p.withResult kind source).SigilFree := by
  refine ⟨h.stages, h.projector, ?_⟩
  intro r hr
  obtain rfl := Option.some.inj hr
  exact hsource

theorem filter {predicate : Term} (h : p.SigilFree) (hpredicate : predicate.SigilFree) :
    (p.filter predicate).SigilFree :=
  h.write ⟨trivial, by simpa [Stage.terms] using hpredicate⟩

theorem openGroup {id projector : Term} (h : p.SigilFree) (hid : id.SigilFree)
    (hprojector : projector.SigilFree) :
    ({ (p.openGroup id).1 with projector } : Pipeline).SigilFree :=
  (h.write ⟨by simp [Stage.OwnNamesFree], by simpa [Stage.terms] using hid⟩).withProjector
    hprojector

theorem groupBy {key element : Term} {site : String} (h : p.SigilFree)
    (hkey : key.SigilFree) (helement : element.SigilFree)
    (hgroup : p.groupBy key element site = .ok p') : p'.SigilFree := by
  unfold Pipeline.groupBy at hgroup
  split at hgroup
  · cases hgroup
  · cases hgroup
    refine h.openGroup hkey (.of_parts trivial ?_)
    simp [Term.children, hkey.asGroupKey, helement]

theorem distinct {site : String} (h : p.SigilFree) (hdistinct : p.distinct site = .ok p') :
    p'.SigilFree := by
  unfold Pipeline.distinct at hdistinct
  split at hdistinct
  · cases hdistinct
  · cases hdistinct
    exact h.openGroup h.projector h.projector.asGroupKey

theorem sortBy {key : RowKey} (h : p.SigilFree) (hkey : key.key.SigilFree) :
    ({ p.flush.push (.sort [key]) with sortOpen := true } : Pipeline).SigilFree :=
  have sorted : (p.flush.push (.sort [key])).SigilFree :=
    h.write ⟨trivial, by simpa [Stage.terms] using hkey⟩
  ⟨sorted.stages, sorted.projector, sorted.result⟩

theorem extendSort {key : RowKey} (h : p.SigilFree) (hkey : key.key.SigilFree)
    (hextend : p.extendSort? key = some p') : p'.SigilFree := by
  unfold extendSort? at hextend
  split at hextend
  · rename_i keys hlast
    cases hextend
    have sorted : (Stage.sort keys).SigilFree := h.stages _ (List.mem_of_getLast? hlast)
    refine ⟨?_, h.projector, h.result⟩
    intro s hs
    rcases List.mem_append.mp hs with hs | hs
    · exact h.stages s (List.dropLast_subset _ hs)
    · obtain rfl := List.mem_singleton.mp hs
      refine ⟨trivial, ?_⟩
      simp only [Stage.terms, List.map_append, List.forall_mem_append, List.map_cons,
        List.map_nil, List.forall_mem_singleton]
      exact ⟨sorted.terms, hkey⟩
  · cases hextend

/-- The documents of a class are told apart by an element without a sigil. -/
theorem ofType {registry : Registry} (free : registry.isSigilFree) {name site : String}
    {m : ClassMap} (h : p.SigilFree) (hclass : registry.class? name = some m)
    (hof : p.ofType m site = .ok p') : p'.SigilFree := by
  unfold Pipeline.ofType at hof
  split at hof
  · rename_i mark path codec _ hprojector
    cases hof
    have hpath := h.projector.own
    rw [hprojector] at hpath
    refine (h.filter (.classTest hpath.1)).withProjector (.field hpath.1 ?_)
    simpa only [Codec.isSigilFree] using registry.isSigilFree_class free hclass
  · cases hof

theorem unwind {collection item : Term} {site : String} (h : p.SigilFree)
    (hcollection : collection.SigilFree)
    (hunwind : p.unwind collection site = .ok (p', item)) : p'.SigilFree ∧ item.SigilFree := by
  unfold Pipeline.unwind at hunwind
  split at hunwind
  · rename_i path codec
    split at hunwind
    · rename_i ofRow
      simp only [FieldPath.isRowField, Bool.and_eq_true, Option.isNone_iff_eq_none] at ofRow
      split at hunwind
      · cases hunwind
        obtain ⟨names, hcodec⟩ := hcollection.own
        refine ⟨h.write ⟨⟨ofRow.1, names⟩, nofun⟩, .field names ?_⟩
        simpa only [Codec.isSigilFree] using hcodec
      · cases hunwind
      · cases hunwind
    · cases hunwind
  · cases hunwind

theorem any (h : p.SigilFree) : p.any.SigilFree :=
  withResult (p := { p with paging := p.paging.take 1 }) ⟨h.stages, h.projector, h.result⟩
    (.const rfl)

theorem anyMatching {predicate : Option Lambda} (h : p.SigilFree)
    (hl : ∀ l ∈ predicate, l.body.SigilFree) :
    (predicate.elim p fun l => p.filter l.body).any.SigilFree := by
  cases predicate with
  | none => exact h.any
  | some l => exact (h.filter (hl l rfl)).any

theorem aggregate {kind : Aggregate} {source : Term} (h : p.SigilFree)
    (hsource : source.SigilFree) : (p.aggregate kind source).SigilFree := by
  cases kind with
  | count | longCount => exact h.withResult (.const rfl)
  | _ => exact h.withResult hsource

theorem element {pick : Pick} (h : p.SigilFree) : (p.element pick).SigilFree :=
  withResult (p := { p with paging := (pick.rowsNeeded?).elim p.paging p.paging.take })
    ⟨h.stages, h.projector, h.result⟩ h.projector

end SigilFree

/-- Operators on the rows of a pipeline add no sigils. -/
theorem keepsSigilFree {registry : Registry} (free : registry.isSigilFree) :
    SequenceInvariant registry Pipeline Pipeline Term.SigilFree Pipeline.SigilFree
      (fun _ => Term.SigilFree) Pipeline.SigilFree where
  inner_outer _ ht := ht
  inner_groupKey := .groupKey
  inner_item hp := hp.projector
  lambda_element _ hbody := hbody
  closeSort hp := ⟨hp.stages, hp.projector, hp.result⟩
  filter hp hl h := by
    cases h
    exact hp.filter hl
  project hp hl h := by
    cases h
    exact hp.withProjector hl
  unwind hp hl h := ⟨(hp.unwind hl h).1, (hp.unwind hl h).2, fun _ hu => hu, fun _ hl => hl⟩
  groupBy := by
    intro p p' key element site hp hkey helement h
    refine ⟨hp.groupBy hkey ?_ h, fun _ hl => hl⟩
    cases element with
    | none => exact hp.projector
    | some l => exact helement l rfl
  distinct hp h := hp.distinct h
  sortBy hp hl h := by
    cases h
    exact hp.sortBy hl
  thenBy hp hl h := by
    simp only [Sequence.thenBy] at h
    split at h
    · rename_i hextend
      cases h
      exact hp.extendSort hl hextend
    · cases h
  skip hp h := by
    cases h
    exact ⟨hp.stages, hp.projector, hp.result⟩
  take hp h := by
    cases h
    exact ⟨hp.stages, hp.projector, hp.result⟩
  ofType hp hclass h := hp.ofType free hclass h
  combine _ _ h := nomatch h
  collect hp h := by
    obtain ⟨rfl, rfl⟩ := BindM.yields_pure.mp h
    exact ⟨hp, rfl⟩
  any hp hl h := by
    cases h
    exact hp.anyMatching hl
  all hp hl h := by
    cases h
    exact hp.withResult hl
  contains hp ht h := by
    cases h
    refine hp.anyMatching ?_
    intro l hl
    obtain rfl := Option.some.inj hl
    exact hp.projector.foldBinary ht
  aggregate := by
    intro p kind selector site c r c' hp hl h
    obtain ⟨rfl, rfl⟩ := BindM.yields_pure.mp h
    refine ⟨hp.aggregate ?_, rfl⟩
    cases selector with
    | none => exact hp.projector
    | some l => exact hl l rfl
  element hp h := by
    obtain ⟨rfl, rfl⟩ := BindM.yields_pure.mp h
    exact ⟨hp.element, rfl⟩

end Pipeline

/-- **A bound query has no sigils** if no registered member has one and only names without
one are given to the members of records and read from untyped values. -/
theorem Query.bind_sigilFree {registry : Registry} (free : registry.isSigilFree) {q : Query}
    (allowed : q.NamesAllowed hasNoSigil registry) {p : Pipeline} {c : Context}
    (h : (q.bind registry).Yields {} p c) : p.SigilFree := by
  have keeps := Expr.bindArgumentsAllowing_keeps (Term.sigilFree_invariant free)
  have bound : (q.bindAllowing hasNoSigil registry).Yields {} p c := allowed.trans h
  refine bindAllowing_keeps (Pipeline.keepsSigilFree free) (fun _ hp => hp) ?_ ?_ bound
  · intro clause a ha
    exact ⟨keeps clause a ha (), fun _ _ => keeps clause a ha ()⟩
  · intro codec hcodec
    exact ⟨nofun, .field nofun (registry.isSigilFree_codec free hcodec), nofun⟩

end QueryPipeline
