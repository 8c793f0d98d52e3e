import QueryPipeline.Proofs.Binding.Terms
import QueryPipeline.Proofs.Term.Children

/-!
Arrays in bound terms. Operators on arrays are bound only where the codec of their operand
says that it is one, so in every term that binding builds the operands that have to be
arrays are stored as arrays.
-/

namespace QueryPipeline

namespace Term

/-- The parts of a term that have to be arrays. -/
def arrayOperands : Term → List Term
  | .filter input _ _ | .map input _ _ | .slice input _ | .reduce _ input _
  | .sortArray input _ | .size input => [input]
  | .elemAt array _ | .contained _ array => [array]
  | .setOp _ arguments => arguments
  | _ => []

/-- In the term and below it, what has to be an array is stored as one. -/
def ArraysTyped (t : Term) : Prop :=
  ∀ u ∈ t.subterms, ∀ array ∈ u.arrayOperands, array.codec.isArray = true

variable {t u v w : Term}

theorem arraysTyped_iff : t.ArraysTyped ↔
    (∀ array ∈ t.arrayOperands, array.codec.isArray = true) ∧
      ∀ u ∈ t.children, u.ArraysTyped := by
  constructor
  · intro h
    exact ⟨h t (mem_subterms_self t), fun u hu v hv => h v (mem_subterms_of_child hu hv)⟩
  · rintro ⟨own, parts⟩ v hv
    rcases mem_subterms_cases hv with rfl | ⟨u, hu, hv⟩
    · exact own
    · exact parts u hu v hv

namespace ArraysTyped

theorem child (h : t.ArraysTyped) (hu : u ∈ t.children) : u.ArraysTyped :=
  (arraysTyped_iff.mp h).2 u hu

theorem operand (h : t.ArraysTyped) (hu : u ∈ t.arrayOperands) : u.codec.isArray = true :=
  (arraysTyped_iff.mp h).1 u hu

theorem const {v : Value} {codec : Codec} : ArraysTyped (.const v codec) :=
  arraysTyped_iff.mpr ⟨nofun, nofun⟩

theorem field {path : FieldPath} {codec : Codec} : ArraysTyped (.field path codec) :=
  arraysTyped_iff.mpr ⟨nofun, nofun⟩

/-- A term that needs no arrays. -/
theorem of_parts (none : t.arrayOperands = []) (parts : ∀ u ∈ t.children, u.ArraysTyped) :
    t.ArraysTyped := by
  refine arraysTyped_iff.mpr ⟨?_, parts⟩
  rw [none]
  nofun

/-- A term of an array and other parts. -/
theorem of_array (operands : t.arrayOperands = [u]) (isArray : u.codec.isArray = true)
    (parts : ∀ v ∈ t.children, v.ArraysTyped) : t.ArraysTyped := by
  refine arraysTyped_iff.mpr ⟨?_, parts⟩
  rw [operands]
  simpa using isArray

theorem filter {var : String} (isArray : u.codec.isArray = true) (hu : u.ArraysTyped)
    (hv : v.ArraysTyped) : (Term.filter u var v).ArraysTyped :=
  .of_array rfl isArray (by simp [children, hu, hv])

theorem sortArray {keys : List ItemKey} (isArray : u.codec.isArray = true)
    (hu : u.ArraysTyped) : (Term.sortArray u keys).ArraysTyped :=
  .of_array rfl isArray (by simp [children, hu])

theorem size (isArray : u.codec.isArray = true) (hu : u.ArraysTyped) :
    (Term.size u).ArraysTyped :=
  .of_array rfl isArray (by simp [children, hu])

theorem setOp {op : SetOp} {arguments : List Term}
    (isArray : ∀ u ∈ arguments, u.codec.isArray = true)
    (typed : ∀ u ∈ arguments, u.ArraysTyped) : (Term.setOp op arguments).ArraysTyped :=
  arraysTyped_iff.mpr ⟨isArray, typed⟩

/-- The test of a document's class needs no arrays. -/
theorem classTest {path : FieldPath} {mark : String} :
    ArraysTyped (.binary .eq (.field path .string) (.string mark)) :=
  .of_parts rfl (by simp [children, Term.string, field, const])

theorem foldBinary {op : BinaryOp} (hu : u.ArraysTyped) (hv : v.ArraysTyped) :
    (Term.foldBinary op u v).ArraysTyped := by
  have built : (Term.binary op u v).ArraysTyped :=
    .of_parts rfl (by simp [children, hu, hv])
  unfold Term.foldBinary
  split
  · split
    · exact const
    · exact built
  · exact built

theorem foldUnary {op : UnaryOp} (hu : u.ArraysTyped) : (Term.foldUnary op u).ArraysTyped := by
  have built : (Term.unary op u).ArraysTyped := .of_parts rfl (by simp [children, hu])
  unfold Term.foldUnary
  split
  · split
    · exact const
    · exact built
  · exact built

theorem foldCond (hu : u.ArraysTyped) (hv : v.ArraysTyped) (hw : w.ArraysTyped) :
    (Term.foldCond u v w).ArraysTyped := by
  unfold Term.foldCond
  split
  · split
    · exact hv
    · exact hw
  · exact .of_parts rfl (by simp [children, hu, hv, hw])

theorem groupKey (h : t.ArraysTyped) : (Operator.groupKey t).ArraysTyped := by
  unfold Operator.groupKey
  split
  · exact h.child (by simp [children])
  · exact h

theorem asGroupKey : t.asGroupKey.ArraysTyped := by
  unfold Term.asGroupKey
  split
  · refine .of_parts rfl ?_
    intro u hu
    simp only [children, List.map_map, List.mem_map, Function.comp] at hu
    obtain ⟨f, -, rfl⟩ := hu
    exact field
  · exact field

/-- A member of a term is one of its parts, or is read from it. -/
theorem member {registry : Registry} {name : String} (ht : t.ArraysTyped)
    (h : t.member registry name = some u) : u.ArraysTyped := by
  unfold Term.member at h
  split at h
  · obtain ⟨f, hf, rfl⟩ := Option.map_eq_some_iff.mp h
    exact ht.child (List.mem_map_of_mem (List.mem_of_find?_eq_some hf))
  · split at h
    · cases h
      exact ht.child (by simp [children])
    · cases h
  · split at h
    · rename_i isArray
      cases h
      rw [Bool.and_eq_true] at isArray
      exact size isArray.1 ht
    · obtain ⟨⟨element, codec⟩, -, rfl⟩ := Option.map_eq_some_iff.mp h
      simp only
      split
      · exact field
      · exact field
      · exact .of_parts rfl (by simpa [children] using ht)

end ArraysTyped

end Term

/-! ### Items of arrays -/

namespace Items

open Term (ArraysTyped)

/-- The array that the items are taken from is one, and so is all that it is made of. -/
structure Typed (s : Items) : Prop where
  isArray : s.array.codec.isArray = true
  array : s.array.ArraysTyped

namespace Typed

variable {s : Items} {l : Lambda}

theorem windowed (h : s.Typed) :
    s.windowed.codec.isArray = true ∧ s.windowed.ArraysTyped := by
  unfold Items.windowed
  split
  · exact ⟨h.isArray, h.array⟩
  · split
    · exact ⟨rfl, .const⟩
    · constructor
      · rw [Term.codec]
        exact h.isArray
      · exact .of_array rfl h.isArray (by simpa [Term.children] using h.array)

theorem of_windowed {array : Term} (isArray : array.codec.isArray = true)
    (h : array.ArraysTyped) : (s.withArray array).Typed :=
  ⟨isArray, h⟩

theorem mapped (h : s.Typed) (hl : l.body.ArraysTyped) :
    (s.mapped l).codec.isArray = true ∧ (s.mapped l).ArraysTyped := by
  constructor
  · rfl
  · exact .of_array rfl h.windowed.1 (by simp [Items.mapped, Term.children, h.windowed.2, hl])

theorem ofTerm {t : Term} {site : String} (ht : t.ArraysTyped)
    (h : Items.ofTerm t site = .ok s) : s.Typed := by
  unfold Items.ofTerm at h
  split at h
  · rename_i codec hitem
    cases h
    have isArray : t.codec.isArray = true := by
      unfold Codec.item? at hitem
      split at hitem
      · rename_i hcodec
        rw [hcodec]
        rfl
      · cases hitem
    unfold ofArray
    split
    · exact ⟨ht.operand List.mem_cons_self, ht.child List.mem_cons_self⟩
    · exact ⟨isArray, ht⟩
  · cases h

theorem element {pick : Pick} {site : String} {t : Term} (h : s.Typed)
    (helement : s.element pick site = .ok t) : t.ArraysTyped := by
  have position (n : Int) : (Term.position n).ArraysTyped := by
    unfold Term.position
    split
    · exact .const
    · exact .const
  have picked {array : Term} (harray : array.codec.isArray = true ∧ array.ArraysTyped)
      (n : Int) : (Term.elemAt array (.position n)).ArraysTyped :=
    .of_array rfl harray.1 (by simp [Term.children, harray.2, position])
  cases pick with
  | first | firstOrDefault =>
    simp only [Items.element] at helement
    split at helement
    · split at helement
      · cases helement
        exact picked ⟨h.isArray, h.array⟩ _
      · cases helement
    · cases helement
      exact picked h.windowed _
  | last | lastOrDefault =>
    cases helement
    exact picked h.windowed _
  | single | singleOrDefault => cases helement

end Typed

/-- Operators on the items of an array take arrays and give arrays. -/
theorem typed (registry : Registry) :
    SequenceInvariant registry Items Term ArraysTyped Typed (fun _ => ArraysTyped)
      ArraysTyped where
  inner_outer _ ht := ht
  inner_groupKey := ArraysTyped.groupKey
  lambda_element _ hbody := hbody
  inner_item hs :=
    .of_parts rfl (by simpa [Sequence.item, Items.item, Term.children] using hs.array)
  closeSort hs := ⟨hs.isArray, hs.array⟩
  filter hs hl h := by
    cases h
    refine .of_windowed ?_ (.filter hs.windowed.1 hs.windowed.2 hl)
    rw [Term.codec]
    exact hs.windowed.1
  project hs hl h := by
    cases h
    exact ⟨(hs.mapped hl).1, (hs.mapped hl).2⟩
  unwind _ _ h := nomatch h
  groupBy _ _ _ h := nomatch h
  distinct hs h := by
    cases h
    refine .of_windowed ?_ (.setOp ?_ ?_)
    · rw [Term.codec]
      exact hs.windowed.1
    · simpa using hs.windowed.1
    · simpa using hs.windowed.2
  sortBy hs _ h := by
    obtain ⟨key, -, h⟩ := bind_eq_ok.mp h
    cases h
    refine ⟨?_, .sortArray hs.windowed.1 hs.windowed.2⟩
    show (Term.sortArray _ _).codec.isArray = true
    rw [Term.codec]
    exact hs.windowed.1
  thenBy hs _ h := by
    obtain ⟨key, -, h⟩ := bind_eq_ok.mp h
    split at h
    · rename_i input keys _ harray
      cases h
      obtain ⟨isArray, typed⟩ := hs
      rw [harray] at isArray typed
      rw [Term.codec] at isArray
      refine ⟨?_, .sortArray isArray (typed.child List.mem_cons_self)⟩
      rw [Term.codec]
      exact isArray
    · cases h
  skip hs h := by
    cases h
    exact ⟨hs.isArray, hs.array⟩
  take hs h := by
    cases h
    exact ⟨hs.isArray, hs.array⟩
  ofType hs _ h := by
    simp only [Sequence.ofType, Items.ofType] at h
    split at h
    · cases h
      refine ⟨?_, .filter hs.windowed.1 hs.windowed.2 .classTest⟩
      show (Term.filter _ _ _).codec.isArray = true
      rw [Term.codec]
      exact hs.windowed.1
    · cases h
  combine hs ht h := by
    simp only [Sequence.combine, Items.combine] at h
    split at h
    · rename_i isArray
      cases h
      refine .of_windowed ?_ (.setOp ?_ ?_)
      · rw [Term.codec]
        exact hs.windowed.1
      · simp [hs.windowed.1, isArray]
      · simp [hs.windowed.2, ht]
    · cases h
  collect hs h := by
    obtain ⟨rfl, rfl⟩ := BindM.yields_pure.mp h
    exact ⟨hs, rfl⟩
  any := by
    intro s r predicate site hs hl h
    cases h
    unfold Items.any
    cases predicate with
    | some l => exact .of_parts rfl (by simpa [Term.children] using (hs.mapped (hl l rfl)).2)
    | none =>
      have size : (Term.size s.windowed).ArraysTyped := .size hs.windowed.1 hs.windowed.2
      exact .of_parts rfl (by simp [Term.children, size, Term.int32, ArraysTyped.const])
  all hs hl h := by
    cases h
    exact .of_parts rfl (by simpa [Term.children] using (hs.mapped hl).2)
  contains hs ht h := by
    cases h
    exact .of_array rfl hs.windowed.1 (by simp [Term.children, hs.windowed.2, ht])
  aggregate := by
    intro s kind selector site c r c' hs hl h
    obtain ⟨rfl, rfl⟩ := BindM.yields_pure.mp h
    refine ⟨?_, rfl⟩
    unfold Items.aggregate
    split
    · exact .size hs.windowed.1 hs.windowed.2
    · cases selector with
      | some l =>
        have mapped := hs.mapped (hl l rfl)
        exact .of_array rfl mapped.1 (by simpa [Term.children] using mapped.2)
      | none => exact .of_array rfl hs.windowed.1 (by simpa [Term.children] using hs.windowed.2)
  element hs h := by
    obtain ⟨hpicked, rfl⟩ := BindM.yields_ofExcept.mp h
    exact ⟨hs.element hpicked, rfl⟩

end Items

/-! ### Rows of groups -/

namespace Group

open Term (ArraysTyped)

variable {g : Group}

/-- The parts of a group that its aggregates take over. -/
theorem typed_parts (h : g.term.ArraysTyped) :
    g.key.ArraysTyped ∧ g.element.ArraysTyped ∧ ∀ p ∈ g.predicate, p.ArraysTyped := by
  have parts := (Term.arraysTyped_iff.mp h).2
  refine ⟨parts _ (by simp [term, Term.children]), parts _ (by simp [term, Term.children]), ?_⟩
  intro p hp
  exact parts p (by simp [term, Term.children, Option.mem_def.mp hp])

theorem typed_term (key : g.key.ArraysTyped) (element : g.element.ArraysTyped)
    (predicate : ∀ p ∈ g.predicate, p.ArraysTyped) : g.term.ArraysTyped := by
  refine .of_parts rfl ?_
  intro u hu
  simp only [term, Term.children, List.mem_append, List.mem_cons, List.not_mem_nil, or_false,
    Option.mem_toList] at hu
  rcases hu with (rfl | rfl) | hu
  · exact key
  · exact element
  · exact predicate u hu

theorem typed_accumulator {kind : AccumulatorKind} {source : Term} {codec : Codec}
    {c c' : Context} {t : Term} (hsource : source.ArraysTyped)
    (h : (g.accumulator kind source codec).Yields c t c') :
    t.ArraysTyped ∧ c'.scopes = c.scopes := by
  simp only [accumulator, BindM.yields_bind, BindM.yields_mint, BindM.yields_pure] at h
  obtain ⟨name, c₁, ⟨rfl, rfl⟩, rfl, rfl⟩ := h
  exact ⟨.of_parts rfl (by simpa [Term.children] using hsource), rfl⟩

theorem typed_aggregate {kind : Aggregate} {selector : Option Lambda} {site : String}
    {c c' : Context} {t : Term} (hg : g.term.ArraysTyped)
    (hl : ∀ l ∈ selector, l.body.ArraysTyped)
    (h : (g.aggregate kind selector site).Yields c t c') :
    t.ArraysTyped ∧ c'.scopes = c.scopes := by
  obtain ⟨-, helement, hpredicate⟩ := typed_parts hg
  unfold aggregate at h
  split at h
  · exact absurd h BindM.not_yields_unsupported
  · have hvalue : ((selector.map Lambda.body).getD g.element).ArraysTyped := by
      cases selector with
      | none => exact helement
      | some l => exact hl l rfl
    have hsource :
        (aggregated kind ((selector.map Lambda.body).getD g.element)).ArraysTyped := by
      unfold aggregated
      split
      · exact .const
      · exact .const
      · exact hvalue
    have hneutral : ∀ source, (neutral kind source).ArraysTyped := by
      intro source
      unfold neutral
      split <;> exact .const
    refine typed_accumulator ?_ h
    split
    · rename_i predicate hsome
      exact .of_parts rfl
        (by simp [Term.children, hpredicate predicate hsome, hsource, hneutral])
    · exact hsource

/-- Operators on the rows of a group keep what is made of arrays. -/
theorem typed (registry : Registry) :
    SequenceInvariant registry Group Term ArraysTyped (fun g => g.term.ArraysTyped)
      (fun _ => ArraysTyped) ArraysTyped where
  inner_outer _ ht := ht
  inner_groupKey := ArraysTyped.groupKey
  lambda_element _ hbody := hbody
  inner_item hg := (typed_parts hg).2.1
  closeSort hg := hg
  filter := by
    intro g g' l site hg hl h
    cases h
    obtain ⟨hkey, helement, hpredicate⟩ := typed_parts hg
    refine typed_term hkey helement ?_
    intro p hp
    cases hsome : g.predicate with
    | none =>
      simp only [Group.filter, hsome, Option.elim_none, Option.mem_some] at hp
      exact hp ▸ hl
    | some before =>
      simp only [Group.filter, hsome, Option.elim_some, Option.mem_some] at hp
      exact hp ▸ .of_parts rfl (by simp [Term.children, hpredicate before hsome, hl])
  project hg hl h := by
    cases h
    obtain ⟨hkey, -, hpredicate⟩ := typed_parts hg
    exact typed_term hkey hl hpredicate
  unwind _ _ h := nomatch h
  groupBy _ _ _ h := nomatch h
  distinct hg h := by
    cases h
    obtain ⟨hkey, helement, hpredicate⟩ := typed_parts hg
    exact typed_term hkey helement hpredicate
  sortBy _ _ h := nomatch h
  thenBy _ _ h := nomatch h
  skip _ h := nomatch h
  take _ h := nomatch h
  ofType _ _ h := nomatch h
  combine _ _ h := nomatch h
  collect := by
    intro g c a c' site hg h
    simp only [Sequence.collect, BindM.yields_bind, BindM.yields_pure] at h
    obtain ⟨t, c₁, h, rfl, rfl⟩ := h
    unfold Group.collect at h
    split at h
    · exact absurd h BindM.not_yields_unsupported
    · exact typed_accumulator (typed_parts hg).2.1 h
  any _ _ h := nomatch h
  all _ _ h := nomatch h
  contains _ _ h := nomatch h
  aggregate hg hl h := typed_aggregate hg hl h
  element := by
    intro g pick site c r c' hg h
    simp only [Sequence.element, Group.pick] at h
    split at h
    · exact absurd h BindM.not_yields_unsupported
    · split at h
      · exact typed_accumulator (typed_parts hg).2.1 h
      · exact absurd h BindM.not_yields_unsupported

end Group

/-! ### Expressions -/

namespace Term

theorem ArraysTyped.applyOperator {registry : Registry} {source : Term} {op : Operator}
    {call : Call Argument} {text : String} (hsource : source.ArraysTyped)
    (arguments : ∀ a ∈ call.arguments, a.step.Keeps ArraysTyped) {c c' : Context}
    (hc : c.Every ArraysTyped) {t : Term}
    (h : (source.applyOperator registry op call text).Yields c t c') :
    t.ArraysTyped ∧ c'.scopes = c.scopes := by
  unfold Term.applyOperator at h
  split at h
  · rename_i stage key element predicate distinct
    simp only [BindM.yields_bind, BindM.yields_pure] at h
    obtain ⟨a, c₁, ha, rfl, rfl⟩ := h
    have hgroup : (Group.term ⟨stage, key, element, predicate, distinct⟩).ArraysTyped :=
      hsource
    obtain ⟨hholds, hscopes⟩ := Operator.apply_keeps (Group.typed registry)
      (fun a ha => ⟨arguments a ha, fun _ _ => arguments a ha⟩) hgroup hc ha
    refine ⟨?_, hscopes⟩
    cases a with
    | sequence g => exact hholds
    | terminal t => exact hholds
  · split at h
    · simp only [BindM.yields_bind, BindM.yields_ofExcept, BindM.yields_pure] at h
      obtain ⟨s, c₁, ⟨hs, rfl⟩, a, c₂, ha, rfl, rfl⟩ := h
      obtain ⟨hholds, hscopes⟩ := Operator.apply_keeps (Items.typed registry)
        (fun a ha => ⟨arguments a ha, fun _ _ => arguments a ha⟩)
        (Items.Typed.ofTerm hsource hs) hc ha
      refine ⟨?_, hscopes⟩
      cases a with
      | sequence s => exact hholds.windowed.2
      | terminal t => exact hholds
    · exact absurd h BindM.not_yields_unsupported

/-- **In a bound expression, what has to be an array is stored as one.** -/
theorem typed_invariant (registry : Registry) :
    TermInvariant registry fun _ : Unit => ArraysTyped where
  const _ := .const
  member ht _ h := ht.member h
  foldUnary := .foldUnary
  foldBinary := .foldBinary
  foldCond := .foldCond
  document _ _ parts := .of_parts rfl parts
  elemAt isArray harray hposition :=
    .of_array rfl isArray (by simp [children, harray, hposition])
  applyOperator hsource arguments hc h :=
    hsource.applyOperator (fun a ha => arguments a ha ()) hc h

end Term

end QueryPipeline
