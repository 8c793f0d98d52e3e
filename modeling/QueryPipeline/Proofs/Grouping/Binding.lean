import QueryPipeline.Proofs.Binding.Terms
import QueryPipeline.Proofs.Grouping.Placement

/-!
Binding places accumulators. An aggregate of a group is bound while the group is in scope,
and stays readable only until the rows are grouped again. So the invariant follows the
stages: what the projector reads belongs to the last group stage, and a lambda over the rows
of a group may also aggregate that group once more.
-/

namespace QueryPipeline

/-! ### Items of arrays -/

namespace Items

open Term (Placed)

variable {near : Nat → Option Nat} {place : Place} {s : Items}

theorem placed_windowed (h : Placed near place s.array) : Placed near place s.windowed := by
  unfold windowed
  split
  · exact h
  · split
    · exact .const
    · exact .of_one rfl rfl h

theorem placed_mapped {l : Lambda} (h : Placed near place s.array)
    (hl : Placed near place l.body) : Placed near place (s.mapped l) :=
  .of_two rfl rfl (placed_windowed h) hl

theorem placed_ofTerm {t : Term} {site : String} (ht : Placed near place t)
    (h : ofTerm t site = .ok s) : Placed near place s.array := by
  unfold ofTerm at h
  split at h
  · cases h
    unfold ofArray
    split
    · exact ht.parts rfl _ (by simp [Term.children])
    · exact ht
  · cases h

theorem placed_element {pick : Pick} {site : String} {t : Term}
    (hs : Placed near place s.array) (h : s.element pick site = .ok t) :
    Placed near place t := by
  have position (n : Int) : Placed near place (.position n) := by
    unfold Term.position
    split
    · exact .const
    · exact .const
  have picked {array : Term} (harray : Placed near place array) (n : Int) :
      Placed near place (.elemAt array (.position n)) :=
    .of_two rfl rfl harray (position n)
  cases pick with
  | first | firstOrDefault =>
    simp only [element] at h
    split at h
    · split at h
      · cases h
        exact picked hs _
      · cases h
    · cases h
      exact picked (placed_windowed hs) _
  | last | lastOrDefault =>
    cases h
    exact picked (placed_windowed hs) _
  | single | singleOrDefault => cases h

/-- Operators on the items of an array read nothing but their operands. -/
theorem placed (registry : Registry) (near : Nat → Option Nat) (place : Place) :
    SequenceInvariant registry Items Term (Placed near place)
      (fun s => Placed near place s.array) (fun _ => Placed near place)
      (Placed near place) where
  inner_outer _ ht := ht
  inner_groupKey := Placed.groupKey
  lambda_element _ hbody := hbody
  inner_item hs := .of_one rfl rfl hs
  closeSort hs := hs
  filter hs hl h := by
    cases h
    exact .of_two rfl rfl (placed_windowed hs) hl
  project hs hl h := by
    cases h
    exact placed_mapped hs hl
  unwind _ _ h := nomatch h
  groupBy _ _ _ h := nomatch h
  distinct hs h := by
    cases h
    exact .of_one rfl rfl (placed_windowed hs)
  sortBy hs _ h := by
    obtain ⟨key, -, h⟩ := bind_eq_ok.mp h
    cases h
    exact .of_one rfl rfl (placed_windowed hs)
  thenBy hs _ h := by
    obtain ⟨key, -, h⟩ := bind_eq_ok.mp h
    split at h
    · rename_i input keys _ harray
      cases h
      rw [harray] at hs
      exact .plain rfl (hs.parts rfl)
    · cases h
  skip hs h := by
    cases h
    exact hs
  take hs h := by
    cases h
    exact hs
  ofType hs _ h := by
    simp only [Sequence.ofType, Items.ofType] at h
    split at h
    · cases h
      have marked {path : FieldPath} {mark : String} :
          Placed near place (.binary .eq (.field path .string) (.string mark)) :=
        .of_two rfl rfl .field .const
      exact .of_two rfl rfl (placed_windowed hs) marked
    · cases h
  combine hs ht h := by
    simp only [Sequence.combine, Items.combine] at h
    split at h
    · cases h
      exact .of_two rfl rfl (placed_windowed hs) ht
    · cases h
  collect hs h := by
    obtain ⟨rfl, rfl⟩ := BindM.yields_pure.mp h
    exact ⟨hs, rfl⟩
  any := by
    intro s r predicate site hs hl h
    cases h
    unfold Items.any
    cases predicate with
    | some l => exact .of_one rfl rfl (placed_mapped hs (hl l rfl))
    | none =>
      have size : Placed near place (.size s.windowed) :=
        .of_one rfl rfl (placed_windowed hs)
      exact .of_two rfl rfl size .const
  all hs hl h := by
    cases h
    exact .of_one rfl rfl (placed_mapped hs hl)
  contains hs ht h := by
    cases h
    exact .of_two rfl rfl ht (placed_windowed hs)
  aggregate := by
    intro s kind selector site c r c' hs hl h
    obtain ⟨rfl, rfl⟩ := BindM.yields_pure.mp h
    refine ⟨?_, rfl⟩
    unfold Items.aggregate
    split
    · exact .of_one rfl rfl (placed_windowed hs)
    · cases selector with
      | some l => exact .of_one rfl rfl (placed_mapped hs (hl l rfl))
      | none => exact .of_one rfl rfl (placed_windowed hs)
  element hs h := by
    obtain ⟨hpicked, rfl⟩ := BindM.yields_ofExcept.mp h
    exact ⟨placed_element hs hpicked, rfl⟩

end Items

/-! ### Rows of groups -/

namespace Group

open Term (Placed)

variable {near : Nat → Option Nat} {place : Place} {g : Group}

theorem placed_accumulator {kind : AccumulatorKind} {source : Term} {codec : Codec}
    {c c' : Context} {t : Term} (hg : Placed near place g.term)
    (hsource : Placed near (.elements g.stage) source)
    (h : (g.accumulator kind source codec).Yields c t c') :
    Placed near place t ∧ c'.scopes = c.scopes := by
  simp only [accumulator, BindM.yields_bind, BindM.yields_mint, BindM.yields_pure] at h
  obtain ⟨name, c₁, ⟨rfl, rfl⟩, rfl, rfl⟩ := h
  exact ⟨.accumulator hg.grouping_holds.1.1.sees hsource.as_source, rfl⟩

theorem placed_aggregate {kind : Aggregate} {selector : Option Lambda} {site : String}
    {c c' : Context} {t : Term} (hg : Placed near place g.term)
    (hl : ∀ l ∈ selector, Placed near (.elements g.stage) l.body)
    (h : (g.aggregate kind selector site).Yields c t c') :
    Placed near place t ∧ c'.scopes = c.scopes := by
  obtain ⟨-, helement, hpredicate⟩ := hg.grouping_holds
  unfold aggregate at h
  split at h
  · exact absurd h BindM.not_yields_unsupported
  · have hvalue : Placed near (.elements g.stage)
        ((selector.map Lambda.body).getD g.element) := by
      cases selector with
      | none => exact helement
      | some l => exact hl l rfl
    have hsource : Placed near (.elements g.stage)
        (aggregated kind ((selector.map Lambda.body).getD g.element)) := by
      unfold aggregated
      split
      · exact .const
      · exact .const
      · exact hvalue
    have hneutral : ∀ source, Placed near (.elements g.stage) (neutral kind source) := by
      intro source
      unfold neutral
      split <;> exact .const
    refine placed_accumulator hg ?_ h
    split
    · rename_i predicate hsome
      have hcondition := hpredicate predicate hsome
      exact .of_three rfl rfl hcondition hsource (hneutral _)
    · exact hsource

/-- Operators on the rows of a group read its elements, and what is read around it. -/
theorem placed (registry : Registry) (near : Nat → Option Nat) (place : Place) :
    SequenceInvariant registry Group Term (Placed near place)
      (fun g => Placed near place g.term) (fun g => Placed near (.elements g.stage))
      (Placed near place) where
  inner_outer hg ht := ht.over_elements hg.grouping_holds.1.1
  inner_groupKey := Placed.groupKey
  lambda_element _ hbody := hbody
  inner_item hg := hg.grouping_holds.2.1
  closeSort hg := hg
  filter := by
    intro g g' l site hg hl h
    cases h
    obtain ⟨⟨hholds, hbare, hkey⟩, helement, hpredicate⟩ := hg.grouping_holds
    refine .grouping hholds hbare hkey helement ?_
    intro p hp
    cases hsome : g.predicate with
    | none =>
      simp only [Group.filter, hsome, Option.elim_none, Option.mem_some] at hp
      exact hp ▸ hl
    | some before =>
      simp only [Group.filter, hsome, Option.elim_some, Option.mem_some] at hp
      have hbefore := hpredicate before hsome
      exact hp ▸ .of_two rfl rfl hbefore hl
  project hg hl h := by
    cases h
    obtain ⟨⟨hholds, hbare, hkey⟩, -, hpredicate⟩ := hg.grouping_holds
    exact .grouping hholds hbare hkey hl hpredicate
  unwind _ _ h := nomatch h
  groupBy _ _ _ h := nomatch h
  distinct hg h := by
    cases h
    obtain ⟨⟨hholds, hbare, hkey⟩, helement, hpredicate⟩ := hg.grouping_holds
    exact .grouping hholds hbare hkey helement hpredicate
  sortBy _ _ h := nomatch h
  thenBy _ _ h := nomatch h
  skip _ h := nomatch h
  take _ h := nomatch h
  ofType _ _ h := nomatch h
  combine _ _ h := nomatch h
  collect := by
    intro g c a c' site hg h
    simp only [Sequence.collect, BindM.yields_bind, BindM.yields_pure] at h
    obtain ⟨t, c₁, h, rfl, rfl⟩ := h
    unfold Group.collect at h
    split at h
    · exact absurd h BindM.not_yields_unsupported
    · exact placed_accumulator hg hg.grouping_holds.2.1 h
  any _ _ h := nomatch h
  all _ _ h := nomatch h
  contains _ _ h := nomatch h
  aggregate hg hl h := placed_aggregate hg hl h
  element := by
    intro g pick site c r c' hg h
    simp only [Sequence.element, Group.pick] at h
    split at h
    · exact absurd h BindM.not_yields_unsupported
    · split at h
      · exact placed_accumulator hg hg.grouping_holds.2.1 h
      · exact absurd h BindM.not_yields_unsupported

end Group

/-! ### Expressions -/

namespace Term

variable {near : Nat → Option Nat} {place : Place}

/-- A member of a term is one of its parts, or a field read from it. -/
theorem Placed.member {registry : Registry} {t u : Term} {name : String}
    (ht : Placed near place t) (h : t.member registry name = some u) :
    Placed near place u := by
  unfold Term.member at h
  split at h
  · obtain ⟨f, hf, rfl⟩ := Option.map_eq_some_iff.mp h
    exact ht.parts rfl f.2 (List.mem_map_of_mem (List.mem_of_find?_eq_some hf))
  · split at h
    · cases h
      exact ht.grouping_holds.1.2.2
    · cases h
  · split at h
    · cases h
      exact .of_one rfl rfl ht
    · obtain ⟨⟨element, codec⟩, -, rfl⟩ := Option.map_eq_some_iff.mp h
      simp only
      split
      · exact .field
      · exact .field
      · exact .of_one rfl rfl ht

/-- An operator in an expression is applied to the rows of a group or to the items of an
array. -/
theorem Placed.applyOperator {registry : Registry} {source : Term} {op : Operator}
    {call : Call Argument} {text : String} (hsource : Placed near place source)
    (arguments : ∀ a ∈ call.arguments, ∀ place, a.step.Keeps (Placed near place))
    {c c' : Context} (hc : c.Every (Placed near place)) {t : Term}
    (h : (source.applyOperator registry op call text).Yields c t c') :
    Placed near place t ∧ c'.scopes = c.scopes := by
  unfold Term.applyOperator at h
  split at h
  · rename_i stage key element predicate distinct
    simp only [BindM.yields_bind, BindM.yields_pure] at h
    obtain ⟨a, c₁, ha, rfl, rfl⟩ := h
    have hgroup : Placed near place
        (Group.term ⟨stage, key, element, predicate, distinct⟩) := hsource
    obtain ⟨hholds, hscopes⟩ := Operator.apply_keeps (Group.placed registry near place)
      (fun a ha => ⟨arguments a ha place, fun _ _ => arguments a ha _⟩) hgroup hc ha
    refine ⟨?_, hscopes⟩
    cases a with
    | sequence g => exact hholds
    | terminal t => exact hholds
  · split at h
    · simp only [BindM.yields_bind, BindM.yields_ofExcept, BindM.yields_pure] at h
      obtain ⟨s, c₁, ⟨hs, rfl⟩, a, c₂, ha, rfl, rfl⟩ := h
      obtain ⟨hholds, hscopes⟩ := Operator.apply_keeps (Items.placed registry near place)
        (fun a ha => ⟨arguments a ha place, fun _ _ => arguments a ha _⟩)
        (Items.placed_ofTerm hsource hs) hc ha
      refine ⟨?_, hscopes⟩
      cases a with
      | sequence s => exact Items.placed_windowed hholds
      | terminal t => exact hholds
    · exact absurd h BindM.not_yields_unsupported

/-- **Binding an expression places its accumulators** wherever those of the terms in scope
are placed. -/
theorem placed_invariant (registry : Registry) (near : Nat → Option Nat) :
    TermInvariant registry (Placed near) where
  const _ := .const
  member ht _ h := ht.member h
  foldUnary := Placed.foldUnary
  foldBinary := Placed.foldBinary
  foldCond := Placed.foldCond
  document := by
    intro place fields _ _ parts
    exact .plain rfl parts
  elemAt _ := .of_two rfl rfl
  applyOperator hsource arguments hc h := hsource.applyOperator arguments hc h

end Term

end QueryPipeline
