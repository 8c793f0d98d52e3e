import QueryPipeline.Proofs.Binding.Inheritance
import QueryPipeline.Proofs.Term.References

/-!
Rules for variables in bound terms. What operators make of an array reads variables where the
array does, and where a lambda does, with the variable of the lambda bound around its body. So
if the array and the bodies keep to a rule there, the result does. Of a group only the key is
read; all else that its operators give is computed elsewhere.
-/

namespace QueryPipeline

/-! ### Members -/

namespace Term.KeepsTo

variable {rule : List String → String → Prop} {bound : List String} {t u : Term}

/-- An element of a document is read by the variable of the document. -/
theorem element {name : String} {codec : Codec} (ht : t.KeepsTo rule bound) :
    (t.element name codec).KeepsTo rule bound := by
  have picked : KeepsTo rule bound (.getField t name codec) :=
    of_children rfl rfl (List.forall_mem_singleton.mpr ht)
  cases t with
  | field path => exact of_variable rfl fun var hvar => ht (.self hvar)
  | item array var => exact of_variable rfl fun var' hvar => ht (.self hvar)
  | _ => exact picked

theorem member {registry : Registry} {name : String} (ht : t.KeepsTo rule bound)
    (h : t.member registry name = some u) : u.KeepsTo rule bound := by
  have read (byCodec : t.readsByCodec = true) : u.KeepsTo rule bound := by
    rw [member_of_readsByCodec byCodec] at h
    split at h
    · cases h
      exact .size ht
    · obtain ⟨m, -, rfl⟩ := Option.map_eq_some_iff.mp h
      exact ht.element
  cases t with
  | document fields =>
    obtain ⟨f, hf, rfl⟩ := Option.map_eq_some_iff.mp h
    have hmem : f.2 ∈ fields.map Prod.snd := List.mem_map_of_mem (List.mem_of_find?_eq_some hf)
    exact ht.part (List.mem_map_of_mem hmem)
  | grouping stage key element predicate distinct =>
    simp only [Term.member] at h
    split at h
    · cases h
      exact ht.part (List.mem_singleton_self _)
    · cases h
  | _ => exact read rfl

end Term.KeepsTo

/-! ### Items of arrays -/

namespace Items

variable {rule : List String → String → Prop} {bound : List String} {s : Items} {l : Lambda}

theorem keepsTo_windowed (h : s.array.KeepsTo rule bound) : s.windowed.KeepsTo rule bound := by
  unfold windowed
  split
  · exact h
  · split
    · exact .const
    · exact .of_children rfl rfl (List.forall_mem_singleton.mpr h)

theorem keepsTo_mapped (h : s.array.KeepsTo rule bound)
    (hl : l.body.KeepsTo rule (l.var :: bound)) : (s.mapped l).KeepsTo rule bound :=
  .map (keepsTo_windowed h) hl

theorem keepsTo_ofTerm {t : Term} {site : String} (ht : t.KeepsTo rule bound)
    (h : Items.ofTerm t site = .ok s) : s.array.KeepsTo rule bound := by
  unfold Items.ofTerm at h
  split at h
  · cases h
    unfold ofArray
    split
    · exact ht.part (List.mem_singleton_self _)
    · exact ht
  · cases h

theorem keepsTo_element {pick : Pick} {site : String} {t : Term}
    (h : s.array.KeepsTo rule bound) (helement : s.element pick site = .ok t) :
    t.KeepsTo rule bound := by
  have position (n : Int) : (Term.position n).KeepsTo rule bound := by
    unfold Term.position
    split
    · exact .const
    · exact .const
  cases pick with
  | first | firstOrDefault =>
    simp only [Items.element] at helement
    split at helement
    · split at helement
      · cases helement
        exact .elemAt h (position _)
      · cases helement
    · cases helement
      exact .elemAt (keepsTo_windowed h) (position _)
  | last | lastOrDefault =>
    cases helement
    exact .elemAt (keepsTo_windowed h) (position _)
  | single | singleOrDefault => cases helement

theorem keepsTo_aggregate {kind : Aggregate} {selector : Option Lambda}
    (h : s.array.KeepsTo rule bound)
    (hl : ∀ l ∈ selector, l.body.KeepsTo rule (l.var :: bound)) :
    (s.aggregate kind selector).KeepsTo rule bound := by
  unfold Items.aggregate
  split
  · exact .size (keepsTo_windowed h)
  · cases selector with
    | some l =>
      exact .of_children rfl rfl (List.forall_mem_singleton.mpr (keepsTo_mapped h (hl l rfl)))
    | none => exact .of_children rfl rfl (List.forall_mem_singleton.mpr (keepsTo_windowed h))

/-- Operators on the items of an array bind the variables of their lambdas around the bodies, and
one variable more where they test the class of an item. -/
theorem keepsTo (registry : Registry) (test : ∀ around, rule (classVar :: around) classVar) :
    OperationInvariant registry Items Term (Term.KeepsTo rule bound)
      (fun s => s.array.KeepsTo rule bound) (fun _ _ => True) (Term.KeepsTo rule bound)
      fun _ l => l.body.KeepsTo rule (l.var :: bound) where
  inner_groupKey _ := trivial
  inner_item _ := trivial
  closeSort hs := hs
  filter hs hl h := by
    cases h
    exact .filter (keepsTo_windowed hs) hl
  project hs hl h := by
    cases h
    exact keepsTo_mapped hs hl
  unwind _ _ h := nomatch h
  groupBy _ _ _ h := nomatch h
  distinct hs h := by
    cases h
    exact .setOp (List.forall_mem_singleton.mpr (keepsTo_windowed hs))
  sortBy hs _ h := by
    obtain ⟨key, -, h⟩ := bind_eq_ok.mp h
    cases h
    exact .of_children rfl rfl (List.forall_mem_singleton.mpr (keepsTo_windowed hs))
  thenBy hs _ h := by
    obtain ⟨key, -, h⟩ := bind_eq_ok.mp h
    split at h
    · rename_i input keys _ harray
      cases h
      rw [harray] at hs
      exact .of_children rfl rfl
        (List.forall_mem_singleton.mpr (hs.part (List.mem_singleton_self _)))
    · cases h
  skip hs h := by
    cases h
    exact hs
  take hs h := by
    cases h
    exact hs
  ofType hs _ h := by
    simp only [Sequence.ofType, Items.ofType] at h
    split at h
    · cases h
      refine .filter (keepsTo_windowed hs) (.binary (.of_variable rfl ?_) .const)
      rintro var ⟨⟩
      exact test bound
    · cases h
  combine hs ht h := by
    simp only [Sequence.combine, Items.combine] at h
    split at h
    · cases h
      exact .setOp (by simp [keepsTo_windowed hs, ht])
    · cases h
  any := by
    intro s r predicate site hs hl h
    cases h
    unfold Items.any
    cases predicate with
    | some l =>
      exact .of_children rfl rfl (List.forall_mem_singleton.mpr (keepsTo_mapped hs (hl l rfl)))
    | none => exact .binary (.size (keepsTo_windowed hs)) .const
  all hs hl h := by
    cases h
    exact .of_children rfl rfl (List.forall_mem_singleton.mpr (keepsTo_mapped hs hl))
  contains hs ht h := by
    cases h
    exact .of_children rfl rfl (by simp [Term.children, keepsTo_windowed hs, ht])

theorem keepsTo_ends : EndInvariant Items Term (fun s => s.array.KeepsTo rule bound)
    (Term.KeepsTo rule bound) fun _ l => l.body.KeepsTo rule (l.var :: bound) where
  collect hs h := by
    obtain ⟨rfl, rfl⟩ := BindM.yields_pure.mp h
    exact ⟨hs, rfl⟩
  aggregate hs hl h := by
    obtain ⟨rfl, rfl⟩ := BindM.yields_pure.mp h
    exact ⟨keepsTo_aggregate hs hl, rfl⟩
  element hs h := by
    obtain ⟨hpicked, rfl⟩ := BindM.yields_ofExcept.mp h
    exact ⟨keepsTo_element hs hpicked, rfl⟩

end Items

/-! ### Rows of groups -/

namespace Group

variable {rule : List String → String → Prop} {bound : List String} {g : Group}

theorem Accumulates.keepsTo {step : BindM Term} (h : g.Accumulates (fun _ => True) step)
    {c c' : Context} {t : Term} (hstep : step.Yields c t c') :
    t.KeepsTo rule bound ∧ c'.scopes = c.scopes := by
  rcases h with ⟨site, rfl⟩ | ⟨kind, source, codec, -, rfl⟩
  · exact absurd hstep BindM.not_yields_unsupported
  · simp only [accumulator, BindM.yields_bind, BindM.yields_mint, BindM.yields_pure] at hstep
    obtain ⟨name, c₁, ⟨rfl, rfl⟩, rfl, rfl⟩ := hstep
    exact ⟨.accumulator, rfl⟩

/-- Operators on the rows of a group keep its key, and all else that they give is computed with
the group, whatever their lambdas are. -/
theorem keepsTo (registry : Registry) : SequenceInvariant registry Group Term (fun _ => True)
    (fun g => g.key.KeepsTo rule bound) (fun _ _ => True) (Term.KeepsTo rule bound) where
  inner_outer _ _ := trivial
  inner_groupKey _ := trivial
  inner_item _ := trivial
  lambda_element _ _ := trivial
  closeSort hg := hg
  filter hg _ h := by
    cases h
    exact hg
  project hg _ h := by
    cases h
    exact hg
  unwind _ _ h := nomatch h
  groupBy _ _ _ h := nomatch h
  distinct hg h := by
    cases h
    exact hg
  sortBy _ _ h := nomatch h
  thenBy _ _ h := nomatch h
  skip _ h := nomatch h
  take _ h := nomatch h
  ofType _ _ h := nomatch h
  combine _ _ h := nomatch h
  any _ _ h := nomatch h
  all _ _ h := nomatch h
  contains _ _ h := nomatch h
  collect {g c a c' site} _ h := by
    simp only [Sequence.collect, BindM.yields_bind, BindM.yields_pure] at h
    obtain ⟨t, c₁, h, rfl, rfl⟩ := h
    exact Accumulates.keepsTo (accumulates_collect fun _ _ => trivial) h
  aggregate _ _ h := by
    have inherited : Term.Inherited registry fun _ => True :=
      ⟨fun _ => trivial, fun _ => trivial, fun _ => trivial, fun _ _ _ => trivial⟩
    exact (accumulates_aggregate inherited (fun _ _ => trivial) fun _ _ _ _ => trivial).keepsTo h
  element _ h := Accumulates.keepsTo (accumulates_pick fun _ _ => trivial) h

end Group

/-! ### Operators -/

/-- **Applying an operator keeps to a rule** if the arguments over the items of an array give
terms that do, the bodies of lambdas where their variable is bound besides. -/
theorem Term.KeepsTo.applyOperator {registry : Registry} {rule : List String → String → Prop}
    {bound : List String} (test : ∀ around, rule (classVar :: around) classVar)
    {known : Scopes String Term → Prop} {source : Term} {op : Operator} {call : Call Argument}
    {text : String} (hsource : source.KeepsTo rule bound)
    (items : ∀ a ∈ call.arguments, a.Gives known (Term.KeepsTo rule bound)
      (fun s : Items => s.array.KeepsTo rule bound) (fun _ _ => True)
      fun _ l => l.body.KeepsTo rule (l.var :: bound))
    (still : ∀ a ∈ call.arguments, a.step.Keeps fun _ => True) {c c' : Context}
    (hc : known c.scopes) {t : Term}
    (h : (source.applyOperator registry op call text).Yields c t c') : t.KeepsTo rule bound := by
  unfold Term.applyOperator at h
  split at h
  · rename_i stage key element predicate distinct
    simp only [BindM.yields_bind, BindM.yields_pure] at h
    obtain ⟨a, c₁, ha, rfl, rfl⟩ := h
    have hkey : key.KeepsTo rule bound := hsource.part (List.mem_singleton_self _)
    obtain ⟨hholds, -⟩ := Operator.apply_keeps (Group.keepsTo registry)
      (fun a ha => ⟨still a ha, fun _ _ => still a ha⟩) hkey (fun _ _ _ => trivial) ha
    cases a with
    | sequence g => exact .of_parts rfl (List.forall_mem_singleton.mpr hholds)
    | terminal t => exact hholds
  · split at h
    · simp only [BindM.yields_bind, BindM.yields_ofExcept, BindM.yields_pure] at h
      obtain ⟨s, c₁, ⟨hs, rfl⟩, a, c₂, ha, rfl, rfl⟩ := h
      obtain ⟨hholds, -⟩ := Operator.apply_gives (Items.keepsTo registry test)
        Items.keepsTo_ends items (Items.keepsTo_ofTerm hsource hs) hc ha
      cases a with
      | sequence s => exact Items.keepsTo_windowed hholds
      | terminal t => exact hholds
    · exact absurd h BindM.not_yields_unsupported

end QueryPipeline
