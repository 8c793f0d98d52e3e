import Mathlib.Data.List.Nodup
import QueryPipeline.GroupProjection
import QueryPipeline.Proofs.Semantics.Stage

/-!
Merging a projection into the group before it keeps the rows that a reader sees
(`Plan.decoded_mergeProjection`). The stages give other rows and the output reads them by other
names, so the two can only be compared once the rows are read: the same members get the same
values.

Everything rests on the names that values get. A name is given only if no value that is kept has
it and it was not given before (`renameSingles`), so the names of the merged group stay distinct
and each field that the projection read is found under its new name.
-/

namespace QueryPipeline

/-! ### Reading rows -/

/-- A row as its reader sees it: the members of a document with their types, a value by
itself, or the row as it is. -/
inductive DecodedRow where
  | members (values : List (String × MemberSource × Option Value))
  | value (codec : Codec) (v : Option Value)
  | whole (row : Value)

/-- Reads a row. -/
def RowCodec.decode (engine : Engine) (row : Value) : RowCodec → DecodedRow
  | .value field codec => .value codec (engine.read field (some row))
  | .rows (.document c) =>
    .members (c.members.map fun m => (m.name, m.type, engine.read m.element (some row)))
  | .rows _ => .whole row

/-- The rows of a plan as their reader sees them. -/
def Plan.decoded (engine : Engine) (p : Plan) (rows : List Value) : List DecodedRow :=
  (Stage.runAll engine p.stages rows).map fun row => p.output.decode engine row

/-- The fields of a group's row have distinct names. -/
def Stage.HasDistinctFields : Stage → Prop
  | .group _ accumulators => ("_id" :: accumulators.map Accumulator.output).Nodup
  | _ => True

/-- The plan of a pipeline: a projection that ends it says how the rows are read, and its
members, which come from a map with unique keys, have distinct names. So have the fields
of a group. -/
structure Plan.IsFinished (p : Plan) : Prop where
  output (selector : Term) :
    p.stages.getLast? = some (.project selector) → p.output = selector.rowCodec
  members (fields : List (String × Term)) :
    p.stages.getLast? = some (.project (.document fields)) → (fields.map Prod.fst).Nodup
  groups : ∀ s ∈ p.stages, s.HasDistinctFields

/-! ### Renaming -/

section Renaming

variable {readings : List Reading} {inUse : List String} {accumulators : List Accumulator}

/-- The name under which a field is found after renamings. -/
def renamed (renamings : List Renaming) (field : String) : String :=
  ((renamings.reverse.find? (·.source == field)).map Renaming.target).getD field

theorem elementOf_eq_renamed (renamings : List Renaming) (r : Reading) :
    elementOf renamings r = renamed renamings r.field := rfl

/-- A field that no renaming names keeps its name. -/
theorem renamed_of_notMem {renamings : List Renaming} {field : String}
    (h : field ∉ renamings.map Renaming.source) : renamed renamings field = field := by
  have absent : renamings.reverse.find? (·.source == field) = none := by
    rw [List.find?_eq_none]
    intro r hr same
    rw [beq_iff_eq] at same
    exact h (List.mem_map.mpr ⟨r, List.mem_reverse.mp hr, same⟩)
  rw [renamed, absent]
  rfl

/-- Where no later renaming names the field, the first one gives the name. -/
theorem renamed_cons_self {r : Renaming} {renamings : List Renaming}
    (h : r.source ∉ renamings.map Renaming.source) :
    renamed (r :: renamings) r.source = r.target := by
  have absent : renamings.reverse.find? (·.source == r.source) = none := by
    rw [List.find?_eq_none]
    intro r' hr' same
    rw [beq_iff_eq] at same
    exact h (List.mem_map.mpr ⟨r', List.mem_reverse.mp hr', same⟩)
  simp [renamed, List.find?_append, absent]

theorem renamed_cons_of_ne {r : Renaming} {renamings : List Renaming} {field : String}
    (h : r.source ≠ field) : renamed (r :: renamings) field = renamed renamings field := by
  simp [renamed, List.find?_append, h]

/-- How the values of a group are renamed, one by one: the first value gets the name of
its reader or keeps its own, and with a name that is given less names are free. -/
theorem renameSingles_cons (readings : List Reading) (inUse : List String)
    (a : Accumulator) (rest : List Accumulator) :
    (∃ member, isFreeName inUse member = true ∧
      renameSingles readings inUse (a :: rest) =
        let (rest, renamings) := renameSingles readings (member :: inUse) rest
        ({ a with output := member } :: rest, ⟨a.output, member⟩ :: renamings)) ∨
    renameSingles readings inUse (a :: rest) =
      let (rest, renamings) := renameSingles readings inUse rest
      (a :: rest, renamings) := by
  rw [renameSingles]
  split
  · rename_i member hreaders
    split
    · rename_i free
      exact .inl ⟨member, free, rfl⟩
    · exact .inr rfl
  · exact .inr rfl

theorem notMem_of_isFreeName {name : String} (h : isFreeName inUse name = true) :
    name ∉ inUse := by
  simp only [isFreeName, Bool.and_eq_true] at h
  simpa using h.1.1

/-- Only values of the group are renamed. -/
theorem source_mem_of_renameSingles {r : Renaming}
    (h : r ∈ (renameSingles readings inUse accumulators).2) :
    r.source ∈ accumulators.map Accumulator.output := by
  induction accumulators generalizing inUse with
  | nil => cases h
  | cons a rest ih =>
    rcases renameSingles_cons readings inUse a rest with
      ⟨member, _, heq⟩ | heq
    · rw [heq] at h
      rcases List.mem_cons.mp h with rfl | h
      · exact List.mem_cons_self
      · exact List.mem_cons_of_mem _ (ih h)
    · rw [heq] at h
      exact List.mem_cons_of_mem _ (ih h)

/-- A name of the renamed values is a name they had, or one that was not in use. -/
theorem output_renameSingles {a : Accumulator}
    (h : a ∈ (renameSingles readings inUse accumulators).1) :
    a.output ∈ accumulators.map Accumulator.output ∨ a.output ∉ inUse := by
  induction accumulators generalizing inUse with
  | nil => cases h
  | cons b rest ih =>
    rcases renameSingles_cons readings inUse b rest with
      ⟨member, free, heq⟩ | heq
    · rw [heq] at h
      rcases List.mem_cons.mp h with rfl | h
      · exact .inr (notMem_of_isFreeName free)
      · rcases ih h with had | unused
        · exact .inl (List.mem_cons_of_mem _ had)
        · exact .inr fun used => unused (List.mem_cons_of_mem _ used)
    · rw [heq] at h
      rcases List.mem_cons.mp h with rfl | h
      · exact .inl List.mem_cons_self
      · rcases ih h with had | unused
        · exact .inl (List.mem_cons_of_mem _ had)
        · exact .inr unused

/-- **Names stay distinct.** A name that is given is not in use, and from then on it is. -/
theorem nodup_renameSingles (distinct : (accumulators.map Accumulator.output).Nodup)
    (used : ∀ a ∈ accumulators, a.output ∈ inUse) :
    ((renameSingles readings inUse accumulators).1.map Accumulator.output).Nodup := by
  induction accumulators generalizing inUse with
  | nil => exact List.nodup_nil
  | cons a rest ih =>
    rw [List.map_cons, List.nodup_cons] at distinct
    have rest_used : ∀ b ∈ rest, b.output ∈ inUse := by
      intro b hb
      exact used b (List.mem_cons_of_mem _ hb)
    rcases renameSingles_cons readings inUse a rest with
      ⟨member, free, heq⟩ | heq
    · have unused := notMem_of_isFreeName free
      rw [heq, List.map_cons, List.nodup_cons]
      constructor
      · intro hmem
        obtain ⟨b, hb, hbmember⟩ := List.mem_map.mp hmem
        have hbmember : b.output = member := hbmember
        rcases output_renameSingles hb with had | unused'
        · obtain ⟨b', hb', heq'⟩ := List.mem_map.mp had
          exact unused (hbmember ▸ heq' ▸ rest_used b' hb')
        · exact unused' (hbmember ▸ List.mem_cons_self)
      · exact ih distinct.2 fun b hb => List.mem_cons_of_mem _ (rest_used b hb)
    · rw [heq, List.map_cons, List.nodup_cons]
      constructor
      · intro hmem
        obtain ⟨b, hb, hba⟩ := List.mem_map.mp hmem
        rcases output_renameSingles hb with had | unused
        · exact distinct.1 (hba ▸ had)
        · exact unused (hba ▸ used a List.mem_cons_self)
      · exact ih distinct.2 rest_used

/-- The values of the group are those it had, each under its new name. -/
theorem renameSingles_eq_map (distinct : (accumulators.map Accumulator.output).Nodup) :
    (renameSingles readings inUse accumulators).1 = accumulators.map fun a =>
      { a with
        output := renamed (renameSingles readings inUse accumulators).2 a.output } := by
  induction accumulators generalizing inUse with
  | nil => rfl
  | cons a rest ih =>
    rw [List.map_cons, List.nodup_cons] at distinct
    have later (inUse : List String) :
        a.output ∉ (renameSingles readings inUse rest).2.map Renaming.source := by
      intro hmem
      obtain ⟨r, hr, heq⟩ := List.mem_map.mp hmem
      exact distinct.1 (heq ▸ source_mem_of_renameSingles hr)
    rcases renameSingles_cons readings inUse a rest with
      ⟨member, free, heq⟩ | heq
    · rw [heq]
      rw [List.map_cons, List.cons_eq_cons]
      constructor
      · have named := renamed_cons_self (r := ⟨a.output, member⟩) (later (member :: inUse))
        exact congrArg (fun output => { a with output }) named.symm
      · refine (ih distinct.2).trans (List.map_congr_left ?_)
        intro b hb
        have hne : a.output ≠ b.output := by
          intro same
          exact distinct.1 (same ▸ List.mem_map_of_mem hb)
        exact congrArg (fun output => { b with output })
          (renamed_cons_of_ne (r := ⟨a.output, member⟩) hne).symm
    · rw [heq]
      refine List.cons_eq_cons.mpr ⟨?_, ih distinct.2⟩
      exact congrArg (fun output => { a with output }) (renamed_of_notMem (later inUse)).symm

end Renaming

/-! ### The rows of the merged group -/

section Merging

variable {engine : Engine} {readings : List Reading} {accumulators : List Accumulator}
  {g : Option Value × List Value}

theorem names_groupRow :
    (("_id", g.1) :: accumulators.map fun a =>
      (a.output, engine.accumulate a.kind a.source g.2)).map Prod.fst =
    "_id" :: accumulators.map Accumulator.output := by
  simp [Function.comp_def]

theorem read_groupRow_key (distinct : ("_id" :: accumulators.map Accumulator.output).Nodup) :
    engine.read "_id" (some (groupRow engine accumulators g)) = g.1 := by
  refine Engine.read_ofPresent ?_ List.mem_cons_self
  rwa [names_groupRow]

theorem read_groupRow (distinct : ("_id" :: accumulators.map Accumulator.output).Nodup)
    {a : Accumulator} (h : a ∈ accumulators) :
    engine.read a.output (some (groupRow engine accumulators g)) =
      engine.accumulate a.kind a.source g.2 := by
  refine Engine.read_ofPresent ?_ (List.mem_cons_of_mem _ (List.mem_map.mpr ⟨a, h, rfl⟩))
  rwa [names_groupRow]

/-- The values that are read keep their order. -/
theorem outputs_kept_sublist (accumulators : List Accumulator) (readings : List Reading) :
    ((accumulators.filter fun a => readings.any (·.field == a.output)).map
      Accumulator.output).Sublist (accumulators.map Accumulator.output) :=
  List.filter_sublist.map _

/-- The fields of the merged group have distinct names, none of them that of the key. -/
theorem nodup_mergeReadings
    (distinct : ("_id" :: accumulators.map Accumulator.output).Nodup) :
    ("_id" :: (mergeReadings accumulators readings).1.map Accumulator.output).Nodup := by
  rw [List.nodup_cons] at distinct
  have kept := outputs_kept_sublist accumulators readings
  rw [List.nodup_cons]
  constructor
  · intro hmem
    obtain ⟨a, ha, hid⟩ := List.mem_map.mp hmem
    rcases output_renameSingles ha with had | unused
    · exact distinct.1 (hid ▸ kept.subset had)
    · exact unused (hid ▸ by simp)
  · refine nodup_renameSingles (distinct.2.sublist kept) ?_
    intro a ha
    exact List.mem_append_left _ (List.mem_map_of_mem ha)

/-- **What the projection read is found under its new name.** -/
theorem read_merged (distinct : ("_id" :: accumulators.map Accumulator.output).Nodup)
    {r : Reading} (hr : r ∈ readings) (produced : produces accumulators r.field = true) :
    engine.read (renamed (mergeReadings accumulators readings).2 r.field)
        (some (groupRow engine (mergeReadings accumulators readings).1 g)) =
      engine.read r.field (some (groupRow engine accumulators g)) := by
  have distinct' := distinct
  rw [List.nodup_cons] at distinct'
  have kept := outputs_kept_sublist accumulators readings
  by_cases hid : r.field = "_id"
  · have unnamed : r.field ∉
        (mergeReadings accumulators readings).2.map Renaming.source := by
      intro hmem
      obtain ⟨s, hs, heq⟩ := List.mem_map.mp hmem
      have hsource := kept.subset (source_mem_of_renameSingles hs)
      exact distinct'.1 (hid ▸ heq ▸ hsource)
    rw [renamed_of_notMem unnamed, hid, read_groupRow_key distinct,
      read_groupRow_key (nodup_mergeReadings distinct)]
  · obtain ⟨a, ha, hfield⟩ : ∃ a ∈ accumulators, a.output = r.field := by
      simpa [produces, hid] using produced
    have hkept : a ∈ accumulators.filter fun a => readings.any (·.field == a.output) := by
      rw [List.mem_filter]
      exact ⟨ha, List.any_eq_true.mpr ⟨r, hr, by simp [hfield]⟩⟩
    have hmerged : { a with
        output := renamed (mergeReadings accumulators readings).2 a.output } ∈
        (mergeReadings accumulators readings).1 := by
      have heq : (mergeReadings accumulators readings).1 = _ :=
        renameSingles_eq_map (distinct'.2.sublist kept)
      rw [heq]
      exact List.mem_map.mpr ⟨a, hkept, rfl⟩
    rw [← hfield, read_groupRow distinct ha]
    exact read_groupRow (nodup_mergeReadings distinct) hmerged

end Merging

/-! ### The rows of the projection -/

/-- Where names are distinct, looking up that of an element finds the element. -/
theorem find?_of_distinct {α : Type} {name : α → String} {as : List α} {a : α}
    (distinct : (as.map name).Nodup) (h : a ∈ as) :
    as.find? (name · == name a) = some a := by
  have found : (as.find? (name · == name a)).isSome := by
    rw [List.find?_isSome]
    exact ⟨a, h, beq_self_eq_true _⟩
  obtain ⟨b, hfound⟩ := Option.isSome_iff_exists.mp found
  have named : name b = name a := by simpa using List.find?_some hfound
  rw [hfound, List.inj_on_of_nodup_map distinct (List.mem_of_find?_eq_some hfound) h named]

/-- Where members are distinct, each is read from the element it is listed with. -/
theorem Elements.find?_of_mem {e : Elements} {member element : String}
    (distinct : (e.entries.map Prod.fst).Nodup) (h : (member, element) ∈ e.entries) :
    e.find? member = some element := by
  have distinct' : (e.entries.reverse.map Prod.fst).Nodup := by
    rwa [List.map_reverse, List.nodup_reverse]
  have found := find?_of_distinct distinct' (List.mem_reverse.mpr h)
  rw [Elements.find?, found]
  rfl

section Projection

variable {engine : Engine} {row row' : Value} {renamings : List Renaming}

/-- A term that reads one field has the value of the field. -/
theorem Term.valueIn_topField {t : Term} {name : String} (h : t.topField? = some name) :
    t.valueIn engine row = engine.read name (some row) := by
  unfold Term.topField? at h
  split at h
  · obtain rfl := Option.some.inj h
    rfl
  · cases h

/-- The readings of a record: one for each member, of the field that it reads. -/
theorem readings_of_fields {fields : List (String × Term)} {readings : List Reading}
    (h : fields.mapM (fun f => f.2.topField?.map (Reading.mk f.1)) = some readings) :
    readings.map Reading.member = fields.map Prod.fst ∧
      ∀ f ∈ fields, ∃ name, f.2.topField? = some name ∧ ⟨f.1, name⟩ ∈ readings := by
  induction fields generalizing readings with
  | nil =>
    cases h
    exact ⟨rfl, nofun⟩
  | cons f fields ih =>
    simp only [List.mapM_cons, Option.bind_eq_bind, Option.bind_eq_some_iff,
      Option.map_eq_some_iff, Option.pure_def, Option.some.injEq] at h
    obtain ⟨r, ⟨name, hname, rfl⟩, rest, hrest, rfl⟩ := h
    obtain ⟨members, read⟩ := ih hrest
    constructor
    · rw [List.map_cons, List.map_cons, members]
    · intro f' hf'
      rcases List.mem_cons.mp hf' with rfl | hf'
      · exact ⟨name, hname, List.mem_cons_self⟩
      · obtain ⟨name', hname', hmem⟩ := read f' hf'
        exact ⟨name', hname', List.mem_cons_of_mem _ hmem⟩

section Decoding

variable {readings : List Reading}
  (found : ∀ r ∈ readings, engine.read (renamed renamings r.field) (some row') =
    engine.read r.field (some row))
include found

/-- Where a projection reads fields into a record, a member is found under the new name of
its field. -/
theorem decode_readFrom_record {fields : List (String × Term)}
    (distinct : (fields.map Prod.fst).Nodup)
    (hreadings : readings? (.document fields) (Term.document fields).rowCodec =
      some readings) :
    ((Term.document fields).rowCodec.readFrom
        ⟨readings.map fun r => (r.member, elementOf renamings r)⟩).decode engine row' =
      (Term.document fields).rowCodec.decode engine
        (projectedRow engine (.document fields) row) := by
  obtain ⟨names, read⟩ := readings_of_fields hreadings
  have listed : (readings.map fun r => (r.member, elementOf renamings r)).map Prod.fst =
      fields.map Prod.fst := by
    rw [← names, List.map_map]
    rfl
  simp only [Term.rowCodec, Term.codec, ClassMap.ofRecord, RowCodec.readFrom,
    RowCodec.decode, ClassMap.members, Term.fieldCodecs_eq, List.map_map, projectedRow]
  refine congrArg DecodedRow.members (List.map_congr_left ?_)
  intro f hf
  obtain ⟨name, hname, hmem⟩ := read f hf
  have element : Elements.find?
      ⟨readings.map fun r => (r.member, elementOf renamings r)⟩ f.1 =
      some (renamed renamings name) :=
    Elements.find?_of_mem (listed ▸ distinct) (List.mem_map.mpr ⟨_, hmem, rfl⟩)
  have projected : engine.read f.1 (some (.document (Document.ofPresent
      (Term.evalFields engine ⟨row, []⟩ fields)))) = engine.read name (some row) := by
    rw [← Term.valueIn_topField hname]
    refine Engine.read_ofPresent ?_ ?_
    · rwa [Term.map_fst_evalFields]
    · rw [Term.evalFields_eq]
      exact List.mem_map.mpr ⟨f, hf, rfl⟩
  simp only [Function.comp_apply, Member.readFrom, Member.name, Member.type, Member.element,
    element, projected]
  rw [found _ hmem]

/-- Where it reads one field as a value, the value is found under the new name of the
field. -/
theorem decode_readFrom_value {path : FieldPath} {codec : Codec}
    (hreadings : readings? (.field path codec) (Term.field path codec).rowCodec =
      some readings) :
    ((Term.field path codec).rowCodec.readFrom
        ⟨readings.map fun r => (r.member, elementOf renamings r)⟩).decode engine row' =
      (Term.field path codec).rowCodec.decode engine
        (projectedRow engine (.field path codec) row) := by
  by_cases isRoot : path.isRoot = true
  · simp [Term.rowCodec, isRoot, readings?] at hreadings
  · simp only [Term.rowCodec, isRoot, readings?] at hreadings ⊢
    obtain ⟨name, hname, rfl⟩ := Option.map_eq_some_iff.mp hreadings
    have element : Elements.find?
        ⟨[⟨valueField, name⟩].map fun r => (r.member, elementOf renamings r)⟩ valueField =
        some (renamed renamings name) :=
      Elements.find?_of_mem (by simp) (by simp [elementOf_eq_renamed])
    have projected : engine.read valueField
        (some (projectedRow engine (.field path codec) row)) = engine.read name (some row) := by
      rw [← Term.valueIn_topField hname]
      exact Engine.read_ofPresent (by simp) (by simp)
    simp only [Bool.false_eq_true, if_false, RowCodec.readFrom, RowCodec.decode, element,
      Option.getD_some, projected]
    rw [found _ List.mem_cons_self]

/-- **Reading by the new names.** If each field that a projection reads is found in
another row under its new name, the other row is read as the projected one. -/
theorem decode_readFrom {selector : Term}
    (members : ∀ fields, selector = .document fields → (fields.map Prod.fst).Nodup)
    (hreadings : readings? selector selector.rowCodec = some readings) :
    (selector.rowCodec.readFrom
        ⟨readings.map fun r => (r.member, elementOf renamings r)⟩).decode engine row' =
      selector.rowCodec.decode engine (projectedRow engine selector row) := by
  cases selector with
  | document fields => exact decode_readFrom_record found (members fields rfl) hreadings
  | field path codec => exact decode_readFrom_value found hreadings
  | _ => simp [Term.rowCodec, readings?, Term.topField?] at hreadings

end Decoding

end Projection

/-! ### Plans -/

namespace Plan

variable {engine : Engine} {p : Plan} {before : List Stage} {id selector : Term}
  {accumulators : List Accumulator}

/-- Merging does nothing, or it replaces a group and the projection behind it. -/
theorem mergeProjection_cases (p : Plan) :
    p.mergeProjection = p ∨
      ∃ before id accumulators selector readings,
        p.stages = before ++ [.group id accumulators, .project selector] ∧
        readings? selector p.output = some readings ∧
        (∀ r ∈ readings, produces accumulators r.field = true) ∧
        p.mergeProjection = { p with
          stages := before ++ [.group id (mergeReadings accumulators readings).1]
          output := p.output.readFrom ⟨readings.map fun r =>
            (r.member, elementOf (mergeReadings accumulators readings).2 r)⟩ } := by
  unfold mergeProjection
  split
  · rename_i selector id accumulators before hstages
    split
    · exact .inl rfl
    · rename_i readings hreadings
      split
      · rename_i produced
        refine .inr ⟨before.reverse, id, accumulators, selector, readings, ?_, hreadings,
          List.all_eq_true.mp produced, rfl⟩
        simpa using congrArg List.reverse hstages
      · exact .inl rfl
  · exact .inl rfl

/-- **Merging a projection into its group keeps the decoded rows**, and the fields of
the merged group keep distinct names. -/
theorem decoded_mergeProjection (engine : Engine) (finished : p.IsFinished)
    (rows : List Value) :
    p.mergeProjection.decoded engine rows = p.decoded engine rows ∧
      ∀ s ∈ p.mergeProjection.stages, s.HasDistinctFields := by
  rcases mergeProjection_cases p with
    same | ⟨before, id, accumulators, selector, readings, hstages, hreadings, produced, heq⟩
  · rw [same]
    exact ⟨rfl, finished.groups⟩
  · have last : p.stages.getLast? = some (.project selector) := by simp [hstages]
    have distinct : ("_id" :: accumulators.map Accumulator.output).Nodup :=
      finished.groups (.group id accumulators) (by simp [hstages])
    have output := finished.output selector last
    rw [heq]
    constructor
    · simp only [decoded, hstages, Stage.runAll_append, Stage.runAll_cons, Stage.runAll_nil]
      generalize Stage.runAll engine before rows = grouped
      simp only [Stage.run, List.map_map]
      refine List.map_congr_left ?_
      intro g _
      simp only [Function.comp_apply, output]
      refine decode_readFrom ?_ ?_ (output ▸ hreadings)
      · intro r hr
        exact read_merged distinct hr (produced r hr)
      · rintro fields rfl
        exact finished.members fields last
    · intro s hs
      rcases List.mem_append.mp hs with hbefore | hgroup
      · exact finished.groups s (by simp [hstages, hbefore])
      · obtain rfl := List.mem_singleton.mp hgroup
        exact nodup_mergeReadings distinct

/-- A group of all rows and a projection of it, with a member that has the name of the
key and one that shares its value. -/
def countedTwice : Plan where
  stages := [
    .group (.int32 1) [⟨0, .count, .int32 1, "__agg0", .int32⟩, ⟨0, .max, .int32 1, "N", .int32⟩],
    .project (.document [("_id", .field (.field "__agg0") .int32),
      ("N", .field (.field "__agg0") .int32), ("Most", .field (.field "N") .int32)])]
  output := .rows (.document
    (.ofRecord [("_id", .int32), ("N", .int32), ("Most", .int32)]))
  result := none

/-- An engine that takes all rows as one group and counts them for every value. -/
def counting : Engine :=
  { Engine.folding with
    groups := fun _ rows => [(some .null, rows)]
    accumulate := fun _ _ rows => some (.int32 (.ofInt rows.length)) }

theorem decoded_countedTwice :
    countedTwice.IsFinished ∧
      countedTwice.mergeProjection.decoded counting [.null] =
        countedTwice.decoded counting [.null] := by
  have finished : countedTwice.IsFinished := by
    constructor
    · intro selector h
      obtain rfl := Stage.project.inj (Option.some.inj h)
      rfl
    · intro fields h
      obtain rfl := Term.document.inj (Stage.project.inj (Option.some.inj h))
      decide
    · intro s hs
      rcases List.mem_cons.mp hs with rfl | hs
      · exact (by decide : ["_id", "__agg0", "N"].Nodup)
      · obtain rfl := List.mem_singleton.mp hs
        trivial
  exact ⟨finished, (decoded_mergeProjection _ finished _).1⟩

end Plan

end QueryPipeline
