import QueryPipeline.Proofs.Binding.Throughout
import QueryPipeline.Proofs.Closed

/-!
What a projection is made of. To the server a bare number or truth value in a projection says
whether a field is kept, and a document is a projection itself, so no value may be written
bare there: each is a path, a literal, an operator, or a projection again (`Value.Projected`).
The one term that is written as another one is a slice without bounds, which could be a
constant; binding makes none (`Term.HasBounds`), and resolving groups adds none, so whatever a
compiled query projects is computed (`Query.projections_compute`).
-/

namespace QueryPipeline

/-- The operators that expressions are written with. -/
def expressionOperators : List String :=
  ["$add", "$subtract", "$multiply", "$divide", "$mod", "$eq", "$ne", "$lt", "$lte", "$gt",
    "$gte", "$and", "$or", "$not", "$cond", "$filter", "$map", "$anyElementTrue",
    "$allElementsTrue", "$setUnion", "$setDifference", "$setIntersection", "$size", "$in",
    "$arrayElemAt", "$slice", "$sum", "$avg", "$min", "$max", "$sortArray", "$getField"]

/-- A value that a projection computes: a text that is read as a path, a literal, an operator,
or a projection again. -/
inductive Value.Projected : Value → Prop where
  | path {rest : String} : Projected (.string ("$" ++ rest))
  | literal {v : Value} : Projected v.marked
  | operator {name : String} {arguments : Value} :
      name ∈ expressionOperators → Projected (.operator name arguments)
  | projection {fields : Document} : (∀ f ∈ fields, Projected f.2) → Projected (.document fields)

/-- A value that a projection computes is a text with a dollar sign in front, or a document. -/
theorem Value.Projected.form {v : Value} (h : v.Projected) :
    (∃ rest, v = .string ("$" ++ rest)) ∨ ∃ fields, v = .document fields := by
  cases h with
  | path => exact .inl ⟨_, rfl⟩
  | literal | operator | projection => exact .inr ⟨_, rfl⟩

/-- The identifier is left out by a number, which computes nothing. -/
theorem Value.not_projected_zero : ¬ (Value.int32 0).Projected := by
  intro h
  rcases h.form with ⟨rest, h⟩ | ⟨fields, h⟩ <;> cases h

/-! ### Slices with bounds -/

namespace Term

/-- If the term is a slice, it has a bound. -/
def HasBounds : Term → Prop
  | .slice _ bounds => bounds ≠ {}
  | _ => True

/-- Binding makes slices with bounds only. -/
theorem inherits_hasBounds (registry : Registry) : Pipeline.Inherits registry HasBounds where
  other {t} h := by
    cases t with
    | slice => cases h
    | _ => trivial
  record _ := trivial
  slice h := h
  child _ _ _ := trivial
  row _ := trivial
  reread _ _ := trivial

/-- Other parts leave the bounds of a slice as they are. -/
theorem HasBounds.withChildren {t : Term} (h : t.HasBounds) (parts : List Term) :
    (t.withChildren parts).HasBounds := by
  unfold Term.withChildren
  split <;> exact h

theorem Everywhere.withChildren {t : Term} {parts : List Term} (h : t.Everywhere HasBounds)
    (length : parts.length = t.children.length) (hparts : ∀ u ∈ parts, u.Everywhere HasBounds) :
    (t.withChildren parts).Everywhere HasBounds :=
  everywhere_iff.mpr ⟨h.self.withChildren parts, by rwa [children_withChildren length]⟩

/-- The record of a group has the bounds of its key and its elements. -/
theorem Everywhere.record {group : Nat} {key element : Term} {distinct : Bool}
    {kind : AccumulatorKind} {output : String} {codec : Codec}
    (h : (Term.grouping group key element none distinct).Everywhere HasBounds) :
    (Term.document [("Key", key), ("Elements",
      .accumulator group kind element output codec)]).Everywhere HasBounds := by
  have hkey : key.Everywhere HasBounds := h.child (by simp [children])
  have helement : element.Everywhere HasBounds := h.child (by simp [children])
  have helements : (Term.accumulator group kind element output codec).Everywhere HasBounds :=
    everywhere_iff.mpr ⟨trivial, List.forall_mem_singleton.mpr helement⟩
  exact everywhere_iff.mpr ⟨trivial, by simp [children, hkey, helements]⟩

/-- Replacing accumulators by fields leaves bounds as they are. -/
theorem Attached.hasBounds {computes : Accumulator → Prop} {t u : Term}
    (h : t.Attached computes u) (bounds : t.Everywhere HasBounds) : u.Everywhere HasBounds := by
  induction h with
  | accumulator => exact everywhere_field trivial
  | @other t parts _ length _ ih =>
    refine bounds.withChildren length ?_
    have related : List.Forall₂ (fun t u => t.Everywhere HasBounds → u.Everywhere HasBounds)
        t.children parts := List.forall₂_iff_zip.mpr ⟨length.symm, fun hmem => ih _ hmem⟩
    intro v hv
    obtain ⟨u, hu, huv⟩ := exists_of_mem_right related hv
    exact huv (bounds.child hu)

end Term

/-- Turning groups into records leaves bounds as they are. -/
theorem groupsToRecords_hasBounds :
    groupsToRecords.Sound (fun s => s.fault = none) (fun _ => True) (fun _ => True)
      (fun t u => t.Everywhere Term.HasBounds → u.Everywhere Term.HasBounds) :=
  groupsToRecords_keeps Term.Everywhere.child Term.Everywhere.withChildren .record

/-! ### Values -/

theorem BinaryOp.emit_mem (op : BinaryOp) : op.emit ∈ expressionOperators := by
  cases op <;> decide

theorem SetOp.emit_mem (op : SetOp) : op.emit ∈ expressionOperators := by
  cases op <;> decide

theorem ReduceOp.emit_mem (op : ReduceOp) : op.emit ∈ expressionOperators := by
  cases op <;> decide

/-- A path is written with a dollar sign in front. -/
theorem FieldPath.text_eq (path : FieldPath) : ∃ rest, path.text = "$" ++ rest := by
  have two : "$$" = "$" ++ "$" := rfl
  unfold text
  split
  · exact ⟨"$ROOT", rfl⟩
  · exact ⟨_, rfl⟩
  · exact ⟨"$" ++ _, by rw [two, String.append_assoc]⟩
  · rename_i var _ _
    exact ⟨"$" ++ (var ++ ("." ++ path.dotted)), by simp only [two, String.append_assoc]⟩

theorem FieldPath.projected_of_emit {scope : List String} {path : FieldPath} {v : Value}
    (h : path.emit scope = .ok v) : v.Projected := by
  obtain ⟨rest, htext⟩ := path.text_eq
  unfold emit at h
  split at h
  · cases h
    exact htext ▸ .path
  · split at h
    · cases h
      exact htext ▸ .path
    · cases h

/-- A slice with a bound is written as an operator. -/
theorem Bounds.projected_emit {bounds : Bounds} (h : bounds ≠ {}) (array : Value) :
    (bounds.emit array).Projected := by
  unfold emit
  split
  · rename_i hskip hlimit
    obtain ⟨skip, limit⟩ := bounds
    cases hskip
    cases hlimit
    exact absurd rfl h
  · exact .operator (by decide)
  · exact .operator (by decide)

namespace Term

/-- The fields of a projection are written one by one, under their names. -/
theorem fields_of_emitProjectedFields {fields : List (String × Term)} {written : Document}
    (h : emitProjectedFields fields = .ok written) :
    List.Forall₂ (fun f w => w.1 = f.1 ∧ f.2.emitProjected = .ok w.2) fields written := by
  induction fields generalizing written with
  | nil =>
    cases h
    exact .nil
  | cons f rest ih =>
    simp only [emitProjectedFields, bind_eq_ok, pure_eq_ok] at h
    obtain ⟨v, hv, ws, hws, rfl⟩ := h
    exact .cons ⟨rfl, hv⟩ (ih hws)

/-- **What a term is written as in a projection** is a value that a projection computes. -/
theorem projected_of_emitProjected {t : Term} {v : Value} (bounds : t.Everywhere HasBounds)
    (h : t.emitProjected = .ok v) : v.Projected := by
  induction t using inductionOn generalizing v with
  | step t ih =>
    cases t with
    | const value codec =>
      cases h
      exact .literal
    | document fields =>
      simp only [emitProjected, bind_eq_ok, pure_eq_ok] at h
      obtain ⟨written, hwritten, rfl⟩ := h
      refine .projection ?_
      intro w hw
      obtain ⟨f, hf, -, hvalue⟩ := exists_of_mem_right (fields_of_emitProjectedFields hwritten) hw
      have hpart : f.2 ∈ (Term.document fields).children := List.mem_map_of_mem hf
      exact ih f.2 hpart (bounds.child hpart) hvalue
    | field | item =>
      simp only [emitProjected, emit] at h
      exact FieldPath.projected_of_emit h
    | slice array b =>
      simp only [emitProjected, emit, bind_eq_ok, pure_eq_ok] at h
      obtain ⟨written, -, rfl⟩ := h
      exact Bounds.projected_emit bounds.self written
    | accumulator | grouping => cases h
    | binary op =>
      simp only [emitProjected, emit, bind_eq_ok, pure_eq_ok] at h
      obtain ⟨_, -, _, -, rfl⟩ := h
      exact .operator op.emit_mem
    | setOp op | reduce op =>
      simp only [emitProjected, emit, bind_eq_ok, pure_eq_ok] at h
      obtain ⟨_, -, rfl⟩ := h
      exact .operator op.emit_mem
    | unary op =>
      cases op with
      | not | negate =>
        simp only [emitProjected, emit, bind_eq_ok, pure_eq_ok] at h
        obtain ⟨_, -, rfl⟩ := h
        exact .operator (by decide)
    | contained | elemAt | filter | map | sortArray =>
      simp only [emitProjected, emit, bind_eq_ok, pure_eq_ok] at h
      obtain ⟨_, -, _, -, rfl⟩ := h
      exact .operator (by decide)
    | cond =>
      simp only [emitProjected, emit, bind_eq_ok, pure_eq_ok] at h
      obtain ⟨_, -, _, -, _, -, rfl⟩ := h
      exact .operator (by decide)
    | anyTrue | allTrue | size | getField =>
      simp only [emitProjected, emit, bind_eq_ok, pure_eq_ok] at h
      obtain ⟨_, -, rfl⟩ := h
      exact .operator (by decide)

/-- The members that a projection computes: those of its selector, or its value under a name
of its own. -/
def projectedFields : Term → List (String × Term)
  | .document fields => fields
  | t => [(valueField, t)]

theorem Everywhere.projectedFields {holds : Term → Prop} {t : Term} (h : t.Everywhere holds) :
    ∀ f ∈ t.projectedFields, f.2.Everywhere holds := by
  unfold Term.projectedFields
  split
  · exact fun f hf => h.child (List.mem_map_of_mem hf)
  · exact List.forall_mem_singleton.mpr h

/-- A projection writes its members one by one, with the identifier left out in front unless it
is one of them. -/
theorem fields_of_emitProjection {selector : Term} {d : Document}
    (h : selector.emitProjection = .ok d) :
    ∃ written, List.Forall₂ (fun f w => w.1 = f.1 ∧ f.2.emitProjected = .ok w.2)
        selector.projectedFields written ∧
      d = if Document.contains written "_id" then written else ("_id", .int32 0) :: written := by
  cases selector with
  | document fields =>
    simp only [emitProjection, bind_eq_ok, pure_eq_ok] at h
    obtain ⟨written, hwritten, rfl⟩ := h
    exact ⟨written, fields_of_emitProjectedFields hwritten, rfl⟩
  | _ =>
    simp only [emitProjection, bind_eq_ok, pure_eq_ok] at h
    obtain ⟨v, hv, written, rfl, rfl⟩ := h
    exact ⟨_, .cons ⟨rfl, hv⟩ .nil, rfl⟩

/-- The names of its members are those of the selector, and their values are computed. -/
theorem projected_of_emitProjection {selector : Term} {d : Document}
    (bounds : selector.Everywhere HasBounds) (h : selector.emitProjection = .ok d) :
    ∃ leading fields, d = leading ++ fields ∧
      leading = (if "_id" ∈ selector.projectedFields.map Prod.fst then []
        else [("_id", .int32 0)]) ∧
      fields.map Prod.fst = selector.projectedFields.map Prod.fst ∧
      ∀ f ∈ fields, f.2.Projected := by
  obtain ⟨written, related, rfl⟩ := fields_of_emitProjection h
  have names : written.map Prod.fst = selector.projectedFields.map Prod.fst := by
    rw [← List.forall₂_eq_eq_eq, List.forall₂_map_left_iff, List.forall₂_map_right_iff]
    exact related.flip.imp fun _ _ hwritten => hwritten.1
  have listed : Document.contains written "_id" = true ↔
      "_id" ∈ selector.projectedFields.map Prod.fst := by
    simp [← names, Document.contains]
  refine ⟨_, written, ?_, rfl, names, ?_⟩
  · simp only [listed]
    split <;> rfl
  · intro w hw
    obtain ⟨f, hf, -, hvalue⟩ := exists_of_mem_right related hw
    exact projected_of_emitProjected (bounds.projectedFields f hf) hvalue

end Term

/-! ### Pipelines -/

namespace Pipeline

open Term (HasBounds Everywhere)

variable {p p' : Pipeline}

/-- Resolving groups leaves the bounds in the projector as they are. -/
theorem hasBounds_of_resolveGroups {next : Nat} (h : p.projector.Everywhere HasBounds)
    (hp : p.resolveGroups next = .ok p') : p'.projector.Everywhere HasBounds := by
  obtain ⟨spelled, attached, hspelled, hattached, rfl⟩ := phases_of_resolveGroups hp
  obtain ⟨-, -, spelledOut, -⟩ := related_of_spellOutGroups groupsToRecords_hasBounds hspelled
  obtain ⟨found, collected⟩ := collected_of_eq_ok hattached
  have projector : attached.projector.Everywhere HasBounds :=
    collected.related.projector.1.hasBounds (spelledOut h)
  rcases reduceResult_cases attached with ⟨kept, -⟩ | ⟨a, codec, -, -, hprojector⟩
  · rwa [kept]
  · rw [hprojector]
    exact Term.everywhere_field trivial

/-- The stages of a resolved pipeline project nothing. -/
theorem noProjection_of_resolveGroups {next : Nat} (bound : p.Bound)
    (hp : p.resolveGroups next = .ok p') (t : Term) : Stage.project t ∉ p'.stages := by
  obtain ⟨spelled, attached, hspelled, hattached, rfl⟩ := phases_of_resolveGroups hp
  have spelledOut := spelledOut_of_eq_ok hspelled
  obtain ⟨found, collected⟩ := collected_of_eq_ok hattached
  have bare : ∀ s ∈ spelled.stages, s.isBare = true := spelledOut.stages ▸ bound.stages
  have noProjection := noProjection_of_related bare collected.related.stages
  rcases reduceResult_cases attached with ⟨kept, -⟩ | ⟨a, codec, -, hstages, -⟩
  · rw [kept]
    exact noProjection t
  · simp [hstages, flush, Bounds.stages, noProjection t]

/-- The one projection of a plan is its projector. -/
theorem projector_of_plan {t : Term} (noProjection : ∀ t, Stage.project t ∉ p.stages)
    (h : .project t ∈ p.plan.stages) : t = p.projector := by
  rcases List.mem_append.mp h with h | h
  · simp [flush, Bounds.stages, noProjection t] at h
  · split at h
    · cases h
    · exact Stage.project.inj (List.mem_singleton.mp h)

end Pipeline

/-- Merging a projection adds none. -/
theorem Plan.project_of_optimized {p : Plan} {o : Options} {t : Term}
    (h : .project t ∈ (p.optimized o).stages) : .project t ∈ p.stages := by
  unfold optimized at h
  split at h
  · rcases mergeProjection_cases p with same | ⟨before, id, _, _, _, hstages, -, -, heq⟩
    · rwa [same] at h
    · rw [heq] at h
      rcases List.mem_append.mp h with h | h
      · rw [hstages]
        exact List.mem_append_left _ h
      · cases List.mem_singleton.mp h
  · exact h

/-- What a projection stage is written as comes from a projection. -/
theorem Stage.project_of_emit {s : Stage} {queryLanguage : Bool} {v : Value}
    (h : s.emit queryLanguage = .ok [("$project", v)]) :
    ∃ selector d, s = .project selector ∧ selector.emitProjection = .ok d ∧ v = .document d := by
  cases s with
  | project selector =>
    simp only [emit, bind_eq_ok, pure_eq_ok] at h
    obtain ⟨d, hd, heq⟩ := h
    cases heq
    exact ⟨selector, d, rfl, hd, rfl⟩
  | filter predicate =>
    cases queryLanguage with
    | false | true =>
      simp only [emit, Bool.false_eq_true, if_false, if_true, bind_eq_ok, pure_eq_ok] at h
      obtain ⟨d, -, heq⟩ := h
      simp at heq
  | group | sort =>
    simp only [emit, bind_eq_ok, pure_eq_ok] at h
    obtain ⟨d, -, heq⟩ := h
    simp at heq
  | skip | limit | unwind => simp [emit] at h

/-! ### Queries -/

/-- **No value in a projection is read as a flag.** Whatever query compiles, a projection in its
pipeline is that of the rows that are left in the end. What it computes, under the names that
the rows have, are paths, literals, operators and projections of the same kind, and nothing
bare; the identifier is left out in front of them just if the rows have none. -/
theorem Query.projections_compute {registry : Registry} {q : Query} {o : Options}
    {command : Command} (h : q.compile registry o = .ok command) {v : Value}
    (hv : [("$project", v)] ∈ command.pipeline) :
    ∃ bound context resolved leading fields, q.bound registry = (.ok bound, context) ∧
      bound.resolveGroups context.minted = .ok resolved ∧
      Stage.project resolved.projector ∈ (resolved.plan.optimized o).stages ∧
      v = .document (leading ++ fields) ∧
      leading = (if "_id" ∈ resolved.projector.projectedFields.map Prod.fst then []
        else [("_id", .int32 0)]) ∧
      fields.map Prod.fst = resolved.projector.projectedFields.map Prod.fst ∧
      (∀ f ∈ fields, f.2.Projected) ∧ ("_id", .int32 0) ∉ fields := by
  obtain ⟨bound, context, resolved, hbound, hresolved, hpipeline⟩ := phases_of_compile h
  obtain ⟨s, hs, hwritten⟩ := exists_of_mapM_eq_ok hpipeline _ hv
  obtain ⟨selector, d, rfl, hd, rfl⟩ := Stage.project_of_emit hwritten
  obtain rfl : selector = resolved.projector :=
    Pipeline.projector_of_plan
      (Pipeline.noProjection_of_resolveGroups (Query.bind_bound hbound) hresolved)
      (Plan.project_of_optimized hs)
  have throughout : bound.Throughout Term.HasBounds :=
    Query.bind_throughout (Term.inherits_hasBounds registry) (fun _ => trivial) hbound
  have bounds := Pipeline.hasBounds_of_resolveGroups throughout.projector hresolved
  obtain ⟨leading, fields, rfl, hleading, names, computed⟩ :=
    Term.projected_of_emitProjection bounds hd
  exact ⟨bound, context, resolved, leading, fields, hbound, hresolved, hs, rfl, hleading, names,
    computed, fun hzero => Value.not_projected_zero (computed _ hzero)⟩

/-- The cities, each with a number that stands in a record of its own. -/
def labelledCities : Query where
  collection := "people"
  itemType := .document "Person"
  clauses := [
    ⟨"Queryable", "Select", [], [.lambda ["x"] (.new [
      ("City", .member (.param "x") "City"),
      ("Label", .new [("Rank", .const (.int32 1) .int32)])])]⟩]

/-- The number is marked, and the record is a projection again. -/
def labelledCitiesCommand : Command where
  collection := "people"
  pipeline := [[("$project", .document [
    ("_id", .int32 0),
    ("City", .string "$city"),
    ("Label", .document [("Rank", .marked (.int32 1))])])]]
  output := .rows (.document (.ofRecord [("City", .string),
    ("Label", .document (.ofRecord [("Rank", .int32)]))]))
  result := none

theorem labelledCities_compute :
    labelledCities.compile inhabitants {} = .ok labelledCitiesCommand ∧
      ∀ v, [("$project", v)] ∈ labelledCitiesCommand.pipeline →
        ∃ leading fields, v = .document (leading ++ fields) ∧ ∀ f ∈ fields, f.2.Projected := by
  have compiled : labelledCities.compile inhabitants {} = .ok labelledCitiesCommand := rfl
  refine ⟨compiled, fun v hv => ?_⟩
  obtain ⟨bound, context, resolved, leading, fields, -, -, -, heq, -, -, computed, -⟩ :=
    Query.projections_compute compiled hv
  exact ⟨leading, fields, heq, computed⟩

end QueryPipeline
