import QueryPipeline.Accumulation
import QueryPipeline.Binding.Apply
import QueryPipeline.Proofs.Term.Children

/-!
Where accumulators are read. A term of a pipeline is read before one of its stages, and
what stands inside an accumulator or a group is read over the rows that go into that group.
The accumulators that make sense at a place are those of the group stage before it: later
stages cannot see the fields of an earlier group, and a group has no fields before it runs.

`Term.ReadsAt` says which accumulators a term reads and where. `Term.Placed` is the
invariant that binding keeps: each of them belongs to the nearest group, or, inside a group
or one of its accumulators, to that group itself.
-/

namespace QueryPipeline

/-! ### Groups before a position -/

/-- Whether the stage at a position groups rows. -/
def isGroupAt (stages : List Stage) (i : Nat) : Bool := stages[i]?.any Stage.isGroup

/-- The position of the last group stage before a position. -/
def nearestGroup (stages : List Stage) : Nat → Option Nat
  | 0 => none
  | i + 1 => if isGroupAt stages i then some i else nearestGroup stages i

/-- The nearest group is a group before the position, with none in between. -/
theorem nearestGroup_eq_some_iff {stages : List Stage} {i g : Nat} :
    nearestGroup stages i = some g ↔
      g < i ∧ isGroupAt stages g ∧ ∀ k, g < k → k < i → isGroupAt stages k = false := by
  induction i with
  | zero => simp [nearestGroup]
  | succ i ih =>
    rw [nearestGroup]
    by_cases hi : isGroupAt stages i = true
    · rw [if_pos hi, Option.some.injEq]
      constructor
      · rintro rfl
        exact ⟨by omega, hi, fun k hlt hle => by omega⟩
      · rintro ⟨hlt, -, hnone⟩
        rcases Nat.lt_succ_iff_lt_or_eq.mp hlt with hlt | rfl
        · have hfalse := hnone i hlt (by omega)
          rw [hi] at hfalse
          cases hfalse
        · rfl
    · rw [if_neg hi, ih]
      constructor
      · rintro ⟨hlt, hg, hnone⟩
        refine ⟨by omega, hg, ?_⟩
        intro k hk hki
        by_cases heq : k = i
        · simpa [heq] using hi
        · exact hnone k hk (by omega)
      · rintro ⟨hlt, hg, hnone⟩
        have hne : g ≠ i := by
          rintro rfl
          exact hi hg
        exact ⟨by omega, hg, fun k hk hki => hnone k hk (by omega)⟩

/-- Only the stages before a position decide which group is nearest. -/
theorem nearestGroup_congr {stages stages' : List Stage} {i : Nat}
    (h : ∀ k < i, isGroupAt stages k = isGroupAt stages' k) :
    nearestGroup stages i = nearestGroup stages' i := by
  induction i with
  | zero => rfl
  | succ i ih =>
    simp only [nearestGroup, h i (by omega)]
    rw [ih fun k hk => h k (by omega)]

theorem isGroupAt_append {stages more : List Stage} {k : Nat} (h : k < stages.length) :
    isGroupAt (stages ++ more) k = isGroupAt stages k := by
  simp [isGroupAt, List.getElem?_append_left h]

theorem nearestGroup_append {stages more : List Stage} {i : Nat} (h : i ≤ stages.length) :
    nearestGroup (stages ++ more) i = nearestGroup stages i :=
  nearestGroup_congr fun _ hk => isGroupAt_append (by omega)

theorem nearestGroup_take {stages : List Stage} {i : Nat} :
    nearestGroup (stages.take i) i = nearestGroup stages i :=
  nearestGroup_congr fun k hk => by simp [isGroupAt, hk]

/-- Stages that are no groups leave the nearest group where it is. -/
theorem nearestGroup_append_of_not_group {stages more : List Stage}
    (h : ∀ s ∈ more, s.isGroup = false) :
    nearestGroup (stages ++ more) (stages ++ more).length =
      nearestGroup stages stages.length := by
  have passed (k : Nat) :
      nearestGroup (stages ++ more) (stages.length + k) =
        nearestGroup stages stages.length := by
    induction k with
    | zero => exact nearestGroup_append (Nat.le_refl _)
    | succ k ih =>
      have hk : isGroupAt (stages ++ more) (stages.length + k) = false := by
        rw [isGroupAt, List.getElem?_append_right (by omega), Nat.add_sub_cancel_left]
        cases hget : more[k]? with
        | none => rfl
        | some s => exact h s (List.mem_of_getElem? hget)
      rw [← Nat.add_assoc, nearestGroup, hk, ← ih]
      rfl
  rw [List.length_append]
  exact passed more.length

/-- A group stage at the end is the nearest group. -/
theorem nearestGroup_append_group {stages : List Stage} {s : Stage} (h : s.isGroup) :
    nearestGroup (stages ++ [s]) (stages ++ [s]).length = some stages.length := by
  rw [List.length_append, List.length_singleton, nearestGroup, if_pos]
  simp [isGroupAt, h]

/-! ### Places -/

/-- The terms of a stage. -/
def Stage.terms : Stage → List Term
  | .filter predicate => [predicate]
  | .project selector => [selector]
  | .group id accumulators => id :: accumulators.map Accumulator.source
  | .sort keys => keys.map RowKey.key
  | .skip _ | .limit _ | .unwind _ => []

/-- Where a term is read: before a stage, in the source of an accumulator, or as what
stands for the elements of a group. -/
inductive Place where
  | stage (position : Nat)
  | source (group : Nat)
  | elements (group : Nat)
deriving DecidableEq, Repr

/-- The position of the stage whose input is read. -/
def Place.position : Place → Nat
  | .stage position => position
  | .source group | .elements group => group

namespace Term

/-- Whether the term is an accumulator. -/
def isAccumulator : Term → Bool
  | .accumulator .. => true
  | _ => false

/-- Whether the parts of a term are read where the term is. -/
def isPlain : Term → Bool
  | .accumulator .. | .grouping .. => false
  | _ => true

/-- Other parts leave a term of its form. -/
theorem withChildren_form {t : Term} {parts : List Term} :
    (t.withChildren parts).isPlain = t.isPlain ∧
      (t.withChildren parts).isAccumulator = t.isAccumulator := by
  unfold withChildren
  split <;> exact ⟨rfl, rfl⟩

/-- The term, read at a first place, reads an accumulator at a second one. -/
inductive ReadsAt (a : Accumulator) : Term → Place → Place → Prop where
  | self {place} : ReadsAt a a.term place place
  | source {group kind source output codec place read} :
      ReadsAt a source (.source group) read →
      ReadsAt a (.accumulator group kind source output codec) place read
  | key {group key element predicate distinct place read} :
      ReadsAt a key place read →
      ReadsAt a (.grouping group key element predicate distinct) place read
  | element {group key element predicate distinct place read} :
      ReadsAt a element (.elements group) read →
      ReadsAt a (.grouping group key element predicate distinct) place read
  | predicate {group key element predicate distinct place read} :
      ReadsAt a predicate (.elements group) read →
      ReadsAt a (.grouping group key element (some predicate) distinct) place read
  | part {t u place read} :
      t.isPlain → u ∈ t.children → ReadsAt a u place read → ReadsAt a t place read

/-- A term without groups reads its accumulators where it stands itself, and in the
sources of others. -/
theorem ReadsAt.of_no_grouping {a : Accumulator} {t : Term} {place read : Place}
    (h : t.ReadsAt a place read) (bare : t.contains isGrouping = false) :
    read = place ∨ ∃ group, read = .source group := by
  have grouped {group key element predicate distinct}
      (bare : (Term.grouping group key element predicate distinct).contains isGrouping
        = false) : False := by
    rw [contains_of_self rfl] at bare
    cases bare
  induction h with
  | self => exact .inl rfl
  | source _ ih =>
    rcases ih (not_contains_child (by simp [children]) bare) with rfl | hsource
    · exact .inr ⟨_, rfl⟩
    · exact .inr hsource
  | key | element | predicate => exact (grouped bare).elim
  | part _ hu _ ih => exact ih (not_contains_child hu bare)

end Term

/-! ### Placement -/

namespace Place

/-- Whether the accumulators of a group may be read at a place, if `near` gives the nearest
group before each position. -/
def Sees (near : Nat → Option Nat) : Place → Nat → Prop
  | .stage position, group => near position = some group
  | .source outer, group | .elements outer, group => group = outer ∨ near outer = some group

/-- Whether the rows of a group may be read at a place. -/
def Holds (near : Nat → Option Nat) : Place → Nat → Prop
  | .stage position, group => near position = some group
  | .source outer, group | .elements outer, group => group = outer

variable {near : Nat → Option Nat} {place : Place} {group : Nat}

theorem Holds.sees (h : place.Holds near group) : place.Sees near group := by
  cases place with
  | stage => exact h
  | source | elements => exact .inl h

/-- What is seen where the rows of a group are read is seen over its elements. -/
theorem Holds.sees_elements (h : place.Holds near group) {g : Nat}
    (hg : place.Sees near g) : Place.Sees near (.elements group) g := by
  cases place with
  | stage =>
    obtain rfl : group = g := Option.some.inj (h.symm.trans hg)
    exact .inl rfl
  | source outer | elements outer =>
    obtain rfl : group = outer := h
    exact hg

theorem Holds.holds_elements (h : place.Holds near group) {g : Nat}
    (hg : place.Holds near g) : Place.Holds near (.elements group) g := by
  cases place with
  | stage => exact Option.some.inj (hg.symm.trans h)
  | source outer | elements outer => exact hg.trans h.symm

end Place

namespace Term

/-- The accumulators and groups of a term are those of the nearest group, or of a group
around them. -/
inductive Placed (near : Nat → Option Nat) : Place → Term → Prop where
  | accumulator {place group kind source output codec} :
      place.Sees near group → Placed near (.source group) source →
      Placed near place (.accumulator group kind source output codec)
  | grouping {place group key element predicate distinct} :
      place.Holds near group → key.contains isGrouping = false → Placed near place key →
      Placed near (.elements group) element →
      (∀ p ∈ predicate, Placed near (.elements group) p) →
      Placed near place (.grouping group key element predicate distinct)
  | plain {place t} :
      t.isPlain → (∀ u ∈ t.children, Placed near place u) → Placed near place t

namespace Placed

variable {near : Nat → Option Nat} {place : Place}

/-- The parts of a term that is neither an accumulator nor a group. -/
theorem parts {t : Term} (h : Placed near place t) (plain : t.isPlain) :
    ∀ u ∈ t.children, Placed near place u := by
  cases h with
  | accumulator | grouping => cases plain
  | plain _ parts => exact parts

theorem accumulator_sees {group kind source output codec}
    (h : Placed near place (.accumulator group kind source output codec)) :
    place.Sees near group ∧ Placed near (.source group) source := by
  cases h with
  | accumulator hsees hsource => exact ⟨hsees, hsource⟩
  | plain plain => cases plain

theorem grouping_holds {group key element predicate distinct}
    (h : Placed near place (.grouping group key element predicate distinct)) :
    (place.Holds near group ∧ key.contains isGrouping = false ∧ Placed near place key) ∧
      Placed near (.elements group) element ∧
      ∀ p ∈ predicate, Placed near (.elements group) p := by
  cases h with
  | grouping hholds hbare hkey helement hpredicate =>
    exact ⟨⟨hholds, hbare, hkey⟩, helement, hpredicate⟩
  | plain plain => cases plain

theorem const {v : Value} {codec : Codec} : Placed near place (.const v codec) :=
  .plain rfl nofun

theorem field {path : FieldPath} {codec : Codec} : Placed near place (.field path codec) :=
  .plain rfl nofun

/-- A term may be read wherever the same groups are seen. For a term without groups it is
enough that the same accumulators are. -/
theorem mono {place' : Place} {t : Term}
    (sees : ∀ g, place.Sees near g → place'.Sees near g)
    (holds : t.contains isGrouping → ∀ g, place.Holds near g → place'.Holds near g)
    (h : Placed near place t) : Placed near place' t := by
  induction h with
  | accumulator hsees hsource => exact .accumulator (sees _ hsees) hsource
  | grouping hholds hbare _ helement hpredicate ihkey =>
    refine .grouping (holds (contains_of_self rfl) _ hholds) hbare ?_ helement hpredicate
    exact ihkey sees fun hg => holds (contains_of_child (by simp [children]) hg)
  | plain plain _ ih =>
    exact .plain plain fun u hu => ih u hu sees fun hg => holds (contains_of_child hu hg)

/-- What is read beside the rows of a group may be read over its elements. -/
theorem over_elements {t : Term} {group : Nat} (hgroup : place.Holds near group)
    (h : Placed near place t) : Placed near (.elements group) t :=
  h.mono (fun _ => hgroup.sees_elements) fun _ _ => hgroup.holds_elements

/-- What stands for the elements of a group may be the source of an accumulator. -/
theorem as_source {t : Term} {group : Nat} (h : Placed near (.elements group) t) :
    Placed near (.source group) t := by
  refine h.mono ?_ ?_
  · intro _ hsees
    exact hsees
  · intro _ _ hholds
    exact hholds

/-- **Every accumulator that a placed term reads is seen where it is read.** -/
theorem reads {t : Term} {a : Accumulator} {read : Place} (h : Placed near place t)
    (hread : t.ReadsAt a place read) : read.Sees near a.group := by
  induction hread with
  | self => exact h.accumulator_sees.1
  | source _ ih => exact ih h.accumulator_sees.2
  | key _ ih => exact ih h.grouping_holds.1.2.2
  | element _ ih => exact ih h.grouping_holds.2.1
  | predicate _ ih => exact ih (h.grouping_holds.2.2 _ rfl)
  | part plain hu _ ih => exact ih (h.parts plain _ hu)

/-! ### Building terms -/

theorem of_one {t u : Term} (plain : t.isPlain) (parts : t.children = [u])
    (hu : Placed near place u) : Placed near place t := by
  refine .plain plain ?_
  rw [parts]
  intro v hv
  exact List.mem_singleton.mp hv ▸ hu

theorem of_two {t u v : Term} (plain : t.isPlain) (parts : t.children = [u, v])
    (hu : Placed near place u) (hv : Placed near place v) : Placed near place t := by
  refine .plain plain ?_
  rw [parts]
  simp [hu, hv]

theorem of_three {t u v w : Term} (plain : t.isPlain) (parts : t.children = [u, v, w])
    (hu : Placed near place u) (hv : Placed near place v) (hw : Placed near place w) :
    Placed near place t := by
  refine .plain plain ?_
  rw [parts]
  simp [hu, hv, hw]

theorem foldBinary {op : BinaryOp} {left right : Term} (hleft : Placed near place left)
    (hright : Placed near place right) : Placed near place (.foldBinary op left right) := by
  have built : Placed near place (.binary op left right) :=
    .of_two rfl rfl hleft hright
  unfold Term.foldBinary
  split
  · split
    · exact const
    · exact built
  · exact built

theorem foldUnary {op : UnaryOp} {operand : Term} (h : Placed near place operand) :
    Placed near place (.foldUnary op operand) := by
  unfold Term.foldUnary
  split
  · split
    · exact const
    · exact .of_one rfl rfl h
  · exact .of_one rfl rfl h

theorem foldCond {test ifTrue ifFalse : Term} (htest : Placed near place test)
    (htrue : Placed near place ifTrue) (hfalse : Placed near place ifFalse) :
    Placed near place (.foldCond test ifTrue ifFalse) := by
  unfold Term.foldCond
  split
  · split
    · exact htrue
    · exact hfalse
  · exact .of_three rfl rfl htest htrue hfalse

theorem groupKey {t : Term} (h : Placed near place t) :
    Placed near place (Operator.groupKey t) := by
  unfold Operator.groupKey
  split
  · exact h.grouping_holds.1.2.2
  · exact h

/-- How a group's rows read its key does not depend on other groups. -/
theorem asGroupKey {key : Term} : Placed near place key.asGroupKey := by
  unfold Term.asGroupKey
  split
  · refine .plain rfl ?_
    intro u hu
    simp only [children, List.map_map, List.mem_map, Function.comp] at hu
    obtain ⟨f, -, rfl⟩ := hu
    exact field
  · exact field

end Placed

theorem asGroupKey_bare {key : Term} : key.asGroupKey.contains isGrouping = false := by
  unfold asGroupKey
  split
  · simp [contains_eq, children, isGrouping]
  · simp [contains_eq, children, isGrouping]

end Term

end QueryPipeline
