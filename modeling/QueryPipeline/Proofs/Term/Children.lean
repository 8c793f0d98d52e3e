import Mathlib.Data.List.Basic
import QueryPipeline.Term.Transform

/-!
Terms through the terms right below them. Most facts about terms look at a few forms and
pass the others on to their parts; `Term.inductionOn` proves such facts, and
`Term.transformM_eq` says that a transformation is of this kind: it replaces a term, or
transforms its parts and puts them back.
-/

namespace QueryPipeline.Term

/-- The term with other terms right below it, one for each that is there. -/
def withChildren (t : Term) (parts : List Term) : Term :=
  match t, parts with
  | .document fields, parts => .document ((fields.map Prod.fst).zip parts)
  | .item _ var codec, [array] => .item array var codec
  | .accumulator group kind _ output codec, [source] =>
    .accumulator group kind source output codec
  | .binary op _ _, [left, right] => .binary op left right
  | .unary op _, [operand] => .unary op operand
  | .cond _ _ _, [test, ifTrue, ifFalse] => .cond test ifTrue ifFalse
  | .filter _ var _, [input, condition] => .filter input var condition
  | .map _ var _, [input, body] => .map input var body
  | .anyTrue _, [array] => .anyTrue array
  | .allTrue _, [array] => .allTrue array
  | .setOp op _, arguments => .setOp op arguments
  | .size _, [array] => .size array
  | .contained _ _, [value, array] => .contained value array
  | .elemAt _ _, [array, position] => .elemAt array position
  | .slice _ bounds, [array] => .slice array bounds
  | .reduce op _ codec, [input] => .reduce op input codec
  | .sortArray _ keys, [input] => .sortArray input keys
  | .getField _ name codec, [input] => .getField input name codec
  | .grouping group _ _ none distinct, [key, element] =>
    .grouping group key element none distinct
  | .grouping group _ _ (some _) distinct, [key, element, predicate] =>
    .grouping group key element (some predicate) distinct
  | t, _ => t

/-- What is put below a term is what is found there. -/
theorem children_withChildren {t : Term} {parts : List Term}
    (h : parts.length = t.children.length) : (t.withChildren parts).children = parts := by
  cases t with
  | const | field =>
    obtain rfl := List.length_eq_zero_iff.mp h
    rfl
  | document fields =>
    simp only [children, List.length_map] at h
    simp [withChildren, children, List.map_snd_zip, h]
  | setOp op arguments => rfl
  | grouping group key element predicate distinct =>
    cases predicate with
    | none =>
      obtain ⟨_, _, rfl⟩ := List.length_eq_two.mp h
      rfl
    | some predicate =>
      obtain ⟨_, _, _, rfl⟩ := List.length_eq_three.mp h
      rfl
  | item | accumulator | unary | anyTrue | allTrue | size | slice | reduce | sortArray
  | getField =>
    obtain ⟨_, rfl⟩ := List.length_eq_one_iff.mp h
    rfl
  | binary | filter | map | contained | elemAt =>
    obtain ⟨_, _, rfl⟩ := List.length_eq_two.mp h
    rfl
  | cond =>
    obtain ⟨_, _, _, rfl⟩ := List.length_eq_three.mp h
    rfl

/-- Putting the parts of a term back gives the term. -/
theorem withChildren_children (t : Term) : t.withChildren t.children = t := by
  cases t with
  | document fields =>
    have parts : (fields.map Prod.fst).zip (fields.map Prod.snd) = fields := by
      rw [List.zip_map', List.map_id'' fun _ => rfl]
    simp only [children, withChildren, parts]
  | grouping group key element predicate distinct => cases predicate <;> rfl
  | _ => rfl

/-- Below a part of a term there are less terms than below the term. -/
theorem length_subterms_lt {t u : Term} (h : u ∈ t.children) :
    u.subterms.length < t.subterms.length := by
  have within : u.subterms.Sublist (t.children.flatMap subterms) :=
    List.sublist_flatten_of_mem (List.mem_map_of_mem h)
  rw [subterms_eq t, List.length_cons]
  exact Nat.lt_succ_of_le within.length_le

/-- A fact holds of all terms if it holds of a term whenever it holds of the terms right
below it. -/
theorem inductionOn {motive : Term → Prop}
    (step : ∀ t, (∀ u ∈ t.children, motive u) → motive t) (t : Term) : motive t :=
  step t fun u _ => inductionOn step u
termination_by t.subterms.length
decreasing_by exact length_subterms_lt ‹_›

/-! ### Terms below -/

theorem mem_subterms_self (t : Term) : t ∈ t.subterms := by
  rw [subterms_eq]
  exact List.mem_cons_self

theorem mem_subterms_of_child {t u v : Term} (hu : u ∈ t.children) (hv : v ∈ u.subterms) :
    v ∈ t.subterms := by
  rw [subterms_eq]
  exact List.mem_cons_of_mem _ (List.mem_flatMap.mpr ⟨u, hu, hv⟩)

/-- A term below another one is that term or lies below one of its parts. -/
theorem mem_subterms_cases {t v : Term} (hv : v ∈ t.subterms) :
    v = t ∨ ∃ u ∈ t.children, v ∈ u.subterms := by
  rw [subterms_eq] at hv
  rcases List.mem_cons.mp hv with hv | hv
  · exact .inl hv
  · exact .inr (List.mem_flatMap.mp hv)

/-- What lies below a term below is below. -/
theorem mem_subterms_trans {t u v : Term} (hu : u ∈ t.subterms) (hv : v ∈ u.subterms) :
    v ∈ t.subterms := by
  induction t using inductionOn with
  | step t ih =>
    rcases mem_subterms_cases hu with rfl | ⟨w, hw, hu⟩
    · exact hv
    · exact mem_subterms_of_child hw (ih w hw hu)

/-- A term with a property is the term itself or lies below one of its parts. -/
theorem contains_eq (p : Term → Bool) (t : Term) :
    t.contains p = (p t || t.children.any (contains p)) := by
  rw [contains, subterms_eq, List.any_cons, List.any_flatMap]
  rfl

theorem contains_of_self {p : Term → Bool} {t : Term} (h : p t) : t.contains p := by
  rw [contains_eq, h, Bool.true_or]

theorem contains_of_child {p : Term → Bool} {t u : Term} (hu : u ∈ t.children)
    (h : u.contains p) : t.contains p := by
  rw [contains_eq, List.any_eq_true.mpr ⟨u, hu, h⟩, Bool.or_true]

theorem not_contains_child {p : Term → Bool} {t u : Term} (hu : u ∈ t.children)
    (h : t.contains p = false) : u.contains p = false := by
  by_cases hp : u.contains p = true
  · rw [contains_of_child hu hp] at h
    cases h
  · exact Bool.eq_false_iff.mpr hp

/-! ### Transformations -/

section Transform

variable {m : Type → Type} [Monad m] [LawfulMonad m] (r : Transform m)

theorem transformAllM_eq (ts : List Term) :
    transformAllM r ts = ts.mapM (transformM r) := by
  induction ts with
  | nil => rfl
  | cons t ts ih => rw [transformAllM, List.mapM_cons, ih]

theorem transformFieldsM_eq (fields : List (String × Term)) :
    transformFieldsM r fields = do
      let parts ← (fields.map Prod.snd).mapM (transformM r)
      return (fields.map Prod.fst).zip parts := by
  induction fields with
  | nil => simp [transformFieldsM]
  | cons f fields ih =>
    obtain ⟨name, t⟩ := f
    simp [transformFieldsM, ih]

/-- **A transformation replaces a term, or transforms the terms right below it.** -/
theorem transformM_eq (t : Term) :
    t.transformM r = (do
      match ← r.enter t with
      | some replacement => return replacement
      | none =>
        let parts ← t.children.mapM (transformM r)
        r.leave (t.withChildren parts)) := by
  suffices around : t.transformM r =
      r.around t (t.withChildren <$> t.children.mapM (transformM r)) by
    rw [around]
    refine bind_congr fun entered => ?_
    cases entered with
    | some replacement => rfl
    | none => simp only [map_eq_pure_bind, bind_assoc, pure_bind]
  cases t with
  | document fields =>
    simp [transformM, transformFieldsM_eq, children]
    rfl
  | setOp op arguments =>
    simp [transformM, transformAllM_eq, children]
    rfl
  | grouping group key element predicate distinct =>
    cases predicate <;> simp [transformM, children, withChildren]
  | _ => simp [transformM, children, withChildren]

end Transform

end QueryPipeline.Term
