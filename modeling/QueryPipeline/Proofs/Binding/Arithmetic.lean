import QueryPipeline.Compile
import QueryPipeline.Proofs.Binding.Folding

/-!
Codecs of arithmetic. The type of a sum, a difference, a product or a remainder is the widest
type of the numbers in it. A bound expression reports the codec of that type if one of the
numbers is a double, or if a 64-bit integer, where there is one, stands in the leading part of
the expression: in the left operand of its left operand and so on, down to a number or to a part
that folds (`Expr.arithmetic_codec`). Else it reports 32-bit integers for 64-bit ones.
-/

namespace QueryPipeline

/-- The types of numbers, from the narrowest to the widest. -/
inductive NumberType where
  | int32
  | int64
  | double
deriving DecidableEq

namespace NumberType

/-- The codec of the numbers of a type. -/
def codec : NumberType → Codec
  | .int32 => .int32
  | .int64 => .int64
  | .double => .double

/-- The type of arithmetic on numbers: the widest type among them. -/
def promoted (types : List NumberType) : NumberType :=
  if .double ∈ types then .double else if .int64 ∈ types then .int64 else .int32

variable {types types' : List NumberType}

theorem codec_inj {a b : NumberType} : a.codec = b.codec ↔ a = b := by
  cases a <;> cases b <;> simp [codec, Codec.int32, Codec.int64, Codec.double]

theorem isDouble_codec {a : NumberType} : a.codec.isDouble = true ↔ a = .double := by
  cases a <;> simp [codec, Codec.int32, Codec.int64, Codec.double, Codec.isDouble]

theorem promoted_eq_double : promoted types = .double ↔ .double ∈ types := by
  grind [promoted]

theorem promoted_singleton (a : NumberType) : promoted [a] = a := by
  cases a <;> rfl

/-- Parts are promoted first. -/
theorem promoted_append :
    promoted (types ++ types') = promoted [promoted types, promoted types'] := by
  grind [promoted]

end NumberType

open NumberType (promoted)

/-! ### What folds -/

/-- The type of the integers of a width. -/
def Width.numberType : Width → NumberType
  | .w32 => .int32
  | .w64 => .int64

/-- The type of a number. -/
def Value.numberType? : Value → Option NumberType
  | .int32 _ => some .int32
  | .int64 _ => some .int64
  | .double _ => some .double
  | _ => none

/-- The operators whose result is of the type of their operands. -/
def BinaryOp.keepsType : BinaryOp → Bool
  | .add | .subtract | .multiply | .modulo => true
  | _ => false

theorem Width.promoted_numberType (w w' : Width) :
    promoted [w.numberType, w'.numberType] = (w.join w').numberType := by
  cases w <;> cases w' <;> rfl

namespace Value

variable {l r v : Value} {w : Width} {n : Int}

theorem numberType_value (w : Width) (n : Int) :
    (w.value n).numberType? = some w.numberType := by
  cases w <;> rfl

theorem numberType_of_integer (h : v.integer? = some (w, n)) :
    v.numberType? = some w.numberType := by
  cases v <;> cases h <;> rfl

/-- Arithmetic folds on integers, to an integer of the wider type. -/
theorem numberType_foldBinary {op : BinaryOp} (keeps : op.keepsType = true)
    (h : foldBinary op l r = some v) : ∃ w w', l.numberType? = some (Width.numberType w) ∧
      r.numberType? = some w'.numberType ∧ v.numberType? = some (w.join w').numberType := by
  have folds : foldBinary op l r = l.integer?.bind fun a => r.integer?.bind fun b => do
      return (a.1.join b.1).value (← op.compute? (a.1.join b.1) a.2 b.2) := by
    cases op <;> first | rfl | cases keeps
  rw [folds] at h
  obtain ⟨⟨w, a⟩, hl, h⟩ := Option.bind_eq_some_iff.mp h
  obtain ⟨⟨w', b⟩, hr, h⟩ := Option.bind_eq_some_iff.mp h
  obtain ⟨n, -, heq⟩ := Option.bind_eq_some_iff.mp h
  obtain rfl : (w.join w').value n = v := Option.some.inj heq
  exact ⟨w, w', numberType_of_integer hl, numberType_of_integer hr, numberType_value _ n⟩

theorem numberType_foldUnary {z : Value} (h : foldUnary .negate v = some z) :
    ∃ w, v.numberType? = some (Width.numberType w) ∧ z.numberType? = some w.numberType := by
  obtain ⟨⟨w, n⟩, hv, h⟩ := Option.bind_eq_some_iff.mp h
  obtain ⟨-, rfl⟩ : w.fits (-n) = true ∧ w.value (-n) = z := by simpa using h
  exact ⟨w, numberType_of_integer hv, numberType_value w _⟩

end Value

namespace Term

variable {op : BinaryOp} {t u : Term}

/-- A term that reads a part of a row. -/
def isRead : Term → Bool
  | .field _ _ | .item _ _ _ | .getField _ _ _ => true
  | _ => false

/-- An operator that does not fold is kept. -/
theorem foldBinary_eq_binary (h : ∀ v codec, foldBinary op t u ≠ .const v codec) :
    foldBinary op t u = .binary op t u := by
  unfold foldBinary at h ⊢
  grind

/-- Rows that are numbers are read by their codec. -/
theorem rowCodec_of_number {type : NumberType} (codec : t.codec = type.codec)
    (notRoot : t.isRoot = false) : t.rowCodec = .value valueField t.codec := by
  cases t with
  | field path codec => exact if_neg (by simpa [isRoot] using notRoot)
  | document fields => cases type <;> cases codec
  | _ => rfl

/-- A folded value has the codec of its type, whatever its operands were. -/
theorem foldedCodec_of_number {v : Value} {w w' : Width}
    (h : v.numberType? = some (w.join w').numberType) :
    foldedCodec v w.numberType.codec = (w.join w').numberType.codec := by
  cases v <;> cases w <;> cases w' <;> first | rfl | cases h

end Term

namespace Expr

/-- The value to which an expression on constants folds. -/
def folded? : Expr → Option Value
  | .const v _ => some v
  | .unary op e => do Value.foldUnary op (← e.folded?)
  | .binary op l r => do Value.foldBinary op (← l.folded?) (← r.folded?)
  | _ => none

/-- The leading part of an expression: one that folds is not opened, and the part of another one
is that of its first operand. -/
def leading : Expr → Expr
  | .unary _ e => e.leading
  | .binary op l r =>
    if (Expr.binary op l r).folded?.isSome then .binary op l r else l.leading
  | e => e

/-- Arithmetic in a context, with the types of its numbers from the left to the right: constants
of the types they are declared with, and what reads a number. -/
inductive Arithmetic (registry : Registry) (c : Context) : Expr → List NumberType → Prop
  | int32 (n) : Arithmetic registry c (.const (.int32 n) .int32) [.int32]
  | int64 (n) : Arithmetic registry c (.const (.int64 n) .int64) [.int64]
  | double (x) : Arithmetic registry c (.const (.double x) .double) [.double]
  | read {e t type} : (e.bind registry).Yields c t c → t.isRead = true → t.codec = type.codec →
      Arithmetic registry c e [type]
  | negate {e types} : Arithmetic registry c e types →
      Arithmetic registry c (.unary .negate e) types
  | binary {op l r types types'} : op.keepsType = true → Arithmetic registry c l types →
      Arithmetic registry c r types' → Arithmetic registry c (.binary op l r) (types ++ types')

variable {registry : Registry} {c : Context} {e l r : Expr} {t u : Term}
  {types types' : List NumberType}

/-- What arithmetic is bound to, and the codec that this reports. -/
structure Reports (registry : Registry) (c : Context) (e : Expr) (types : List NumberType)
    (t : Term) : Prop where
  arithmetic : e.Arithmetic registry c types
  bound : (e.bind registry).Yields c t c
  /-- The term is a constant where the expression folds. -/
  folds : ∀ v, (∃ codec, t = .const v codec) ↔ e.folded? = some v
  number : ∀ v, e.folded? = some v → v.numberType? = some (promoted types)
  codec : ∃ leading, e.leading.Arithmetic registry c leading ∧ leading ⊆ types ∧
    t.codec = (if .double ∈ types then NumberType.double else promoted leading).codec ∧
    (e.folded?.isSome = true → leading = types)

/-- What reads a part of a row is neither a constant nor an operator. -/
theorem leading_of_isRead (bound : (e.bind registry).Yields c t c) (reads : t.isRead = true) :
    e.folded? = none ∧ e.leading = e := by
  have kept {op : BinaryOp} {t u : Term} : (Term.foldBinary op t u).isRead = false := by
    unfold Term.foldBinary
    split <;> (try split) <;> rfl
  have kept' {op : UnaryOp} {t : Term} : (Term.foldUnary op t).isRead = false := by
    unfold Term.foldUnary
    split <;> (try split) <;> rfl
  cases e with
  | const v type =>
    rw [bind] at bound
    split at bound
    · obtain ⟨rfl, -⟩ := BindM.yields_pure.mp bound
      cases reads
    · exact absurd bound BindM.not_yields_throw
  | unary op e =>
    simp only [bind, BindM.yields_bind, BindM.yields_pure] at bound
    obtain ⟨u, -, -, rfl, -⟩ := bound
    cases kept'.symm.trans reads
  | binary op l r =>
    simp only [bind, BindM.yields_bind, BindM.yields_pure] at bound
    obtain ⟨u, -, -, u', -, -, rfl, -⟩ := bound
    cases kept.symm.trans reads
  | _ => exact ⟨rfl, rfl⟩

namespace Reports

/-- What folds has the type of the whole. -/
theorem codec_of_folds {v : Value} (h : e.Reports registry c types t)
    (folds : e.folded? = some v) : t.codec = (promoted types).codec := by
  obtain ⟨leading, -, -, codec, whole⟩ := h.codec
  rw [codec, whole (by rw [folds]; rfl)]
  split
  · rename_i double
    rw [NumberType.promoted_eq_double.mpr double]
  · rfl

theorem isDouble_iff (h : e.Reports registry c types t) :
    t.codec.isDouble = true ↔ .double ∈ types := by
  obtain ⟨leading, -, fromTypes, codec, -⟩ := h.codec
  rw [codec, NumberType.isDouble_codec]
  split
  · simpa
  · rename_i other
    rw [NumberType.promoted_eq_double]
    exact ⟨fun double => fromTypes double, fun double => absurd double other⟩

/-- A number on its own. -/
theorem leaf {type : NumberType} (arithmetic : e.Arithmetic registry c [type])
    (bound : (e.bind registry).Yields c t c)
    (folds : ∀ v, (∃ codec, t = .const v codec) ↔ e.folded? = some v)
    (number : ∀ v, e.folded? = some v → v.numberType? = some type)
    (codec : t.codec = type.codec) (leading : e.leading = e) :
    e.Reports registry c [type] t := by
  refine ⟨arithmetic, bound, folds, ?_, [type], ?_, List.Subset.refl _, ?_, fun _ => rfl⟩
  · rwa [NumberType.promoted_singleton]
  · rwa [leading]
  · rw [codec, NumberType.promoted_singleton]
    cases type <;> rfl

theorem const {v : Value} {type : ValueType} {number : NumberType}
    (arithmetic : (Expr.const v type).Arithmetic registry c [number])
    (codec : registry.codec? type = some number.codec) (hv : v.numberType? = some number) :
    (Expr.const v type).Reports registry c [number] (.const v number.codec) := by
  refine leaf arithmetic ?_ (fun v' => ?_) (fun v' => ?_) rfl rfl
  · simp [bind, codec]
  · simp [folded?]
  · rintro ⟨⟩
    exact hv

theorem read {type : NumberType} (bound : (e.bind registry).Yields c t c)
    (reads : t.isRead = true) (codec : t.codec = type.codec) :
    e.Reports registry c [type] t := by
  obtain ⟨notFolded, leading⟩ := leading_of_isRead bound reads
  refine leaf (.read bound reads codec) bound (fun v => ?_) (fun v => ?_) codec leading
  · rw [notFolded]
    constructor
    · rintro ⟨_, rfl⟩
      cases reads
    · nofun
  · rw [notFolded]
    nofun

theorem negate (h : e.Reports registry c types t) :
    (Expr.unary .negate e).Reports registry c types (.foldUnary .negate t) where
  arithmetic := .negate h.arithmetic
  bound := by
    simp only [bind, BindM.yields_bind, BindM.yields_pure]
    exact ⟨t, c, h.bound, rfl, rfl⟩
  folds v := by
    simp only [Term.foldUnary_eq_const, folded?, Option.bind_eq_bind, Option.bind_eq_some_iff,
      ← h.folds]
    constructor
    · rintro ⟨codec, x, hx, folded⟩
      exact ⟨x, ⟨codec, hx⟩, folded⟩
    · rintro ⟨x, ⟨codec, hx⟩, folded⟩
      exact ⟨codec, x, hx, folded⟩
  number v hv := by
    obtain ⟨v', hv', folded⟩ := Option.bind_eq_some_iff.mp hv
    obtain ⟨w, hw, hz⟩ := Value.numberType_foldUnary folded
    rw [hz, ← hw, h.number v' hv']
  codec := by
    obtain ⟨leading, part, fromTypes, codec, whole⟩ := h.codec
    have kept : (Term.foldUnary .negate t).codec = t.codec := by
      unfold Term.foldUnary
      split <;> (try split) <;> rfl
    refine ⟨leading, part, fromTypes, kept.trans codec, fun folds => whole ?_⟩
    obtain ⟨v, hv⟩ := Option.isSome_iff_exists.mp folds
    obtain ⟨v', hv', -⟩ := Option.bind_eq_some_iff.mp hv
    rw [hv']
    rfl

/-- Where operands fold together, each is an integer, and so is the whole. -/
theorem widths_of_folds {op : BinaryOp} {v : Value} (keeps : op.keepsType = true)
    (hl : l.Reports registry c types t) (hr : r.Reports registry c types' u)
    (hv : (Expr.binary op l r).folded? = some v) : ∃ w w',
      promoted types = Width.numberType w ∧
        promoted (types ++ types') = (w.join w').numberType ∧
        v.numberType? = some (w.join w').numberType := by
  obtain ⟨x, hx, hv⟩ := Option.bind_eq_some_iff.mp hv
  obtain ⟨y, hy, hv⟩ := Option.bind_eq_some_iff.mp hv
  obtain ⟨w, w', hw, hw', joined⟩ := Value.numberType_foldBinary keeps hv
  have left := Option.some.inj ((hl.number x hx).symm.trans hw)
  have right := Option.some.inj ((hr.number y hy).symm.trans hw')
  refine ⟨w, w', left, ?_, joined⟩
  rw [NumberType.promoted_append, left, right, Width.promoted_numberType]

/-- What operands fold to has the type of both of them. -/
theorem codec_folded {op : BinaryOp} {v : Value} {codec : Codec} (keeps : op.keepsType = true)
    (hl : l.Reports registry c types t) (hr : r.Reports registry c types' u)
    (hv : (Expr.binary op l r).folded? = some v)
    (constant : Term.foldBinary op t u = .const v codec) :
    .double ∉ types ++ types' ∧ codec = (promoted (types ++ types')).codec := by
  obtain ⟨w, w', left, both, joined⟩ := widths_of_folds keeps hl hr hv
  obtain ⟨x, cx, -, -, rfl, -, -, rfl⟩ := Term.foldBinary_eq_const.mp constant
  have first : cx = (promoted types).codec := hl.codec_of_folds ((hl.folds x).mp ⟨cx, rfl⟩)
  constructor
  · rw [← NumberType.promoted_eq_double, both]
    cases w <;> cases w' <;> decide
  · rw [both, ← Term.foldedCodec_of_number joined, ← left, ← first]

/-- An operator that is kept reports a double on the right, or else its left operand. -/
theorem codec_kept {op : BinaryOp} (keeps : op.keepsType = true) :
    (Term.binary op t u).codec = if u.codec.isDouble then .double else t.codec := by
  rw [Term.codec]
  cases op <;> first | rfl | cases keeps

/-- Operands that do not fold together report a double, or else the leading part of the left
one. -/
theorem binary {op : BinaryOp} (keeps : op.keepsType = true) (hl : l.Reports registry c types t)
    (hr : r.Reports registry c types' u) :
    (Expr.binary op l r).Reports registry c (types ++ types') (.foldBinary op t u) := by
  have arithmetic := Arithmetic.binary keeps hl.arithmetic hr.arithmetic
  have folds (v) : (∃ codec, Term.foldBinary op t u = .const v codec) ↔
      (Expr.binary op l r).folded? = some v := by
    simp only [Term.foldBinary_eq_const, folded?, Option.bind_eq_bind, Option.bind_eq_some_iff,
      ← hl.folds, ← hr.folds]
    constructor
    · rintro ⟨codec, x, cx, y, cy, hx, hy, folded, -⟩
      exact ⟨x, ⟨cx, hx⟩, y, ⟨cy, hy⟩, folded⟩
    · rintro ⟨x, ⟨cx, hx⟩, y, ⟨cy, hy⟩, folded⟩
      exact ⟨_, x, cx, y, cy, hx, hy, folded, rfl⟩
  refine ⟨arithmetic, ?_, folds, fun v hv => ?_, ?_⟩
  · simp only [bind, BindM.yields_bind, BindM.yields_pure]
    exact ⟨t, c, hl.bound, u, c, hr.bound, rfl, rfl⟩
  · obtain ⟨w, w', -, both, joined⟩ := widths_of_folds keeps hl hr hv
    rw [joined, both]
  · cases folded : (Expr.binary op l r).folded? with
    | some v =>
      obtain ⟨codec, constant⟩ := (folds v).mpr folded
      obtain ⟨noDouble, hcodec⟩ := codec_folded keeps hl hr folded constant
      refine ⟨types ++ types', ?_, List.Subset.refl _, ?_, fun _ => rfl⟩
      · rwa [leading, if_pos (by rw [folded]; rfl)]
      · rw [constant, if_neg noDouble]
        exact hcodec
    | none =>
      have kept : Term.foldBinary op t u = .binary op t u :=
        Term.foldBinary_eq_binary fun v codec h => by
          cases folded.symm.trans ((folds v).mp ⟨codec, h⟩)
      obtain ⟨leading, part, fromTypes, codec, -⟩ := hl.codec
      refine ⟨leading, ?_, List.subset_append_of_subset_left _ fromTypes, ?_,
        fun folds => absurd folds Bool.false_ne_true⟩
      · rwa [Expr.leading, if_neg (by rw [folded]; decide)]
      · rw [kept, codec_kept keeps, codec]
        by_cases right : .double ∈ types'
        · rw [if_pos (hr.isDouble_iff.mpr right), if_pos (List.mem_append_right _ right)]
          rfl
        · rw [if_neg (mt hr.isDouble_iff.mp right)]
          simp [right]

end Reports

/-- **The codec of arithmetic.** Arithmetic is bound in its context, and rows of it are read by
the codec that it reports. It reports doubles if there is a double in it, and else the widest type
in its leading part. This is the widest type in the whole expression if and only if there is a
double, or the leading part has a 64-bit integer if the expression has one. -/
theorem arithmetic_codec (h : e.Arithmetic registry c types) :
    ∃ t leading, (e.bind registry).Yields c t c ∧
      (t.isRoot = false → t.rowCodec = .value valueField t.codec) ∧
      e.leading.Arithmetic registry c leading ∧ leading ⊆ types ∧
      t.codec = (if .double ∈ types then NumberType.double else promoted leading).codec ∧
      (t.codec = (promoted types).codec ↔
        .double ∈ types ∨ (.int64 ∈ types → .int64 ∈ leading)) := by
  suffices reports : ∃ t, e.Reports registry c types t by
    obtain ⟨t, h⟩ := reports
    obtain ⟨leading, part, fromTypes, codec, -⟩ := h.codec
    refine ⟨t, leading, h.bound, Term.rowCodec_of_number codec, part, fromTypes, codec, ?_⟩
    rw [codec, NumberType.codec_inj]
    grind [promoted]
  induction h with
  | int32 n => exact ⟨_, .const (.int32 n) rfl rfl⟩
  | int64 n => exact ⟨_, .const (.int64 n) rfl rfl⟩
  | double x => exact ⟨_, .const (.double x) rfl rfl⟩
  | read bound reads codec => exact ⟨_, .read bound reads codec⟩
  | negate _ ih =>
    obtain ⟨t, h⟩ := ih
    exact ⟨_, h.negate⟩
  | binary keeps _ _ left right =>
    obtain ⟨t, hl⟩ := left
    obtain ⟨u, hr⟩ := right
    exact ⟨_, hl.binary keeps hr⟩

end Expr

/-- A player has an age and, in 64 bits, points. -/
def players : Registry :=
  .ofList [.mk "Player" none
    [.mk "Age" "age" (.static .int32), .mk "Points" "pts" (.static .int64)]]

/-- The parameter reads a player. -/
def ofPlayer : Context :=
  { scopes := ⟨[[("x", .root ((players.codec? (.document "Player")).getD .dynamic))]]⟩ }

/-- A member of the player. -/
def playerMember (name : String) : Expr := .member (.param "x") name

theorem arithmetic_age : (playerMember "Age").Arithmetic players ofPlayer [.int32] :=
  .read (t := .field (.field "age") .int32) rfl rfl rfl

theorem arithmetic_points : (playerMember "Points").Arithmetic players ofPlayer [.int64] :=
  .read (t := .field (.field "pts") .int64) rfl rfl rfl

/-- Six ages, where the six folds to 64 bits, less the points. -/
def sixAgesLessPoints : Expr :=
  .binary .subtract
    (.binary .multiply (.binary .add (.const (.int32 1) .int32) (.const (.int64 5) .int64))
      (playerMember "Age"))
    (playerMember "Points")

theorem sixAgesLessPoints_codec :
    sixAgesLessPoints.Arithmetic players ofPlayer [.int32, .int64, .int32, .int64] ∧
      ∃ t leading, (sixAgesLessPoints.bind players).Yields ofPlayer t ofPlayer ∧
        t.codec = (promoted [.int32, .int64, .int32, .int64]).codec ∧
        (Expr.binary .add (.const (.int32 1) .int32) (.const (.int64 5) .int64)).Arithmetic
          players ofPlayer leading ∧ .int64 ∈ leading := by
  have arithmetic : sixAgesLessPoints.Arithmetic players ofPlayer
      [.int32, .int64, .int32, .int64] :=
    .binary rfl (.binary rfl (.binary rfl (.int32 1) (.int64 5)) arithmetic_age)
      arithmetic_points
  obtain ⟨t, leading, bound, -, part, -, -, agrees⟩ := Expr.arithmetic_codec arithmetic
  have codec : t.codec = .int64 := by
    have evaluated : (sixAgesLessPoints.bind players).Yields ofPlayer _ ofPlayer := rfl
    rw [(bound.unique evaluated).1]
    rfl
  refine ⟨arithmetic, t, leading, bound, codec, part, ?_⟩
  exact (agrees.mp codec).resolve_left (by decide) (by decide)

/-- A query for the sum of two members of each player. -/
def sumOf (first second : String) : Query where
  collection := "players"
  itemType := .document "Player"
  clauses := [⟨"Queryable", "Select", [], [.lambda ["x"]
    (.binary .add (playerMember first) (playerMember second))]⟩]

/-- An age and points have 64 bits, but are read as 32 bits if the age comes first. -/
theorem sumOf_reports_by_order :
    (Expr.binary .add (playerMember "Age") (playerMember "Points")).Arithmetic players ofPlayer
        [.int32, .int64] ∧
      promoted [.int32, .int64] = .int64 ∧
      (∃ p, ((sumOf "Age" "Points").bound players).1 = .ok p ∧
        p.plan.output = .value valueField .int32) ∧
      ∃ p, ((sumOf "Points" "Age").bound players).1 = .ok p ∧
        p.plan.output = .value valueField .int64 := by
  refine ⟨.binary rfl arithmetic_age arithmetic_points, rfl, ?_, ?_⟩
  · exact ⟨_, rfl, rfl⟩
  · exact ⟨_, rfl, rfl⟩

end QueryPipeline
