import Mathlib.Data.Bool.Basic
import Mathlib.Data.Int.Order.Basic
import Mathlib.Order.Compare
import Mathlib.Order.Lattice
import QueryPipeline.Binding.Query
import QueryPipeline.Proofs.Binding.Outcome

/-!
Expressions on constants. Integers have a width, and an operator on two of them works in the
wider one. A step has a value only where it is exact: its result stays in the width, a quotient
leaves no remainder, and comparisons and conditions get operands of one kind. `Expr.HasValue`
says which value an expression has that way, in whole numbers. Binding makes a constant of an
expression if and only if it has a value, and the constant is that value
(`Expr.bind_const_iff`).
-/

namespace QueryPipeline

/-! ### Integers of a width -/

namespace Width

/-- The least integer of a width. -/
def least : Width → Int
  | .w32 => -2147483648
  | .w64 => -9223372036854775808

/-- Whether an integer can be written in the bits of a width, one of which is its sign. -/
def Holds (w : Width) (n : Int) : Prop := w.least ≤ n ∧ n < -w.least

/-- The width in which two integers are combined: 64 bits if one of them has as many. -/
def common (w w' : Width) : Width := if w = .w64 ∨ w' = .w64 then .w64 else .w32

variable {w w' : Width} {a b n : Int}

theorem fits_iff : w.fits n = true ↔ w.Holds n := by
  have bound_eq : w.bound = -w.least := by cases w <;> rfl
  simp [fits, Holds, bound_eq]

theorem join_eq_common : w.join w' = w.common w' := by
  cases w <;> cases w' <;> rfl

theorem holds_toInt32 (n : Int32) : Width.w32.Holds n.toInt := ⟨n.le_toInt, n.toInt_lt⟩

theorem holds_toInt64 (n : Int64) : Width.w64.Holds n.toInt := ⟨n.le_toInt, n.toInt_lt⟩

/-- An integer that its width holds is the number that is stored. -/
theorem integer?_value (h : w.Holds n) : (w.value n).integer? = some (w, n) := by
  obtain ⟨lower, upper⟩ := h
  cases w with
  | w32 =>
    simp only [least] at lower upper
    rw [value, Value.integer?, Int32.toInt_ofInt_of_le (by omega) (by omega)]
  | w64 =>
    simp only [least] at lower upper
    rw [value, Value.integer?, Int64.toInt_ofInt_of_le (by omega) (by omega)]

/-- The common width holds the integers of both. -/
theorem Holds.common_right (h : w'.Holds n) : (w.common w').Holds n := by
  obtain ⟨lower, upper⟩ := h
  cases w <;> cases w' <;> simp [Holds, common, least] at * <;> omega

theorem Holds.common_left (h : w.Holds n) : (w.common w').Holds n := by
  obtain ⟨lower, upper⟩ := h
  cases w <;> cases w' <;> simp [Holds, common, least] at * <;> omega

/-- A quotient leaves the width only where the least integer changes its sign. -/
theorem holds_tdiv_iff (ha : w.Holds a) : w.Holds (a.tdiv b) ↔ ¬(a = w.least ∧ b = -1) := by
  obtain ⟨lower, upper⟩ := ha
  constructor
  · rintro ⟨-, quotient⟩ ⟨rfl, rfl⟩
    rw [Int.tdiv_neg, Int.tdiv_one] at quotient
    omega
  · intro regular
    have quotient : (a.tdiv b).natAbs = a.natAbs / b.natAbs := Int.natAbs_tdiv a b
    have smaller := Int.natAbs_tdiv_le_natAbs a b
    have negative : w.least < 0 := by cases w <;> decide
    rcases (by omega : b = 1 ∨ b = -1 ∨ b = 0 ∨ 2 ≤ b.natAbs) with rfl | rfl | rfl | large
    · rw [Int.tdiv_one]
      exact ⟨lower, upper⟩
    · have other : a ≠ w.least := fun least => regular ⟨least, rfl⟩
      rw [Int.tdiv_neg, Int.tdiv_one]
      exact ⟨by omega, by omega⟩
    · rw [Int.tdiv_zero]
      exact ⟨by omega, by omega⟩
    · have halved : a.natAbs / b.natAbs ≤ a.natAbs / 2 := Nat.div_le_div_left large (by decide)
      exact ⟨by omega, by omega⟩

end Width

/-- A remainder is less than the divisor, and has the sign of the dividend. -/
theorem eq_tmod_iff {a b r : Int} (hb : b ≠ 0) : r = a.tmod b ↔
    (∃ q, a = q * b + r) ∧ r.natAbs < b.natAbs ∧ (r = 0 ∨ r.sign = a.sign) := by
  have less : (a.tmod b).natAbs < b.natAbs := by
    rw [Int.natAbs_tmod]
    exact Nat.mod_lt _ (Int.natAbs_pos.mpr hb)
  have sign : a.tmod b = 0 ∨ (a.tmod b).sign = a.sign := by
    rw [Int.sign_tmod]
    by_cases divides : b ∣ a
    · exact .inl (Int.tmod_eq_zero_of_dvd divides)
    · exact .inr (if_neg divides)
  have side {r : Int} (sign : r = 0 ∨ r.sign = a.sign) : (0 ≤ a → 0 ≤ r) ∧ (a ≤ 0 → r ≤ 0) := by
    rcases sign with rfl | same
    · exact ⟨fun _ => Int.le_refl 0, fun _ => Int.le_refl 0⟩
    · rw [← Int.sign_nonneg_iff, ← Int.sign_nonpos_iff, ← same, Int.sign_nonneg_iff,
        Int.sign_nonpos_iff]
      exact ⟨id, id⟩
  constructor
  · rintro rfl
    exact ⟨⟨a.tdiv b, (Int.tdiv_mul_add_tmod a b).symm⟩, less, sign⟩
  · rintro ⟨⟨q, hq⟩, less', sign'⟩
    -- Two remainders differ by a multiple of the divisor, and are on one side of zero.
    have multiple : b ∣ r - a.tmod b := by
      refine ⟨a.tdiv b - q, ?_⟩
      have split := Int.tdiv_mul_add_tmod a b
      rw [Int.mul_sub, Int.mul_comm b, Int.mul_comm b]
      omega
    have near : (r - a.tmod b).natAbs < b.natAbs := by
      have := side sign
      have := side sign'
      omega
    have := Int.eq_zero_of_dvd_of_natAbs_lt_natAbs multiple near
    omega

/-! ### Exact values -/

/-- A value that an expression on constants may have: an integer of a width that holds it, or a
truth value. -/
inductive Literal where
  | integer (w : Width) (n : Int) (holds : w.Holds n)
  | bool (b : Bool)

namespace Literal

/-- The value as it is stored. -/
def value : Literal → Value
  | .integer w n _ => w.value n
  | .bool b => .bool b

/-- The codec of values of its type. -/
def codec : Literal → Codec
  | .integer .w32 _ _ => .int32
  | .integer .w64 _ _ => .int64
  | .bool _ => .boolean

end Literal

namespace BinaryOp

/-- The answer of a comparison. -/
def compared? {α : Type} [LinearOrder α] (op : BinaryOp) (a b : α) : Option Bool :=
  match op with
  | .eq => some (a = b)
  | .ne => some (a ≠ b)
  | .lt => some (a < b)
  | .lte => some (a ≤ b)
  | .gt => some (b < a)
  | .gte => some (b ≤ a)
  | _ => none

/-- What arithmetic on two integers gives. A quotient times the divisor is the dividend; a
remainder has the sign of the dividend and is less than the divisor, and the least integer
leaves none if it is divided by minus one. -/
def Computes (w : Width) (a b : Int) : BinaryOp → Int → Prop
  | .add, n => n = a + b
  | .subtract, n => n = a - b
  | .multiply, n => n = a * b
  | .divide, q => b ≠ 0 ∧ q * b = a
  | .modulo, r => b ≠ 0 ∧ ¬(a = w.least ∧ b = -1) ∧
      (∃ q, a = q * b + r) ∧ r.natAbs < b.natAbs ∧ (r = 0 ∨ r.sign = a.sign)
  | _, _ => False

/-- What an operator gives on two values. -/
inductive Gives : BinaryOp → Literal → Literal → Literal → Prop
  | arithmetic {op w w' a b n ha hb hn} : op.Computes (w.common w') a b n →
      Gives op (.integer w a ha) (.integer w' b hb) (.integer (w.common w') n hn)
  | integers {op w w' a b ha hb answer} : op.compared? a b = some answer →
      Gives op (.integer w a ha) (.integer w' b hb) (.bool answer)
  | bools {op a b answer} : op.compared? a b = some answer →
      Gives op (.bool a) (.bool b) (.bool answer)
  | and (a b) : Gives .and (.bool a) (.bool b) (.bool (a && b))
  | or (a b) : Gives .or (.bool a) (.bool b) (.bool (a || b))

end BinaryOp

/-- What an operator gives on one value. -/
inductive UnaryOp.Gives : UnaryOp → Literal → Literal → Prop
  | not (b) : Gives .not (.bool b) (.bool !b)
  | negate {w n hn} (holds : w.Holds (-n)) :
      Gives .negate (.integer w n hn) (.integer w (-n) holds)

namespace Expr

/-- Expressions of operators and conditions on integers and truth values of the types that they
are declared with. -/
inductive OnConstants : Expr → Prop
  | int32 (n) : OnConstants (.const (.int32 n) .int32)
  | int64 (n) : OnConstants (.const (.int64 n) .int64)
  | bool (b) : OnConstants (.const (.bool b) .boolean)
  | unary (op) {e} : OnConstants e → OnConstants (.unary op e)
  | binary (op) {l r} : OnConstants l → OnConstants r → OnConstants (.binary op l r)
  | cond {t a b} : OnConstants t → OnConstants a → OnConstants b → OnConstants (.cond t a b)

/-- The exact value of an expression on constants. Operands need one, and so does the test of a
condition, but of its branches only the one that is chosen. -/
inductive HasValue : Expr → Literal → Prop
  | int32 (n : Int32) : HasValue (.const (.int32 n) .int32)
      (.integer .w32 n.toInt (Width.holds_toInt32 n))
  | int64 (n : Int64) : HasValue (.const (.int64 n) .int64)
      (.integer .w64 n.toInt (Width.holds_toInt64 n))
  | bool (b) : HasValue (.const (.bool b) .boolean) (.bool b)
  | unary {op e x z} : HasValue e x → UnaryOp.Gives op x z → HasValue (.unary op e) z
  | binary {op l r x y z} : HasValue l x → HasValue r y → BinaryOp.Gives op x y z →
      HasValue (.binary op l r) z
  | ifTrue {t a b z} : HasValue t (.bool true) → HasValue a z → HasValue (.cond t a b) z
  | ifFalse {t a b z} : HasValue t (.bool false) → HasValue b z → HasValue (.cond t a b) z

end Expr

/-! ### Folding -/

namespace BinaryOp

variable {op : BinaryOp} {w : Width} {a b n : Int}

/-- Arithmetic gives a result where it is exact and its width holds it. -/
theorem compute?_eq_some (ha : w.Holds a) (hb : w.Holds b) :
    op.compute? w a b = some n ↔ op.Computes w a b n ∧ w.Holds n := by
  have fitting {m : Int} : BinaryOp.compute?.fitting w m = some n ↔ n = m ∧ w.Holds n := by
    rw [BinaryOp.compute?.fitting, ← Width.fits_iff]
    grind
  cases op with
  | add | subtract | multiply => exact fitting
  | divide =>
    rw [BinaryOp.compute?, Computes]
    constructor
    · intro h
      split at h
      · cases h
      · rename_i regular
        simp only [Bool.or_eq_true, decide_eq_true_eq, not_or, not_not, ne_eq] at regular
        obtain ⟨nonzero, exactly⟩ := regular
        obtain ⟨rfl, holds⟩ := fitting.mp h
        exact ⟨⟨nonzero, Int.tdiv_mul_cancel (Int.dvd_of_tmod_eq_zero exactly)⟩, holds⟩
    · rintro ⟨⟨nonzero, rfl⟩, holds⟩
      rw [Int.mul_tmod_left, Int.mul_tdiv_cancel _ nonzero, if_neg (by simp [nonzero])]
      exact fitting.mpr ⟨rfl, holds⟩
  | modulo =>
    rw [BinaryOp.compute?, Computes]
    by_cases zero : b = 0
    · simp [zero]
    · have remainder : w.Holds (a.tmod b) := by
        have less : (a.tmod b).natAbs < b.natAbs := ((eq_tmod_iff zero).mp rfl).2.1
        obtain ⟨lower, upper⟩ := hb
        exact ⟨by omega, by omega⟩
      rw [← eq_tmod_iff zero, ← Width.holds_tdiv_iff ha, ← Width.fits_iff]
      cases w.fits (a.tdiv b) with
      | false => simp [zero]
      | true =>
        simp only [zero, decide_false, Bool.not_true, Bool.or_self, Bool.false_eq_true, if_false,
          Option.some.injEq]
        constructor
        · rintro rfl
          exact ⟨⟨zero, trivial, rfl⟩, remainder⟩
        · rintro ⟨⟨-, -, rfl⟩, -⟩
          rfl
  | eq | ne | lt | lte | gt | gte | and | or => simp [BinaryOp.compute?, Computes]

theorem Computes.isComparison (h : op.Computes w a b n) : op.isComparison = false := by
  cases op with
  | add | subtract | multiply | divide | modulo => rfl
  | _ => exact h.elim

theorem isComparison_of_compared? {α : Type} [LinearOrder α] {a b : α} {answer : Bool}
    (h : op.compared? a b = some answer) : op.isComparison = true := by
  cases op with
  | eq | ne | lt | lte | gt | gte => rfl
  | _ => cases h

/-- The order of two values answers every comparison of them. -/
theorem holds_compare {α : Type} [LinearOrder α] (op : BinaryOp) (a b : α) :
    op.holds (compare a b) = op.compared? a b := by
  rcases lt_trichotomy a b with h | rfl | h
  · rw [compare_lt_iff_lt.mpr h]
    cases op <;> simp [holds, compared?, h, h.ne, h.le, h.not_gt, h.not_ge]
  · rw [compare_eq_iff_eq.mpr rfl]
    cases op <;> simp [holds, compared?]
  · rw [compare_gt_iff_gt.mpr h]
    cases op <;> simp [holds, compared?, h, h.ne', h.le, h.not_gt, h.not_ge]

end BinaryOp

namespace Value

variable {op : BinaryOp} {l r v : Value} {w w' : Width} {a b : Int} {x y : Literal}

/-- Two integers are compared as numbers, and combined in the common width. -/
theorem foldBinary_integers (hl : l.integer? = some (w, a)) (hr : r.integer? = some (w', b)) :
    foldBinary op l r =
      if op.isComparison then do return .bool (← op.holds (compare a b))
      else do return (w.join w').value (← op.compute? (w.join w') a b) := by
  cases l <;> cases hl <;> cases r <;> cases hr <;> cases op <;> rfl

/-- Two truth values are compared or joined. -/
theorem foldBinary_bools (a b : Bool) :
    foldBinary op (.bool a) (.bool b) =
      if op = .and then some (.bool (a && b))
      else if op = .or then some (.bool (a || b))
      else do return .bool (← op.holds (compare a b)) := by
  cases op <;> rfl

/-- A truth value and an integer have nothing in common. -/
theorem foldBinary_mixed (b : Bool) (h : l.integer? = some (w, a)) :
    foldBinary op l (.bool b) = none ∧ foldBinary op (.bool b) l = none := by
  cases l <;> cases h <;> cases op <;> exact ⟨rfl, rfl⟩

/-- What folds of two integers is what the operator gives on them: an answer if it compares them,
and else an integer of the common width. -/
theorem foldBinary_integers_eq_some (ha : w.Holds a) (hb : w'.Holds b) :
    foldBinary op (w.value a) (w'.value b) = some v ↔
      ∃ z, op.Gives (.integer w a ha) (.integer w' b hb) z ∧ v = z.value := by
  rw [foldBinary_integers (Width.integer?_value ha) (Width.integer?_value hb),
    BinaryOp.holds_compare, Width.join_eq_common]
  simp only [Option.bind_eq_bind, Option.pure_def]
  constructor
  · intro h
    split at h
    · obtain ⟨answer, hanswer, heq⟩ := Option.bind_eq_some_iff.mp h
      exact ⟨_, .integers hanswer, (Option.some.inj heq).symm⟩
    · obtain ⟨n, hn, heq⟩ := Option.bind_eq_some_iff.mp h
      obtain ⟨computes, holds⟩ :=
        (BinaryOp.compute?_eq_some ha.common_left hb.common_right).mp hn
      exact ⟨.integer _ n holds, .arithmetic computes, (Option.some.inj heq).symm⟩
  · rintro ⟨z, gives, rfl⟩
    cases gives with
    | @arithmetic _ _ _ _ _ n _ _ holds computes =>
      have exactly :=
        (BinaryOp.compute?_eq_some ha.common_left hb.common_right).mpr ⟨computes, holds⟩
      rw [if_neg (by rw [computes.isComparison]; decide), exactly]
      rfl
    | integers hanswer =>
      rw [if_pos (BinaryOp.isComparison_of_compared? hanswer), hanswer]
      rfl

/-- What folds of two truth values is what the operator gives on them: they are joined, or
compared. -/
theorem foldBinary_bools_eq_some {a b : Bool} : foldBinary op (.bool a) (.bool b) = some v ↔
    ∃ z, op.Gives (.bool a) (.bool b) z ∧ v = z.value := by
  rw [foldBinary_bools, BinaryOp.holds_compare]
  simp only [Option.bind_eq_bind, Option.pure_def]
  constructor
  · intro h
    split at h
    · rename_i isAnd
      subst isAnd
      exact ⟨_, .and a b, (Option.some.inj h).symm⟩
    · split at h
      · rename_i isOr
        subst isOr
        exact ⟨_, .or a b, (Option.some.inj h).symm⟩
      · obtain ⟨answer, hanswer, heq⟩ := Option.bind_eq_some_iff.mp h
        exact ⟨_, .bools hanswer, (Option.some.inj heq).symm⟩
  · rintro ⟨z, gives, rfl⟩
    cases gives with
    | and => rfl
    | or => rfl
    | bools hanswer =>
      have comparison := BinaryOp.isComparison_of_compared? hanswer
      rw [if_neg (by rintro rfl; cases comparison), if_neg (by rintro rfl; cases comparison),
        hanswer]
      rfl

/-- **Folding a binary operator** gives what the operator gives on the values, and nothing where
it gives nothing. -/
theorem foldBinary_eq_some :
    foldBinary op x.value y.value = some v ↔ ∃ z, op.Gives x y z ∧ v = z.value := by
  have nothing (folds : foldBinary op x.value y.value = none) (gives : ∀ z, ¬op.Gives x y z) :
      foldBinary op x.value y.value = some v ↔ ∃ z, op.Gives x y z ∧ v = z.value := by
    rw [folds]
    exact ⟨nofun, fun ⟨z, given, _⟩ => absurd given (gives z)⟩
  cases x with
  | integer w a ha =>
    cases y with
    | integer w' b hb => exact foldBinary_integers_eq_some ha hb
    | bool b => exact nothing (foldBinary_mixed b (Width.integer?_value ha)).1 fun z => nofun
  | bool a =>
    cases y with
    | integer w b hb =>
      exact nothing (foldBinary_mixed a (Width.integer?_value hb)).2 fun z => nofun
    | bool b => exact foldBinary_bools_eq_some

/-- **Folding a unary operator** gives what the operator gives on the value. -/
theorem foldUnary_eq_some {op : UnaryOp} :
    foldUnary op x.value = some v ↔ ∃ z, op.Gives x z ∧ v = z.value := by
  cases op with
  | not =>
    cases x with
    | integer w n holds =>
      have none : foldUnary .not (w.value n) = none := by cases w <;> rfl
      rw [Literal.value, none]
      constructor
      · nofun
      · rintro ⟨z, gives, -⟩
        cases gives
    | bool b =>
      constructor
      · intro h
        exact ⟨_, .not b, (Option.some.inj h).symm⟩
      · rintro ⟨z, gives, rfl⟩
        cases gives
        rfl
  | negate =>
    cases x with
    | integer w n holds =>
      have negated : foldUnary .negate (w.value n) =
          if w.fits (-n) then some (w.value (-n)) else none := by
        simp [foldUnary, Width.integer?_value holds]
      rw [Literal.value, negated]
      constructor
      · intro h
        split at h
        · rename_i fits
          exact ⟨_, .negate (Width.fits_iff.mp fits), (Option.some.inj h).symm⟩
        · cases h
      · rintro ⟨z, gives, rfl⟩
        cases gives with
        | negate holds => rw [if_pos (Width.fits_iff.mpr holds), Literal.value]
    | bool b =>
      constructor
      · nofun
      · rintro ⟨z, gives, -⟩
        cases gives

end Value

/-- What an operator gives has the codec that folding finds for it. -/
theorem BinaryOp.Gives.foldedCodec {op : BinaryOp} {x y z : Literal} (h : op.Gives x y z) :
    Term.foldedCodec z.value x.codec = z.codec := by
  cases h with
  | @arithmetic _ w w' => cases w <;> cases w' <;> rfl
  | _ => rfl

theorem UnaryOp.Gives.codec {op : UnaryOp} {x z : Literal} (h : op.Gives x z) :
    x.codec = z.codec := by
  cases h with
  | not => rfl
  | @negate w => cases w <;> rfl

namespace Term

variable {t u s : Term} {v : Value} {c : Codec}

/-- A binary operator becomes a constant where its operands are constants and folding gives a
value. -/
theorem foldBinary_eq_const {op : BinaryOp} : foldBinary op t u = .const v c ↔
    ∃ l cl r cr, t = .const l cl ∧ u = .const r cr ∧ Value.foldBinary op l r = some v ∧
      foldedCodec v cl = c := by
  constructor
  · intro h
    unfold foldBinary at h
    split at h
    · split at h
      · rename_i folded
        cases h
        exact ⟨_, _, _, _, rfl, rfl, folded, rfl⟩
      · cases h
    · cases h
  · rintro ⟨l, cl, r, cr, rfl, rfl, folded, rfl⟩
    simp only [foldBinary, folded]

theorem foldUnary_eq_const {op : UnaryOp} : foldUnary op t = .const v c ↔
    ∃ w, t = .const w c ∧ Value.foldUnary op w = some v := by
  constructor
  · intro h
    unfold foldUnary at h
    split at h
    · split at h
      · rename_i folded
        cases h
        exact ⟨_, rfl, folded⟩
      · cases h
    · cases h
  · rintro ⟨w, rfl, folded⟩
    simp only [foldUnary, folded]

/-- A condition becomes a constant where its test is decided and the chosen branch is one. -/
theorem foldCond_eq_const : foldCond s t u = .const v c ↔
    ∃ b cb, s = .const (.bool b) cb ∧ (if b then t else u) = .const v c := by
  constructor
  · intro h
    unfold foldCond at h
    split at h
    · exact ⟨_, _, rfl, h⟩
    · cases h
  · rintro ⟨b, cb, rfl, chosen⟩
    exact chosen

end Term

namespace Expr

variable {registry : Registry} {c : Context} {e : Expr}

/-- An expression is bound to a term that is a constant if and only if the expression has an
exact value, and the constant is that value. -/
def FoldsExactly (registry : Registry) (c : Context) (e : Expr) : Prop :=
  ∃ t, (e.bind registry).Yields c t c ∧
    ∀ v codec, t = .const v codec ↔ ∃ x, e.HasValue x ∧ v = x.value ∧ codec = x.codec

namespace FoldsExactly

/-- A constant is its own value. -/
theorem const {v : Value} {type : ValueType} {x : Literal}
    (value : ∀ y, (Expr.const v type).HasValue y ↔ y = x) (stored : x.value = v)
    (codec : registry.codec? type = some x.codec) :
    (Expr.const v type).FoldsExactly registry c := by
  refine ⟨.const v x.codec, ?_, ?_⟩
  · simp [bind, codec]
  · intro v' codec'
    simp only [value, exists_eq_left, stored, Term.const.injEq]
    constructor
    · rintro ⟨rfl, rfl⟩
      exact ⟨rfl, rfl⟩
    · rintro ⟨rfl, rfl⟩
      exact ⟨rfl, rfl⟩

theorem unary {op : UnaryOp} (h : e.FoldsExactly registry c) :
    (Expr.unary op e).FoldsExactly registry c := by
  obtain ⟨t, ht, constant⟩ := h
  refine ⟨.foldUnary op t, ?_, ?_⟩
  · simp only [bind, BindM.yields_bind, BindM.yields_pure]
    exact ⟨t, c, ht, rfl, rfl⟩
  · intro v codec
    rw [Term.foldUnary_eq_const]
    constructor
    · rintro ⟨w, hw, folded⟩
      obtain ⟨x, hx, rfl, rfl⟩ := (constant w codec).mp hw
      obtain ⟨z, gives, rfl⟩ := Value.foldUnary_eq_some.mp folded
      exact ⟨z, .unary hx gives, rfl, gives.codec⟩
    · rintro ⟨z, hz, rfl, rfl⟩
      cases hz with
      | @unary _ _ x _ hx gives =>
        exact ⟨x.value, (constant _ _).mpr ⟨x, hx, rfl, gives.codec.symm⟩,
          Value.foldUnary_eq_some.mpr ⟨z, gives, rfl⟩⟩

theorem binary {op : BinaryOp} {e' : Expr} (h : e.FoldsExactly registry c)
    (h' : e'.FoldsExactly registry c) : (Expr.binary op e e').FoldsExactly registry c := by
  obtain ⟨l, hl, left⟩ := h
  obtain ⟨r, hr, right⟩ := h'
  refine ⟨.foldBinary op l r, ?_, ?_⟩
  · simp only [bind, BindM.yields_bind, BindM.yields_pure]
    exact ⟨l, c, hl, r, c, hr, rfl, rfl⟩
  · intro v codec
    rw [Term.foldBinary_eq_const]
    constructor
    · rintro ⟨w, cw, w', cw', hw, hw', folded, rfl⟩
      obtain ⟨x, hx, rfl, rfl⟩ := (left w cw).mp hw
      obtain ⟨y, hy, rfl, rfl⟩ := (right w' cw').mp hw'
      obtain ⟨z, gives, rfl⟩ := Value.foldBinary_eq_some.mp folded
      exact ⟨z, .binary hx hy gives, rfl, gives.foldedCodec⟩
    · rintro ⟨z, hz, rfl, rfl⟩
      cases hz with
      | @binary _ _ _ x y _ hx hy gives =>
        exact ⟨x.value, x.codec, y.value, y.codec, (left _ _).mpr ⟨x, hx, rfl, rfl⟩,
          (right _ _).mpr ⟨y, hy, rfl, rfl⟩, Value.foldBinary_eq_some.mpr ⟨z, gives, rfl⟩,
          gives.foldedCodec⟩

/-- Both branches of a condition are bound, and one of them is chosen. -/
theorem cond {a b : Expr} (h : e.FoldsExactly registry c) (ha : a.FoldsExactly registry c)
    (hb : b.FoldsExactly registry c) : (Expr.cond e a b).FoldsExactly registry c := by
  obtain ⟨s, hs, test⟩ := h
  obtain ⟨t, ht, ifTrue⟩ := ha
  obtain ⟨u, hu, ifFalse⟩ := hb
  refine ⟨.foldCond s t u, ?_, ?_⟩
  · simp only [bind, BindM.yields_bind, BindM.yields_pure]
    exact ⟨s, c, hs, t, c, ht, u, c, hu, rfl, rfl⟩
  · intro v codec
    rw [Term.foldCond_eq_const]
    constructor
    · rintro ⟨answer, ca, hanswer, chosen⟩
      obtain ⟨x, hx, stored, -⟩ := (test _ _).mp hanswer
      cases x with
      | integer w n holds => cases w <;> cases stored
      | bool =>
        cases stored
        cases answer with
        | true =>
          obtain ⟨z, hz, rfl, rfl⟩ := (ifTrue v codec).mp chosen
          exact ⟨z, .ifTrue hx hz, rfl, rfl⟩
        | false =>
          obtain ⟨z, hz, rfl, rfl⟩ := (ifFalse v codec).mp chosen
          exact ⟨z, .ifFalse hx hz, rfl, rfl⟩
    · rintro ⟨z, hz, rfl, rfl⟩
      cases hz with
      | ifTrue hx hz =>
        exact ⟨true, _, (test _ _).mpr ⟨_, hx, rfl, rfl⟩, (ifTrue _ _).mpr ⟨z, hz, rfl, rfl⟩⟩
      | ifFalse hx hz =>
        exact ⟨false, _, (test _ _).mpr ⟨_, hx, rfl, rfl⟩, (ifFalse _ _).mpr ⟨z, hz, rfl, rfl⟩⟩

end FoldsExactly

/-- **Folding is exact and complete.** An expression on constants is bound in every context. It
is bound to a constant if and only if it has an exact value, and the constant is that value, with
the codec of its type. -/
theorem bind_const_iff (h : e.OnConstants) (registry : Registry) (c : Context) :
    ∃ t, (e.bind registry).Yields c t c ∧
      ∀ v codec, t = .const v codec ↔ ∃ x, e.HasValue x ∧ v = x.value ∧ codec = x.codec := by
  change e.FoldsExactly registry c
  induction h with
  | int32 n =>
    have stored : (Literal.integer .w32 n.toInt (Width.holds_toInt32 n)).value = .int32 n :=
      congrArg Value.int32 (Int32.ofInt_toInt n)
    refine .const (fun y => ⟨?_, ?_⟩) stored rfl
    · rintro ⟨⟩
      rfl
    · rintro rfl
      exact .int32 n
  | int64 n =>
    have stored : (Literal.integer .w64 n.toInt (Width.holds_toInt64 n)).value = .int64 n :=
      congrArg Value.int64 (Int64.ofInt_toInt n)
    refine .const (fun y => ⟨?_, ?_⟩) stored rfl
    · rintro ⟨⟩
      rfl
    · rintro rfl
      exact .int64 n
  | bool b =>
    refine .const (x := .bool b) (fun y => ⟨?_, ?_⟩) rfl rfl
    · rintro ⟨⟩
      rfl
    · rintro rfl
      exact .bool b
  | unary op _ ih => exact ih.unary
  | binary op _ _ left right => exact left.binary right
  | cond _ _ _ test ifTrue ifFalse => exact test.cond ifTrue ifFalse

/-- One below the least integer of 32 bits, by an operand of a given type. A division by zero stands
in the branch that is not chosen. -/
def oneBelowLeast (one : Value) (type : ValueType) : Expr :=
  .cond (.binary .lt (.const (.int32 (-2147483648)) .int32) (.const one type))
    (.binary .subtract (.const (.int32 (-2147483648)) .int32) (.const one type))
    (.binary .divide (.const one type) (.const (.int32 0) .int32))

theorem oneBelowLeast_folds :
    ((oneBelowLeast (.int64 1) .int64).OnConstants ∧
      (oneBelowLeast (.int32 1) .int32).OnConstants) ∧
    ((oneBelowLeast (.int64 1) .int64).bind {}).Yields {}
      (.const (.int64 (-2147483649)) .int64) {} ∧
    ∃ t, ((oneBelowLeast (.int32 1) .int32).bind {}).Yields {} t {} ∧
      ∀ v codec, t ≠ .const v codec := by
  have wide : (oneBelowLeast (.int64 1) .int64).OnConstants :=
    .cond (.binary _ (.int32 _) (.int64 _)) (.binary _ (.int32 _) (.int64 _))
      (.binary _ (.int64 _) (.int32 _))
  have narrow : (oneBelowLeast (.int32 1) .int32).OnConstants :=
    .cond (.binary _ (.int32 _) (.int32 _)) (.binary _ (.int32 _) (.int32 _))
      (.binary _ (.int32 _) (.int32 _))
  refine ⟨⟨wide, narrow⟩, ?_, ?_⟩
  · obtain ⟨t, bound, constant⟩ := bind_const_iff wide {} {}
    have holds : Width.w64.Holds (-2147483649) := ⟨by decide, by decide⟩
    have exactly : (oneBelowLeast (.int64 1) .int64).HasValue (.integer .w64 (-2147483649) holds) :=
      .ifTrue (.binary (.int32 _) (.int64 _) (.integers rfl))
        (.binary (.int32 _) (.int64 _) (.arithmetic rfl))
    rwa [(constant _ _).mpr ⟨_, exactly, rfl, rfl⟩] at bound
  · obtain ⟨t, bound, constant⟩ := bind_const_iff narrow {} {}
    refine ⟨t, bound, fun v codec isConst => ?_⟩
    obtain ⟨x, exactly, -⟩ := (constant v codec).mp isConst
    cases exactly with
    | ifTrue _ difference =>
      cases difference with
      | binary hl hr gives =>
        cases hl
        cases hr
        cases gives with
        | @arithmetic _ _ _ _ _ n _ _ holds computes =>
          obtain rfl : n = -2147483649 := computes
          exact absurd holds.1 (by decide)
        | integers compared => cases compared
    | ifFalse _ quotient =>
      cases quotient with
      | binary hl hr gives =>
        cases hl
        cases hr
        cases gives with
        | arithmetic computes => exact computes.1 rfl
        | integers compared => cases compared

end Expr

end QueryPipeline
