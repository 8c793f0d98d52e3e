import QueryPipeline.Query.Basic

/-!
Operators on constants. A result is given only if it is exact: an integer that
leaves its width, a quotient with a remainder and arithmetic with doubles are
left to the server.
-/

namespace QueryPipeline

/-- The width of an integer. -/
inductive Width where
  | w32
  | w64
deriving DecidableEq, Repr

namespace Width

/-- One past the greatest integer of a width. -/
def bound : Width → Int
  | .w32 => 2147483648
  | .w64 => 9223372036854775808

/-- Whether an integer has a place in a width. -/
def fits (w : Width) (n : Int) : Bool := -w.bound ≤ n && n < w.bound

/-- The value of an integer in a width. -/
def value : Width → Int → Value
  | .w32, n => .int32 (.ofInt n)
  | .w64, n => .int64 (.ofInt n)

/-- The greater of two widths. -/
def join : Width → Width → Width
  | .w32, .w32 => .w32
  | _, _ => .w64

end Width

namespace Value

/-- The width and the number of an integer. -/
def integer? : Value → Option (Width × Int)
  | .int32 n => some (.w32, n.toInt)
  | .int64 n => some (.w64, n.toInt)
  | _ => none

/-- The order of two values of one kind: integers of any width, doubles, texts
by their characters, and truth values. -/
def compare? : Value → Value → Option Ordering
  | .int32 a, .int32 b => some (compare a.toInt b.toInt)
  | .int64 a, .int64 b => some (compare a.toInt b.toInt)
  | .int32 a, .int64 b => some (compare a.toInt b.toInt)
  | .int64 a, .int32 b => some (compare a.toInt b.toInt)
  | .double a, .double b => a.compare? b
  | .string a, .string b => some (compare a b)
  | .bool a, .bool b => some (compare a b)
  | _, _ => none

end Value

/-- The answer of a comparison of two values in an order. -/
def BinaryOp.holds : BinaryOp → Ordering → Option Bool
  | .eq, o => some (o == .eq)
  | .ne, o => some (o != .eq)
  | .lt, o => some (o == .lt)
  | .lte, o => some (o != .gt)
  | .gt, o => some (o == .gt)
  | .gte, o => some (o != .lt)
  | _, _ => none

/-- The exact result of arithmetic in a width. A division must leave no
remainder; a remainder has the sign of the dividend, and the quotient that
goes with it must fit the width as well. -/
def BinaryOp.compute? (op : BinaryOp) (w : Width) (l r : Int) : Option Int :=
  match op with
  | .add => fitting (l + r)
  | .subtract => fitting (l - r)
  | .multiply => fitting (l * r)
  | .divide => if r = 0 || l.tmod r ≠ 0 then none else fitting (l.tdiv r)
  | .modulo => if r = 0 || !w.fits (l.tdiv r) then none else some (l.tmod r)
  | _ => none
where
  fitting (n : Int) : Option Int := if w.fits n then some n else none

namespace Value

/-- The value of a binary operator on two constants, where it is exact. -/
def foldBinary (op : BinaryOp) (l r : Value) : Option Value :=
  if op.isComparison then do
    let order ← l.compare? r
    let answer ← op.holds order
    return .bool answer
  else
    match op, l, r with
    | .and, .bool a, .bool b => some (.bool (a && b))
    | .or, .bool a, .bool b => some (.bool (a || b))
    | _, _, _ => do
        let (wl, a) ← l.integer?
        let (wr, b) ← r.integer?
        let n ← op.compute? (wl.join wr) a b
        return (wl.join wr).value n

/-- The value of a unary operator on a constant, where it is exact. -/
def foldUnary : UnaryOp → Value → Option Value
  | .not, .bool b => some (.bool !b)
  | .negate, v => do
      let (w, n) ← v.integer?
      if w.fits (-n) then return w.value (-n) else none
  | _, _ => none

end Value

end QueryPipeline
