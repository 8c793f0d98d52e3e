import QueryPipeline.Decimal.Shortest

/-!
Where the point goes. The digits of a decimal are fixed by then; a layout says
which orders of magnitude are written out in full and whether whole numbers
show a fraction.
-/

namespace QueryPipeline.Decimal

/-- How the digits of a number are written. -/
structure Layout where
  /-- The least and the greatest order of magnitude that is written without an
  exponent; without bounds every number is. -/
  positional : Option (Int × Int)
  /-- A number without a fraction ends in a point and a zero. -/
  wholeFraction : Bool
deriving DecidableEq, Repr

/-- A row of zeros. -/
def zeros (n : Nat) : List Char := List.replicate n '0'

/-- The digits around the point, `before` of them in front of it. -/
def positionalText (wholeFraction : Bool) (digits : List Char) (before : Int) : List Char :=
  if before ≤ 0 then ['0', '.'] ++ zeros (-before).toNat ++ digits
  else
    let n := before.toNat
    if digits.length ≤ n then
      digits ++ zeros (n - digits.length) ++ (if wholeFraction then ['.', '0'] else [])
    else digits.take n ++ ['.'] ++ digits.drop n

/-- One digit, the fraction if there is one, and the order of magnitude. -/
def exponentText (digits : List Char) (order : Int) : List Char :=
  digits.take 1 ++ (if digits.length ≤ 1 then [] else ['.'] ++ digits.drop 1) ++
    ['e'] ++ (toString order).toList

/-- The text of a positive decimal. -/
def Layout.render (layout : Layout) (d : Digits) : List Char :=
  let digits := Nat.toDigits 10 d.coefficient
  let before := digits.length + d.exponent
  let order := before - 1
  let inFull := match layout.positional with
    | none => true
    | some (least, greatest) => least ≤ order && order ≤ greatest
  if inFull then positionalText layout.wholeFraction digits before
  else exponentText digits order

/-- The text of zero. -/
def Layout.zero (layout : Layout) : List Char :=
  if layout.wholeFraction then ['0', '.', '0'] else ['0']

end QueryPipeline.Decimal
