/-!
The shortest decimal that reads back as a given binary number.

A binary number of fixed precision stands for all reals that round to it, an
interval around it. Of the decimals in this interval the one with the fewest
digits is chosen, and of those the nearest. The search goes over the grids
`10^p`, coarse ones first: if a grid has a point in the interval, then one of
the two neighbours of the number on that grid is such a point, so only these
two are tried. All arithmetic is exact, on natural numbers.
-/

namespace QueryPipeline.Decimal

/-- A positive number `mantissa * 2 ^ exponent` of fixed precision. -/
structure Binary where
  mantissa : Nat
  exponent : Int
  /-- The neighbour below is only half as far away as the neighbour above. -/
  closeBelow : Bool := false
deriving DecidableEq, Repr

/-- A number `coefficient * 10 ^ exponent`. -/
structure Digits where
  coefficient : Nat
  exponent : Int
deriving DecidableEq, Repr

/-- The point chosen on the grid `10 ^ p`, if the number has a neighbour there
that reads back as the number. Of two such neighbours the nearer is chosen, in
a tie the upper one. An end of the interval belongs to it if the mantissa is
even. Lengths are counted in a unit that divides both a quarter of the last
binary place and the distance of two grid points. -/
def onGrid (b : Binary) (p : Int) : Option Digits :=
  let place := b.exponent - 2
  let quarter := Nat.pow 2 place.toNat * Nat.pow 10 (-p).toNat
  let gap := Nat.pow 10 p.toNat * Nat.pow 2 (-place).toNat
  let value := 4 * b.mantissa * quarter
  let low := value - (if b.closeBelow then 1 else 2) * quarter
  let high := value + 2 * quarter
  let inside (c : Nat) : Bool :=
    if b.mantissa % 2 = 0 then low ≤ c * gap && c * gap ≤ high
    else low < c * gap && c * gap < high
  let below := value / gap
  let above := below + 1
  if inside below && (!inside above || value - below * gap < above * gap - value) then
    some ⟨below, p⟩
  else if inside above then some ⟨above, p⟩
  else none

/-- A power of ten above the number: `log10 2` lies below `30103 / 100000`. -/
def orderAbove (b : Binary) : Int :=
  (b.exponent + b.mantissa.log2 + 1) * 30103 / 100000 + 1

/-- The shortest decimal that reads back as the number. Seventeen digits are
enough for a mantissa of 53 bits, so one of the first twenty grids has it. -/
def shortest (b : Binary) : Digits :=
  ((List.range 20).findSome? fun (i : Nat) => onGrid b (orderAbove b - i)).getD ⟨0, 0⟩

end QueryPipeline.Decimal
