import QueryPipeline.Decimal.Layout

/-!
Floating-point numbers of 64 bits, held as their bits: sign, eleven bits of
exponent and 52 bits of fraction. Queries carry such numbers, compare them and
show them; arithmetic on them is left to the server.
-/

namespace QueryPipeline

/-- A floating-point number, by its bits. -/
structure Double where
  bits : UInt64
deriving DecidableEq, Repr

namespace Double

/-- The value of the sign bit. -/
def signValue : Nat := 0x8000000000000000

/-- The value of the last bit of the exponent: one more than the greatest
fraction. -/
def fractionSize : Nat := 0x10000000000000

/-- Whether the sign bit is set. -/
def isNegative (d : Double) : Bool := signValue ≤ d.bits.toNat

/-- The bits without the sign. They grow with the absolute value. -/
def magnitude (d : Double) : Nat := d.bits.toNat % signValue

/-- The bits of an infinity without the sign. -/
def infinityMagnitude : Nat := 0x7FF0000000000000

/-- Whether the bits stand for no number. -/
def isNaN (d : Double) : Bool := d.magnitude > infinityMagnitude

/-- A number that orders all doubles but NaN. Both zeros have the rank 0. -/
def rank (d : Double) : Int :=
  if d.isNegative then -(d.magnitude : Int) else d.magnitude

/-- The order of two doubles; NaN has no place in it. -/
def compare? (a b : Double) : Option Ordering :=
  if a.isNaN || b.isNaN then none else some (compare a.rank b.rank)

/-- Equality of numbers: NaN differs from itself, and the zeros are equal. -/
def same (a b : Double) : Bool := a.compare? b == some .eq

/-! ### Text -/

/-- The absolute value of a double that is finite and not zero. A number whose
fraction bits are all zero is the least of its exponent, so its neighbour below
is nearer than the one above, except where the exponents end. -/
def toBinary (d : Double) : Decimal.Binary :=
  let exponent : Nat := d.magnitude / fractionSize
  let fraction : Nat := d.magnitude % fractionSize
  if exponent = 0 then ⟨fraction, -1074, false⟩
  else ⟨fractionSize + fraction, (exponent : Int) - 1075, fraction = 0 && exponent > 1⟩

/-- The text of a double in a layout. -/
def text (layout : Decimal.Layout) (d : Double) : String :=
  if d.isNaN then "NaN"
  else
    let digits :=
      if d.magnitude = infinityMagnitude then ['i', 'n', 'f']
      else if d.magnitude = 0 then layout.zero
      else layout.render (Decimal.shortest d.toBinary)
    String.ofList (if d.isNegative then '-' :: digits else digits)

end Double

end QueryPipeline
