/-!
The window that a run of skips and takes leaves of a sequence: how many
elements are dropped, and how many of the rest are kept. Paging operators only
narrow the window; it is written out once, when the run ends.
-/

namespace QueryPipeline

/-- What is written out for a window: at most one skip and one limit. -/
structure Bounds where
  skip : Option Nat := none
  limit : Option Nat := none
deriving DecidableEq, Repr

/-- A window into a sequence; no limit keeps all that is not skipped. -/
structure Window where
  skipped : Nat := 0
  limit : Option Nat := none
deriving DecidableEq, Repr

namespace Window

instance : Inhabited Window := ⟨{}⟩

/-- Offsets saturate at the largest 64-bit count. -/
def maxOffset : Nat := 18446744073709551615

/-- The offset moved on by a number of elements. -/
def advance (w : Window) (n : Nat) : Nat := min (w.skipped + n) maxOffset

/-- Drops elements from the front. Dropping all that a limit had left closes
the window. -/
def skip (w : Window) (n : Nat) : Window :=
  match w.limit with
  | none => ⟨w.advance n, none⟩
  | some limit =>
    if limit ≤ n then ⟨w.advance limit, some 0⟩
    else ⟨w.advance n, some (limit - n)⟩

/-- Keeps at most a number of elements; of two limits the smaller one counts. -/
def take (w : Window) (n : Nat) : Window :=
  { w with limit := some (w.limit.elim n (min · n)) }

/-- Whether the window leaves anything to write out. -/
def isPending (w : Window) : Bool := w.skipped > 0 || w.limit.isSome

/-- Whether the window holds no element of any sequence. -/
def isEmpty (w : Window) : Bool := w.limit == some 0

/-- The bounds to write out. An empty window needs no offset. -/
def bounds (w : Window) : Bounds :=
  if w.isEmpty then ⟨some 0, some 0⟩
  else ⟨if w.skipped > 0 then some w.skipped else none, w.limit⟩

/-- The window that bounds describe. -/
def ofBounds (b : Bounds) : Window :=
  let w := ({} : Window).skip (b.skip.getD 0)
  match b.limit with
  | some limit => w.take limit
  | none => w

end Window

end QueryPipeline
