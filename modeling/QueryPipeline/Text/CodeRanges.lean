/-!
Sets of characters as ranges of code points. The tables of character classes are
lists of such ranges, ascending and apart, so that each is the only list for its
set.
-/

namespace QueryPipeline.Text

/-- Ranges of code points, both ends included. -/
abbrev CodeRanges := List (Nat × Nat)

namespace CodeRanges

/-- Whether a character lies in one of the ranges. -/
def contains (ranges : CodeRanges) (c : Char) : Bool :=
  ranges.any fun r => r.1 ≤ c.toNat && c.toNat ≤ r.2

/-- Whether the ranges ascend and do not touch each other. -/
def isAscending : CodeRanges → Bool
  | [] => true
  | [r] => r.1 ≤ r.2
  | r :: s :: rest => r.1 ≤ r.2 && r.2 + 1 < s.1 && isAscending (s :: rest)

/-- The number of code points. -/
def size (ranges : CodeRanges) : Nat := ranges.foldl (fun n r => n + (r.2 + 1 - r.1)) 0

end CodeRanges

end QueryPipeline.Text
