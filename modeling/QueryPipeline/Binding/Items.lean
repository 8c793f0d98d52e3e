import QueryPipeline.Binding.Rows

/-!
The items of an array inside a document as a sequence: operators build up one
expression. Each call inside an expression starts from the expression that the
call before it ended with, so an array that is a slice goes on with its window,
and one that is sorted with its sort.
-/

namespace QueryPipeline

/-- The items of an array. -/
structure Items where
  array : Term
  /-- The codec of the items. -/
  codec : Codec
  paging : Window := {}
  sortOpen : Bool := false
deriving Repr

/-- The variable that reads the item whose class is tested. -/
def classVar : String := "item"

/-- The reduction that an aggregate asks for, unless it counts. -/
def Aggregate.reduceOp? : Aggregate → Option ReduceOp
  | .count | .longCount => none
  | .sum => some .sum
  | .average => some .avg
  | .min => some .min
  | .max => some .max

/-- Whether the term is a sorted array. -/
def Term.isSorted : Term → Bool
  | .sortArray _ _ => true
  | _ => false

/-- A position in an array. -/
def Term.position (n : Int) : Term :=
  if Width.w32.fits n then .int32 (.ofInt n) else .const (.int64 (.ofInt n)) .int64

namespace Items

/-- The items of an array whose item codec is known. -/
def ofArray (array : Term) (codec : Codec) : Items :=
  match array with
  | .slice inner bounds => { array := inner, codec, paging := .ofBounds bounds }
  | _ => { array, codec, sortOpen := array.isSorted }

/-- The items of a term, with the text of the call for a report. -/
def ofTerm (t : Term) (site : String) : Except BindingError Items :=
  match t.codec.item? with
  | some codec => .ok (ofArray t codec)
  | none => .error (.unknownItems site)

/-- The array that a window leaves. An empty one is written as the empty array. -/
def windowed (s : Items) : Term :=
  if !s.paging.isPending then s.array
  else if s.paging.isEmpty then .const (.array []) (.arrayOf s.codec)
  else .slice s.array s.paging.bounds

/-- Writes out the paging that was held back. -/
def flush (s : Items) : Items := { s with array := s.windowed, paging := {} }

/-- How a variable reads the current item. -/
def item (s : Items) (var : String) : Term := .item s.array var s.codec

/-- The array of the values of a lambda. -/
def mapped (s : Items) (selector : Lambda) : Term :=
  .map s.windowed selector.var selector.body

/-- The sequence over another array of the same items. -/
def withArray (s : Items) (array : Term) : Items := { s.flush with array }

/-- The key that a lambda sorts by: the item, or a field of it. -/
def sortKey (key : Lambda) (direction : Direction) (site : String) :
    Except BindingError ItemKey :=
  match key.body with
  | .item _ var _ => if var = key.var then .ok ⟨none, direction⟩ else refuse site
  | .field path _ =>
    if path.var = some key.var && !path.segments.isEmpty then
      .ok ⟨some path.dotted, direction⟩
    else refuse site
  | _ => refuse site

/-- Sorts the items. -/
def sortBy (s : Items) (key : Lambda) (direction : Direction) (site : String) :
    Except BindingError Items := do
  let key ← sortKey key direction site
  return { s.withArray (.sortArray s.windowed [key]) with sortOpen := true }

/-- Adds a key to an open sort. -/
def thenBy (s : Items) (key : Lambda) (direction : Direction) (site : String) :
    Except BindingError Items := do
  let key ← sortKey key direction site
  match s.sortOpen, s.array with
  | true, .sortArray input keys => return { s with array := .sortArray input (keys ++ [key]) }
  | _, _ => refuse site

/-- An operation with another array as sets. -/
def combine (s : Items) (op : SetOp) (other : Term) (site : String) :
    Except BindingError Items :=
  if other.codec.isArray then .ok (s.withArray (.setOp op [s.windowed, other]))
  else refuse site

/-- Keeps the documents of a class. -/
def ofType (s : Items) (c : ClassMap) (site : String) : Except BindingError Items :=
  match c.discriminator with
  | some mark =>
    let path := (FieldPath.ofVar classVar).child discriminatorElement
    let isMarked := Term.binary .eq (.field path .string) (.string mark)
    .ok { s.withArray (.filter s.windowed classVar isMarked) with codec := .document c }
  | none => refuse site

/-- Whether there is an item, or one that satisfies a predicate. -/
def any (s : Items) : Option Lambda → Term
  | some predicate => .anyTrue (s.mapped predicate)
  | none => .binary .gt (.size s.windowed) (.int32 0)

/-- An aggregate of the items or of what a selector makes of them. -/
def aggregate (s : Items) (kind : Aggregate) (selector : Option Lambda) : Term :=
  match kind.reduceOp? with
  | none => .size s.windowed
  | some op =>
    let (input, codec) := match selector with
      | some selector => (s.mapped selector, selector.body.codec)
      | none => (s.windowed, s.codec)
    .reduce op input (if op = .avg then .double else codec)

/-- Picks an item. The first item of a window that is not empty stands at the
offset of the window, so no slice is needed. -/
def element (s : Items) (kind : Pick) (site : String) : Except BindingError Term :=
  match kind with
  | .first | .firstOrDefault =>
    if s.paging.isPending && !s.paging.isEmpty then
      let offset : Int := (s.paging.bounds.skip.getD 0 : Nat)
      if Width.w64.fits offset then .ok (.elemAt s.array (.position offset)) else refuse site
    else .ok (.elemAt s.windowed (.position 0))
  | .last | .lastOrDefault => .ok (.elemAt s.windowed (.position (-1)))
  | .single | .singleOrDefault => refuse site

end Items

instance : Sequence Items Term where
  item := Items.item
  closeSort s := { s with sortOpen := false }
  filter s predicate _ := .ok (s.withArray (.filter s.windowed predicate.var predicate.body))
  project s selector _ := .ok { array := s.mapped selector, codec := selector.body.codec }
  distinct s _ := .ok (s.withArray (.setOp .distinct [s.windowed]))
  sortBy := Items.sortBy
  thenBy := Items.thenBy
  skip s n _ := .ok { s with paging := s.paging.skip n }
  take s n _ := .ok { s with paging := s.paging.take n }
  ofType := Items.ofType
  combine := Items.combine
  any s predicate _ := .ok (s.any predicate)
  all s predicate _ := .ok (.allTrue (s.mapped predicate))
  contains s value _ := .ok (.contained value s.windowed)
  aggregate s kind selector _ := return s.aggregate kind selector
  element s kind site := .ofExcept (s.element kind site)

end QueryPipeline
