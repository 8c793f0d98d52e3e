import QueryPipeline.Codec.Basic
import QueryPipeline.FieldPath
import QueryPipeline.UniqueMap
import QueryPipeline.Window

/-!
Terms: what an expression of a query has become once its names are resolved.
Parameters are gone, members are field paths, and sequence operators on arrays
are filters, maps and reductions. Two forms belong to grouped rows: an
accumulator is computed by the group stage it names, and a grouping stands for
the rows of a group as such.
-/

namespace QueryPipeline

/-- How a group reduces the values of its rows. -/
inductive AccumulatorKind where
  | count
  | sum
  | avg
  | min
  | max
  | first
  | last
  | push
  | addToSet
deriving DecidableEq, Repr

/-- Operators on arrays as sets. -/
inductive SetOp where
  | union
  | difference
  | intersection
  | distinct
deriving DecidableEq, Repr

/-- Reductions of an array to one value. -/
inductive ReduceOp where
  | sum
  | avg
  | min
  | max
deriving DecidableEq, Repr

/-- The direction of a sort key. -/
inductive Direction where
  | ascending
  | descending
deriving DecidableEq, Repr

/-- A key that sorts the items of an array: a path in the item, or the item
itself. -/
structure ItemKey where
  path : Option String
  direction : Direction
deriving DecidableEq, Repr

/-- Terms. Groups are named by the position of their stage. -/
inductive Term where
  | const (value : Value) (codec : Codec)
  | field (path : FieldPath) (codec : Codec)
  | document (fields : List (String × Term))
  /-- The current item of the array a sub-query runs over, read by a variable. -/
  | item (array : Term) (var : String) (codec : Codec)
  | accumulator (group : Nat) (kind : AccumulatorKind) (source : Term) (output : String)
      (codec : Codec)
  | binary (op : BinaryOp) (left right : Term)
  | unary (op : UnaryOp) (operand : Term)
  | cond (test ifTrue ifFalse : Term)
  | filter (input : Term) (var : String) (condition : Term)
  | map (input : Term) (var : String) (body : Term)
  | anyTrue (array : Term)
  | allTrue (array : Term)
  | setOp (op : SetOp) (arguments : List Term)
  | size (array : Term)
  | contained (value array : Term)
  | elemAt (array position : Term)
  | slice (array : Term) (bounds : Bounds)
  | reduce (op : ReduceOp) (input : Term) (codec : Codec)
  | sortArray (input : Term) (keys : List ItemKey)
  | getField (input : Term) (name : String) (codec : Codec)
  /-- The rows of a group: their key, what counts as an element, which elements
  count, and whether equal elements count once. -/
  | grouping (group : Nat) (key element : Term) (predicate : Option Term) (distinct : Bool)
deriving Repr

instance : Inhabited Term := ⟨.document []⟩

namespace Term

/-- The row itself, with the codec of its documents. -/
def root (codec : Codec) : Term := .field .root codec

/-- A truth value. -/
def bool (b : Bool) : Term := .const (.bool b) .boolean

/-- A 32-bit integer. -/
def int32 (n : Int32) : Term := .const (.int32 n) .int32

/-- A text. -/
def string (s : String) : Term := .const (.string s) .string

/-- The document with the given members. -/
def ofMembers (members : UniqueMap String Term) : Term := .document members.entries

/-- Whether the term reads the row itself. -/
def isRoot : Term → Bool
  | .field path _ => path.isRoot
  | _ => false

/-- Whether the term is the rows of a group. -/
def isGrouping : Term → Bool
  | .grouping .. => true
  | _ => false

/-! ### Codecs -/

mutual
/-- How the value of a term is stored. Comparisons and conditions give truth
values, arithmetic is done with doubles if its right operand is one and else
gives what its left operand is; a document has a class of its own. -/
def codec : Term → Codec
  | .const _ codec => codec
  | .field _ codec => codec
  | .document fields => .document (.ofRecord (fieldCodecs fields))
  | .item _ _ codec => codec
  | .accumulator _ _ _ _ codec => codec
  | .binary op left right =>
      if op.isComparison || op.isConnective then .boolean
      else if right.codec.isDouble then .double
      else left.codec
  | .unary .not _ => .boolean
  | .unary .negate operand => operand.codec
  | .cond _ ifTrue _ => ifTrue.codec
  | .filter input _ _ => input.codec
  | .map _ _ body => .arrayOf body.codec
  | .anyTrue _ | .allTrue _ | .contained _ _ => .boolean
  | .setOp _ [] => .dynamic
  | .setOp _ (first :: _) => first.codec
  | .size _ => .int32
  | .elemAt array _ => array.codec.item?.getD .dynamic
  | .slice array _ => array.codec
  | .reduce _ _ codec => codec
  | .sortArray input _ => input.codec
  | .getField _ _ codec => codec
  | .grouping _ _ element _ _ => .arrayOf element.codec

def fieldCodecs : List (String × Term) → List (String × Codec)
  | [] => []
  | (name, t) :: rest => (name, t.codec) :: fieldCodecs rest
end

theorem fieldCodecs_eq (fields : List (String × Term)) :
    fieldCodecs fields = fields.map fun f => (f.1, f.2.codec) := by
  induction fields with
  | nil => rfl
  | cons f fields ih => simp [fieldCodecs, ih]

/-! ### Parts -/

/-- The terms right below a term, in the order in which they are written. -/
def children : Term → List Term
  | .const _ _ | .field _ _ => []
  | .document fields => fields.map Prod.snd
  | .item array _ _ => [array]
  | .accumulator _ _ source _ _ => [source]
  | .binary _ left right => [left, right]
  | .unary _ operand => [operand]
  | .cond test ifTrue ifFalse => [test, ifTrue, ifFalse]
  | .filter input _ condition => [input, condition]
  | .map input _ body => [input, body]
  | .anyTrue array | .allTrue array | .size array => [array]
  | .setOp _ arguments => arguments
  | .contained value array => [value, array]
  | .elemAt array position => [array, position]
  | .slice array _ => [array]
  | .reduce _ input _ => [input]
  | .sortArray input _ => [input]
  | .getField input _ _ => [input]
  | .grouping _ key element predicate _ => [key, element] ++ predicate.toList

mutual
/-- The term and all terms below it, each before its own parts. -/
def subterms : Term → List Term
  | t@(.const _ _) | t@(.field _ _) => [t]
  | .document fields => .document fields :: fieldSubterms fields
  | .item array var codec => .item array var codec :: array.subterms
  | .accumulator group kind source output codec =>
      .accumulator group kind source output codec :: source.subterms
  | .binary op left right => .binary op left right :: (left.subterms ++ right.subterms)
  | .unary op operand => .unary op operand :: operand.subterms
  | .cond test ifTrue ifFalse =>
      .cond test ifTrue ifFalse ::
        (test.subterms ++ (ifTrue.subterms ++ ifFalse.subterms))
  | .filter input var condition =>
      .filter input var condition :: (input.subterms ++ condition.subterms)
  | .map input var body => .map input var body :: (input.subterms ++ body.subterms)
  | .anyTrue array => .anyTrue array :: array.subterms
  | .allTrue array => .allTrue array :: array.subterms
  | .setOp op arguments => .setOp op arguments :: allSubterms arguments
  | .size array => .size array :: array.subterms
  | .contained value array =>
      .contained value array :: (value.subterms ++ array.subterms)
  | .elemAt array position =>
      .elemAt array position :: (array.subterms ++ position.subterms)
  | .slice array bounds => .slice array bounds :: array.subterms
  | .reduce op input codec => .reduce op input codec :: input.subterms
  | .sortArray input keys => .sortArray input keys :: input.subterms
  | .getField input name codec => .getField input name codec :: input.subterms
  | .grouping group key element none distinct =>
      .grouping group key element none distinct :: (key.subterms ++ element.subterms)
  | .grouping group key element (some predicate) distinct =>
      .grouping group key element (some predicate) distinct ::
        (key.subterms ++ (element.subterms ++ predicate.subterms))

def allSubterms : List Term → List Term
  | [] => []
  | t :: ts => t.subterms ++ allSubterms ts

def fieldSubterms : List (String × Term) → List Term
  | [] => []
  | (_, t) :: rest => t.subterms ++ fieldSubterms rest
end

/-- Whether a term with a property is the term or lies below it. -/
def contains (p : Term → Bool) (t : Term) : Bool := t.subterms.any p

theorem allSubterms_eq (ts : List Term) : allSubterms ts = ts.flatMap subterms := by
  induction ts with
  | nil => rfl
  | cons t ts ih => simp [allSubterms, ih]

theorem fieldSubterms_eq (fields : List (String × Term)) :
    fieldSubterms fields = (fields.map Prod.snd).flatMap subterms := by
  induction fields with
  | nil => rfl
  | cons f fields ih => obtain ⟨_, t⟩ := f; simp [fieldSubterms, ih]

/-- What lies below a term is the term and what lies below its parts. -/
theorem subterms_eq (t : Term) : t.subterms = t :: t.children.flatMap subterms := by
  cases t with
  | grouping group key element predicate distinct =>
    cases predicate <;> simp [subterms, children]
  | _ => simp [subterms, children, allSubterms_eq, fieldSubterms_eq]

/-! ### Sameness -/

mutual
/-- Whether two terms agree in all their parts. Their constants are compared
as values, so the order of the fields of a constant document does not count. -/
def same : Term → Term → Bool
  | .const v c, .const v' c' => v.same v' && c == c'
  | .field p c, .field p' c' => p == p' && c == c'
  | .document a, .document b => sameFields a b
  | .item a v c, .item a' v' c' => a.same a' && v == v' && c == c'
  | .accumulator g k s o c, .accumulator g' k' s' o' c' =>
      g == g' && k == k' && s.same s' && o == o' && c == c'
  | .binary op l r, .binary op' l' r' => op == op' && l.same l' && r.same r'
  | .unary op e, .unary op' e' => op == op' && e.same e'
  | .cond t a b, .cond t' a' b' => t.same t' && a.same a' && b.same b'
  | .filter i v c, .filter i' v' c' => i.same i' && v == v' && c.same c'
  | .map i v b, .map i' v' b' => i.same i' && v == v' && b.same b'
  | .anyTrue e, .anyTrue e' => e.same e'
  | .allTrue e, .allTrue e' => e.same e'
  | .setOp op a, .setOp op' b => op == op' && sameAll a b
  | .size e, .size e' => e.same e'
  | .contained v a, .contained v' a' => v.same v' && a.same a'
  | .elemAt a i, .elemAt a' i' => a.same a' && i.same i'
  | .slice a b, .slice a' b' => a.same a' && b == b'
  | .reduce op i c, .reduce op' i' c' => op == op' && i.same i' && c == c'
  | .sortArray i k, .sortArray i' k' => i.same i' && k == k'
  | .getField i n c, .getField i' n' c' => i.same i' && n == n' && c == c'
  | .grouping g k e none d, .grouping g' k' e' none d' =>
      g == g' && k.same k' && e.same e' && d == d'
  | .grouping g k e (some p) d, .grouping g' k' e' (some p') d' =>
      g == g' && k.same k' && e.same e' && p.same p' && d == d'
  | _, _ => false

def sameAll : List Term → List Term → Bool
  | [], [] => true
  | t :: ts, t' :: ts' => t.same t' && sameAll ts ts'
  | _, _ => false

def sameFields : List (String × Term) → List (String × Term) → Bool
  | [], [] => true
  | (k, t) :: fs, (k', t') :: fs' => k == k' && t.same t' && sameFields fs fs'
  | _, _ => false
end

end Term

end QueryPipeline
