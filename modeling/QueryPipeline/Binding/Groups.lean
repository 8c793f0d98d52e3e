import QueryPipeline.Binding.Sequence

/-!
The rows of a group as a sequence: filters and projections are collected, and
an operator that ends the sequence becomes an accumulator of the group stage.
-/

namespace QueryPipeline

/-- The rows of a group. -/
structure Group where
  /-- The position of the group stage. -/
  stage : Nat
  /-- How the group's row reads its key. -/
  key : Term
  /-- What counts as an element of the group. -/
  element : Term
  /-- Which elements count. -/
  predicate : Option Term := none
  /-- Equal elements count once. -/
  distinct : Bool := false
deriving Repr

/-- The accumulator that an aggregate asks for. -/
def Aggregate.accumulator : Aggregate → AccumulatorKind
  | .count | .longCount => .count
  | .sum => .sum
  | .average => .avg
  | .min => .min
  | .max => .max

/-- The accumulator that picks an element of a group. A group cannot be checked
to have a single one. -/
def Pick.accumulator? : Pick → Option AccumulatorKind
  | .first | .firstOrDefault => some .first
  | .last | .lastOrDefault => some .last
  | .single | .singleOrDefault => none

namespace Group

/-- The group as a term. -/
def term (g : Group) : Term := .grouping g.stage g.key g.element g.predicate g.distinct

/-- An accumulator of the group, under a new name. -/
def accumulator (g : Group) (kind : AccumulatorKind) (source : Term) (codec : Codec) :
    BindM Term := do
  return .accumulator g.stage kind source (← BindM.mint) codec

/-- Keeps the elements that satisfy a predicate, besides those before it. -/
def filter (g : Group) (predicate : Term) : Group :=
  { g with predicate := some (g.predicate.elim predicate (.binary .and · predicate)) }

/-- What an aggregate takes from an element: a one to count it, else its value. -/
def aggregated (kind : Aggregate) (value : Term) : Term :=
  match kind with
  | .count | .longCount => .int32 1
  | _ => value

/-- The codec of an aggregate of values. -/
def aggregateCodec (kind : Aggregate) (value : Term) : Codec :=
  match kind with
  | .count => .int32
  | .longCount => .int64
  | .average => .double
  | .sum | .min | .max => value.codec

/-- What an element that does not count adds to an aggregate: zero to counts and
sums, and null, which the others pass over. -/
def neutral (kind : Aggregate) (source : Term) : Term :=
  match kind with
  | .count | .longCount | .sum => .int32 0
  | .average | .min | .max => .const .null source.codec

/-- An aggregate of the elements that count. Accumulators see equal elements one
by one, so a group of distinct elements is refused. -/
def aggregate (g : Group) (kind : Aggregate) (selector : Option Lambda) (site : String) :
    BindM Term :=
  if g.distinct then .unsupported site
  else
    let value := (selector.map Lambda.body).getD g.element
    let source := aggregated kind value
    let counted := match g.predicate with
      | some predicate => .cond predicate source (neutral kind source)
      | none => source
    g.accumulator kind.accumulator counted (aggregateCodec kind value)

/-- Collects the elements, each once if equal ones count once. -/
def collect (g : Group) (site : String) : BindM Term :=
  if g.predicate.isSome then .unsupported site
  else g.accumulator (if g.distinct then .addToSet else .push) g.element
    (.arrayOf g.element.codec)

/-- Picks the first or the last element. -/
def pick (g : Group) (kind : Pick) (site : String) : BindM Term :=
  if g.predicate.isSome || g.distinct then .unsupported site
  else
    match kind.accumulator? with
    | some accumulator => g.accumulator accumulator g.element g.element.codec
    | none => .unsupported site

end Group

instance : Sequence Group Term where
  item g _ := g.element
  filter g predicate _ := .ok (g.filter predicate.body)
  project g selector _ := .ok { g with element := selector.body }
  distinct g _ := .ok { g with distinct := true }
  collect g site := return .terminal (← g.collect site)
  aggregate := Group.aggregate
  element := Group.pick

end QueryPipeline
