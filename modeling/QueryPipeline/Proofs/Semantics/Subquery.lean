import Mathlib.Logic.Function.Basic
import QueryPipeline.Proofs.Semantics.Paging
import QueryPipeline.Proofs.Semantics.Query
import QueryPipeline.Proofs.Semantics.Term

/-!
What sub-queries mean to their author: the calls of a chain are applied, one after the
other, to the list of the items of an array. A lambda may read the parameters of the
lambdas around it and may hold chains of its own.

An expression means an outline, which is known without any row, and a function of what its
parameters stand for. The outline gives the static codecs by which members are read. The
function has no value where the source of a chain is no array, or an array of more items
than a count can number. What other operators mean is left open: `other?` says it.
-/

namespace QueryPipeline

/-! ### Outlines -/

/-- What is known of the value of an expression before any row is read. -/
inductive Outline where
  | value (shape : Shape)
  | record (members : List (String × Outline))
  /-- The rows of a group, of which an expression reads the key. -/
  | group (key : Outline) (codec : Codec)

namespace Outline

mutual
/-- The static codec. -/
def codec : Outline → Codec
  | .value shape => shape.codec
  | .record members => .document (.ofRecord (memberCodecs members))
  | .group _ codec => codec

def memberCodecs : List (String × Outline) → List (String × Codec)
  | [] => []
  | (name, o) :: rest => (name, o.codec) :: memberCodecs rest
end

/-- A value that a row decides. -/
def stored (codec : Codec) : Outline := .value (.stored codec)

/-- The outline of a value with a shape. Operators on constant arrays are not folded, so
it does not matter which array a constant is. -/
def ofShape : Shape → Outline
  | .constant (.array _) codec => .stored codec
  | shape => .value shape

/-- The outline as operators see it. -/
def shape : Outline → Shape
  | .value shape => shape
  | o => .stored o.codec

/-- A unary operator. -/
def unary (op : UnaryOp) (operand : Outline) : Outline := .ofShape (.unary op operand.shape)

/-- A binary operator. -/
def binary (op : BinaryOp) (left right : Outline) : Outline :=
  .ofShape (.binary op left.shape right.shape)

/-- A condition: the branch that is chosen, where the test is decided. -/
def cond (test ifTrue ifFalse : Outline) : Outline :=
  match test with
  | .value (.constant (.bool b) _) => if b then ifTrue else ifFalse
  | _ => .stored ifTrue.codec

/-- The codec of the items, for an array that a sub-query can run over. -/
def itemCodec? : Outline → Option Codec
  | .value (.stored codec) => codec.item?
  | _ => none

end Outline

/-! ### Data -/

/-- What an expression stands for. A record and a group keep their parts as they are; a
value may be missing. -/
inductive Datum where
  | value (v : Option Value)
  | record (members : List (String × Datum))
  | group (key : Datum)

namespace Datum

mutual
/-- The value as it is stored. A group has none. -/
def stored : Datum → Option Value
  | .value v => v
  | .record members => some (.document (Document.ofPresent (storedMembers members)))
  | .group _ => none

def storedMembers : List (String × Datum) → List (String × Option Value)
  | [] => []
  | (name, d) :: rest => (name, d.stored) :: storedMembers rest
end

/-- The member of a record. -/
def part (name : String) : Datum → Datum
  | .record members => ((members.find? (·.1 == name)).map Prod.snd).getD (.value none)
  | _ => .value none

/-- The key of a group. -/
def key : Datum → Datum
  | .group key => key
  | _ => .value none

/-- The items of an array, if their number is a count. -/
def items? (d : Datum) : Option (List Value) :=
  match d.stored with
  | some (.array items) => if items.length ≤ Window.maxOffset then some items else none
  | _ => none

end Datum

namespace Outline

/-- What is kept of a datum where the outline says that it is a value. -/
def view : Outline → Datum → Datum
  | .value _, d => .value d.stored
  | _, d => d

/-- The outline of a member, and how it is read. -/
def member? (registry : Registry) (engine : Engine) (o : Outline) (name : String) :
    Option (Outline × (Datum → Datum)) :=
  match o with
  | .record members =>
      (members.find? (·.1 == name)).map fun m => (m.2, Datum.part name)
  | .group key _ => if name = "Key" then some (key, Datum.key) else none
  | .value shape =>
      (shape.member? registry name).map fun m =>
        (.value m.2, fun d => .value (m.1.read engine d.stored))

end Outline

/-! ### Meanings -/

/-- What parameters stand for. -/
abbrev Data := String → Option Datum

/-- The meaning of an expression. -/
structure Meaning where
  outline : Outline
  /-- What it stands for, unless the source of a chain in it is no array. -/
  datum : Data → Option Datum

/-- The meaning of a record whose members have meanings. -/
def Meaning.record (members : List (String × Meaning)) : Meaning where
  outline := .record (members.map fun m => (m.1, m.2.outline))
  datum data :=
    (members.mapM fun m : String × Meaning => (m.2.datum data).map (m.1, ·)).map .record

/-- The meaning of an argument: a lambda has one for each outline of its parameter. -/
inductive Operand where
  | lambda (parameter : String) (body : Outline → Option Meaning)
  | value (e : Expr) (meaning : Option Meaning)

/-- A lambda over items of a known codec. -/
structure Selector where
  codec : Codec
  value : Data → Value → Option (Option Value)

namespace Operand

/-- The lambda over items. -/
def selector? (codec : Codec) : Operand → Option Selector
  | .lambda parameter body => do
      let m ← body (.stored codec)
      return {
        codec := m.outline.codec
        value := fun data v =>
          (m.datum (Function.update data parameter (some (.value (some v))))).map
            Datum.stored }
  | .value _ _ => none

/-- The number that an argument is written as. -/
def count? : Operand → Option Nat
  | .value e _ => Paging.count? [e]
  | .lambda _ _ => none

/-- The meaning of an argument that is no lambda. -/
def meaning? : Operand → Option Meaning
  | .value _ meaning => meaning
  | .lambda _ _ => none

end Operand

/-- The items, each with what a lambda makes of it. -/
def Selector.table (f : Selector) (data : Data) (items : List Value) :
    Option (List (Value × Option Value)) :=
  items.mapM fun v => (f.value data v).map (v, ·)

/-- What an operator makes of the items of an array, and its codec. -/
structure Sequel where
  codec : Codec
  value : Data → List Value → Option (Option Value)

namespace Sequel

/-- An array that is made of the items. -/
def ofItems (codec : Codec) (f : List Value → List Value) : Sequel where
  codec := .arrayOf codec
  value _ items := some (some (.array (f items)))

/-- What is made of the items and of the values that a lambda gives for them. -/
def ofTable (codec : Codec) (f : Selector)
    (g : List (Value × Option Value) → Option Value) : Sequel where
  codec
  value data items := (f.table data items).map g

/-- What is made of the items that a predicate keeps, if there is one. -/
def narrowed (engine : Engine) (codec itemCodec : Codec) (operands : List Operand)
    (g : List Value → Option Value) : Option Sequel :=
  match operands with
  | [] => some { codec, value := fun _ items => some (g items) }
  | [predicate] => do
      let f ← predicate.selector? itemCodec
      return .ofTable codec f fun table =>
        g ((table.filter fun a => engine.isTrue a.2).map Prod.fst)
  | _ => none

/-- What a method of a sub-query makes of items of a known codec. -/
def ofMethod? (engine : Engine) (codec : Codec) (method : String) (operands : List Operand) :
    Option Sequel :=
  match method, operands with
  | "Where", [predicate] => do
      let f ← predicate.selector? codec
      return .ofTable (.arrayOf codec) f fun table =>
        some (.array ((table.filter fun a => engine.isTrue a.2).map Prod.fst))
  | "Select", [selector] => do
      let f ← selector.selector? codec
      return .ofTable (.arrayOf f.codec) f fun table =>
        some (.array (table.map fun a => a.2.getD .null))
  | "Skip", [n] => n.count?.map fun n => .ofItems codec (·.drop n)
  | "Take", [n] => n.count?.map fun n => .ofItems codec (·.take n)
  | "Any", [] => some {
      codec := .boolean, value := fun _ items => some (some (.bool !items.isEmpty)) }
  | "Any", [predicate] => do
      let f ← predicate.selector? codec
      return .ofTable .boolean f fun table =>
        some (.bool (table.any fun a => engine.isTrue a.2))
  | "All", [predicate] => do
      let f ← predicate.selector? codec
      return .ofTable .boolean f fun table =>
        some (.bool (table.all fun a => engine.isTrue a.2))
  | "Contains", [v] => do
      let m ← v.meaning?
      return {
        codec := .boolean
        value := fun data items => (m.datum data).map fun d =>
          some (.bool (items.any fun v => engine.isTrue (engine.binary .eq d.stored (some v)))) }
  | "Count", operands =>
      narrowed engine .int32 codec operands fun items => some (.count items.length)
  | "First", operands | "FirstOrDefault", operands =>
      narrowed engine codec codec operands List.head?
  | "Last", operands | "LastOrDefault", operands =>
      narrowed engine codec codec operands List.getLast?
  | "ElementAt", [n] | "ElementAtOrDefault", [n] =>
      n.count?.map fun n => { codec, value := fun _ items => some items[n]? }
  | _, _ => none

end Sequel

/-- What a method makes of a source. -/
def Meaning.apply? (engine : Engine) (source : Meaning) (method : String)
    (operands : List Operand) : Option Meaning := do
  let codec ← source.outline.itemCodec?
  let sequel ← Sequel.ofMethod? engine codec method operands
  return {
    outline := .stored sequel.codec
    datum := fun data => do
      let items ← (source.datum data).bind Datum.items?
      let v ← sequel.value data items
      return .value v }

/-! ### Expressions -/

/-- What expressions with other operators mean, by the outlines of the parameters. -/
abbrev Others := (String → Option Outline) → Expr → Option Meaning

namespace Expr

section

variable (engine : Engine) (registry : Registry) (other? : Others)

mutual
/-- The meaning of an expression whose parameters have given outlines. -/
def meaning? (scope : String → Option Outline) : Expr → Option Meaning
  | .const v type =>
      (registry.codec? type).map fun codec =>
        ⟨.ofShape (.constant v codec), fun _ => some (.value (some v))⟩
  | .param name => (scope name).map fun o => ⟨o, fun data => data name⟩
  | .member target name => do
      let m ← target.meaning? scope
      let (outline, read) ← m.outline.member? registry engine name
      return ⟨outline, fun data => (m.datum data).map read⟩
  | .unary op operand => do
      let m ← operand.meaning? scope
      return ⟨.unary op m.outline, fun data =>
        (m.datum data).map fun d => .value (engine.unary op d.stored)⟩
  | .binary op left right => do
      let l ← left.meaning? scope
      let r ← right.meaning? scope
      return ⟨.binary op l.outline r.outline, fun data => do
        let a ← l.datum data
        let b ← r.datum data
        return .value (engine.binary op a.stored b.stored)⟩
  | .cond test ifTrue ifFalse => do
      let t ← test.meaning? scope
      let yes ← ifTrue.meaning? scope
      let no ← ifFalse.meaning? scope
      let outline := Outline.cond t.outline yes.outline no.outline
      return ⟨outline, fun data => do
        let d ← t.datum data
        (if engine.isTrue d.stored then yes.datum data else no.datum data).map outline.view⟩
  | .new members => do
      let ms ← memberMeanings? scope members
      return .record ms
  | .index array position => do
      let a ← array.meaning? scope
      let p ← position.meaning? scope
      if a.outline.codec.isArray then
        return ⟨.stored (a.outline.codec.item?.getD .dynamic), fun data => do
          let d ← a.datum data
          let i ← p.datum data
          return .value (match d.stored, i.stored.bind Value.integer? with
            | some (.array items), some (_, n) => Value.itemAt items n
            | _, _ => none)⟩
      else none
  | .call source c =>
      (do
        let m ← source.meaning? scope
        m.apply? engine c.name (callOperands scope c)) <|>
      other? scope (.call source c)
  | .lambda _ _ => none

def memberMeanings? (scope : String → Option Outline) :
    List (String × Expr) → Option (List (String × Meaning))
  | [] => some []
  | (name, e) :: rest => do
      let m ← e.meaning? scope
      let ms ← memberMeanings? scope rest
      return (name, m) :: ms

/-- The meanings of the arguments of a call. -/
def callOperands (scope : String → Option Outline) : Call Expr → List Operand
  | ⟨_, _, _, arguments⟩ => operands scope arguments

def operands (scope : String → Option Outline) : List Expr → List Operand
  | [] => []
  | .lambda [parameter] body :: rest =>
      .lambda parameter
        (fun o => body.meaning? (Function.update scope parameter (some o))) ::
          operands scope rest
  | e :: rest => .value e (e.meaning? scope) :: operands scope rest
end

end

end Expr

end QueryPipeline
