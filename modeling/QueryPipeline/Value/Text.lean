import QueryPipeline.Calendar
import QueryPipeline.Value.Basic

/-!
The text of a value inside a document. Strings stand between double quotes as
they are, nothing in them is escaped.
-/

namespace QueryPipeline.Value

/-- Numbers in a document are written out in full, whatever their size, and a
whole number has no fraction. -/
def plainLayout : Decimal.Layout := ⟨none, false⟩

/-- The text between double quotes, as it is. -/
def enclosed (s : String) : String := "\"" ++ s ++ "\""

/-- The items of an array between brackets. -/
def bracketed (items : List String) : String := "[" ++ ", ".intercalate items ++ "]"

mutual
/-- The text of a value. Decimals and binary data show their digits. -/
def text : Value → String
  | .null => "null"
  | .bool b => if b then "true" else "false"
  | .int32 n => toString n.toInt
  | .int64 n => toString n.toInt
  | .double d => d.text plainLayout
  | .string s => enclosed s
  | .array items => bracketed (itemTexts items)
  | .document [] => "\x7b\x7d"
  | .document (f :: fs) => "\x7b " ++ ", ".intercalate (fieldTexts (f :: fs)) ++ " \x7d"
  | .objectId hex => "ObjectId(" ++ enclosed hex ++ ")"
  | .dateTime ms => "DateTime(" ++ enclosed (Calendar.instantText ms.toInt) ++ ")"
  | .decimal128 hex => hex
  | .regex pattern options => "/" ++ pattern ++ "/" ++ options
  | .timestamp time increment =>
      "Timestamp(" ++ toString time.toNat ++ ", " ++ toString increment.toNat ++ ")"
  | .binary subtype hex => "Binary(" ++ toString subtype.toNat ++ ", " ++ hex ++ ")"
  | .code source => source
  | .codeWithScope source _ => source
  | .symbol name => "Symbol(" ++ enclosed name ++ ")"
  | .undefined => "undefined"
  | .minKey => "MinKey"
  | .maxKey => "MaxKey"

def itemTexts : List Value → List String
  | [] => []
  | v :: vs => v.text :: itemTexts vs

def fieldTexts : List (String × Value) → List String
  | [] => []
  | (k, v) :: fs => (enclosed k ++ ": " ++ v.text) :: fieldTexts fs
end

end QueryPipeline.Value
