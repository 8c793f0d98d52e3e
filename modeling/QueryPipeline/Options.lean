import QueryPipeline.Value.Basic

/-!
Settings for compiling queries.
-/

namespace QueryPipeline

/-- What compiling a query may do beyond what it has to. -/
structure Options where
  /-- A projection that ends a pipeline is merged into the group before it. -/
  mergeProjection : Bool := true
  /-- Filters use the query language where they can. -/
  queryLanguage : Bool := true
deriving DecidableEq, Repr

namespace Options

/-- A setting by name, which must be a truth value if it is given. -/
def flag (fields : Document) (name : String) (default : Bool) : Option Bool :=
  match fields.find? (·.1 == name) with
  | none => some default
  | some (_, .bool b) => some b
  | some _ => none

/-- A setting by its place in a list. -/
def flagAt (items : List Value) (i : Nat) (default : Bool) : Option Bool :=
  match items[i]? with
  | none => some default
  | some (.bool b) => some b
  | some _ => none

/-- Reads the settings from a value: by name, other names being ignored, or in
their order. Settings that are not given have their defaults. -/
def ofValue? : Value → Option Options
  | .document fields => do
    let mergeProjection ← flag fields "correlated_group_rewrite" true
    let queryLanguage ← flag fields "match_language" true
    return { mergeProjection, queryLanguage }
  | .array items =>
    if items.length ≤ 2 then do
      let mergeProjection ← flagAt items 0 true
      let queryLanguage ← flagAt items 1 true
      return { mergeProjection, queryLanguage }
    else none
  | _ => none

end Options

end QueryPipeline
