import QueryPipeline.Emission.Stage
import QueryPipeline.Proofs.Term.Names

/-!
References in written pipelines. A text that starts with two dollar signs refers to a
variable, which a sub-query around it has to bind. `Document.occurrences` lists what a written
stage says about variables: its texts, names of fields among them, each with the variables
that are bound where it stands, and the names that sub-queries give to their items. What is
marked as literal and what a field is compared with in the query language are no expressions.
The scope of a code constant is part of the constant, and its texts are kept apart.

A rule says which variables may be read where which are bound. A value keeps to it if its texts
refer to nothing else and all names are such as the server takes for variables. It is closed if
it keeps to the rule that variables are read where they are bound.
-/

namespace QueryPipeline

/-! ### Occurrences -/

/-- What a written expression says about variables. -/
inductive Occurrence where
  /-- A text or the name of a field, with the variables that are bound where it stands. -/
  | text (bound : List String) (s : String)
  /-- A text in the scope that a code constant carries. -/
  | carried (bound : List String) (s : String)
  /-- The name that a sub-query gives to its items. -/
  | binder (name : Value)
deriving Repr

/-- Whether a text refers to the row, to a bound variable, or to a path from one. -/
def IsReference (bound : List String) (s : String) : Prop :=
  s = "$$ROOT" ∨ ∃ var ∈ bound, s = "$$" ++ var ∨ ∃ path, s = "$$" ++ var ++ "." ++ path

/-- A text that starts with two dollar signs is a reference. -/
def IsClosedText (bound : List String) (s : String) : Prop :=
  ∀ rest, s = "$$" ++ rest → IsReference bound s

namespace Occurrence

/-- A text refers to nothing that is not bound, and items are named as the server wants
it. -/
def IsClosed : Occurrence → Prop
  | .text bound s | .carried bound s => IsClosedText bound s
  | .binder name => ∃ var, name = .string var ∧ isServerName var

/-- Whether the occurrence is a text that a code constant carries. -/
def isCarried : Occurrence → Bool
  | .carried _ _ => true
  | _ => false

end Occurrence

namespace Value

mutual
/-- All texts in a value, names of fields among them. -/
def strings : Value → List String
  | .string s => [s]
  | .array items => itemStrings items
  | .document fields | .codeWithScope _ fields => fieldStrings fields
  | _ => []

def itemStrings : List Value → List String
  | [] => []
  | v :: vs => v.strings ++ itemStrings vs

def fieldStrings : List (String × Value) → List String
  | [] => []
  | (name, v) :: rest => name :: v.strings ++ fieldStrings rest
end

/-- The variables that the arguments of a sub-query bind. -/
def boundNames (arguments : List (String × Value)) : List String :=
  arguments.filterMap fun
    | ("as", .string var) => some var
    | _ => none

mutual
/-- What an expression says about variables where some are bound. A sub-query binds a variable
in its condition or its body. -/
def occurrences (bound : List String) : Value → List Occurrence
  | .string s => [.text bound s]
  | .array items => itemOccurrences bound items
  | .document fields => fieldOccurrences bound fields
  | .codeWithScope _ scope => (fieldStrings scope).map (.carried bound)
  | _ => []

def itemOccurrences (bound : List String) : List Value → List Occurrence
  | [] => []
  | v :: vs => v.occurrences bound ++ itemOccurrences bound vs

def fieldOccurrences (bound : List String) : List (String × Value) → List Occurrence
  | [] => []
  | (name, v) :: rest =>
    .text bound name ::
      (if name = "$literal" then []
        else if name = "$filter" ∨ name = "$map" then v.subqueryOccurrences bound
        else v.occurrences bound) ++ fieldOccurrences bound rest

def subqueryOccurrences (bound : List String) : Value → List Occurrence
  | .document arguments =>
    argumentOccurrences bound (boundNames arguments ++ bound) arguments
  | .string s => [.text bound s]
  | .array items => itemOccurrences bound items
  | _ => []

def argumentOccurrences (bound inner : List String) :
    List (String × Value) → List Occurrence
  | [] => []
  | (name, v) :: rest =>
    .text bound name ::
      (if name = "as" then [.binder v]
        else if name = "cond" ∨ name = "in" then v.occurrences inner
        else v.occurrences bound) ++ argumentOccurrences bound inner rest
end

mutual
/-- What a filter says about variables. What a field is compared with is a value and no
expression. -/
def queryOccurrences : List (String × Value) → List Occurrence
  | [] => []
  | (name, v) :: rest =>
    .text [] name ::
      (if name = "$expr" then v.occurrences []
        else if name = "$and" ∨ name = "$or" ∨ name = "$nor" then v.logicalOccurrences
        else []) ++ queryOccurrences rest

def logicalOccurrences : Value → List Occurrence
  | .array queries => clauseOccurrences queries
  | v => v.occurrences []

def clauseOccurrences : List Value → List Occurrence
  | [] => []
  | .document query :: rest => queryOccurrences query ++ clauseOccurrences rest
  | v :: rest => v.occurrences [] ++ clauseOccurrences rest
end

end Value

/-- What a written stage says about variables. -/
def Document.occurrences (stage : Document) : List Occurrence :=
  stage.flatMap fun (name, v) =>
    .text [] name ::
      if name = "$match" then
        match v with
        | .document query => Value.queryOccurrences query
        | v => v.occurrences []
      else v.occurrences []

/-! ### Rules for variables -/

/-- Whether a text refers to the row, or to a variable with a property, or to a path from one. -/
def RefersBy (reads : String → Prop) (s : String) : Prop :=
  s = "$$ROOT" ∨ ∃ var, reads var ∧ (s = "$$" ++ var ∨ ∃ path, s = "$$" ++ var ++ "." ++ path)

/-- A text that starts with two dollar signs is a reference that a rule allows. -/
def TextKeepsTo (rule : List String → String → Prop) (bound : List String) (s : String) :
    Prop :=
  ∀ rest, s = "$$" ++ rest → RefersBy (rule bound) s

namespace Occurrence

/-- A text refers to nothing that a rule does not allow, and items are named as the server wants
it. -/
def KeepsTo (rule : List String → String → Prop) : Occurrence → Prop
  | .text bound s | .carried bound s => TextKeepsTo rule bound s
  | .binder name => ∃ var, name = .string var ∧ isServerName var

end Occurrence

/-- Variables are read where they are bound. -/
def IsBound (bound : List String) (var : String) : Prop := var ∈ bound

theorem Occurrence.keepsTo_isBound {o : Occurrence} : o.KeepsTo IsBound ↔ o.IsClosed := by
  cases o <;> rfl

/-- All occurrences keep to a rule but those that code constants carry. -/
def AllKeepTo (rule : List String → String → Prop) (os : List Occurrence) : Prop :=
  ∀ o ∈ os, o.isCarried = false → o.KeepsTo rule

variable {rule : List String → String → Prop}

theorem allKeepTo_nil : AllKeepTo rule [] := nofun

theorem allKeepTo_text {bound : List String} {s : String} {os : List Occurrence} :
    AllKeepTo rule (.text bound s :: os) ↔ TextKeepsTo rule bound s ∧ AllKeepTo rule os := by
  simp [AllKeepTo, Occurrence.isCarried, Occurrence.KeepsTo]

theorem allKeepTo_append {os os' : List Occurrence} :
    AllKeepTo rule (os ++ os') ↔ AllKeepTo rule os ∧ AllKeepTo rule os' :=
  List.forall_mem_append

theorem allKeepTo_carried {bound : List String} {texts : List String} :
    AllKeepTo rule (texts.map (.carried bound)) := by
  intro o ho notCarried
  obtain ⟨s, -, rfl⟩ := List.mem_map.mp ho
  cases notCarried

/-- A text that starts with no dollar sign is no reference. -/
theorem textKeepsTo_of_hasNoSigil {bound : List String} {s : String} (h : hasNoSigil s) :
    TextKeepsTo rule bound s := by
  rintro rest rfl
  simp [hasNoSigil] at h

/-- The name of an operator is no reference. -/
theorem textKeepsTo_of_operator {bound : List String} {name : String}
    (h : name.toList[1]? ≠ some '$') : TextKeepsTo rule bound name := by
  rintro rest rfl
  simp at h

/-- The path of a field is no reference. -/
theorem FieldPath.textKeepsTo_text {p : FieldPath} {bound : List String}
    (row : p.var = none) (h : ∀ name ∈ p.segments, hasNoSigil name) :
    TextKeepsTo rule bound p.text := by
  have dotted := FieldPath.hasNoSigil_dotted h
  intro rest heq
  unfold FieldPath.text at heq ⊢
  split at heq
  · exact .inl rfl
  · exfalso
    have chars : p.dotted.toList = '$' :: rest.toList := by
      simpa using congrArg String.toList heq
    simp [hasNoSigil, chars] at dotted
  · rename_i hvar _
    rw [row] at hvar
    cases hvar
  · rename_i hvar _
    rw [row] at hvar
    cases hvar

namespace Value

/-- What an expression says about variables keeps to a rule where some are bound. -/
def KeepsTo (rule : List String → String → Prop) (bound : List String) (v : Value) : Prop :=
  AllKeepTo rule (v.occurrences bound)

variable {bound : List String} {v w : Value}

theorem keepsTo_string {s : String} (h : TextKeepsTo rule bound s) :
    (Value.string s).KeepsTo rule bound := by
  intro o ho _
  obtain rfl := List.mem_singleton.mp ho
  exact h

/-- A path that can be written starts at the row or at a variable that is bound. -/
theorem keepsTo_path {p : FieldPath} (h : ∀ name ∈ p.segments, hasNoSigil name)
    (allowed : ∀ var ∈ bound, p.var = some var → rule bound var)
    (hemit : p.emit bound = .ok v) : v.KeepsTo rule bound := by
  unfold FieldPath.emit at hemit
  split at hemit
  · rename_i row
    cases hemit
    exact keepsTo_string (FieldPath.textKeepsTo_text row h)
  · rename_i var hvar
    split at hemit
    · rename_i isBound
      cases hemit
      have read : rule bound var := allowed var (by simpa using isBound) hvar
      refine keepsTo_string fun _ _ => .inr ⟨var, read, ?_⟩
      obtain ⟨var', segments⟩ := p
      cases hvar
      cases segments with
      | nil => exact .inl rfl
      | cons name rest => exact .inr ⟨_, rfl⟩
    · cases hemit

theorem keepsTo_array {items : List Value} :
    (Value.array items).KeepsTo rule bound ↔ ∀ v ∈ items, v.KeepsTo rule bound := by
  simp only [KeepsTo, occurrences]
  induction items with
  | nil => exact iff_of_true allKeepTo_nil nofun
  | cons v vs ih =>
    simp only [itemOccurrences, allKeepTo_append, ih, List.forall_mem_cons]

/-- A document none of whose names is an operator. -/
theorem keepsTo_document {fields : Document}
    (h : ∀ f ∈ fields, hasNoSigil f.1 ∧ f.2.KeepsTo rule bound) :
    (Value.document fields).KeepsTo rule bound := by
  simp only [KeepsTo, occurrences]
  induction fields with
  | nil => exact allKeepTo_nil
  | cons f rest ih =>
    obtain ⟨name, v⟩ := f
    obtain ⟨hname, hv⟩ := h (name, v) List.mem_cons_self
    have unmarked : name ≠ "$literal" := ne_of_hasNoSigil hname (by decide)
    have noSubquery : ¬(name = "$filter" ∨ name = "$map") :=
      not_or.mpr ⟨ne_of_hasNoSigil hname (by decide), ne_of_hasNoSigil hname (by decide)⟩
    rw [fieldOccurrences, List.cons_append, allKeepTo_text, allKeepTo_append,
      if_neg unmarked, if_neg noSubquery]
    exact ⟨textKeepsTo_of_hasNoSigil hname, hv, ih fun f hf => h f (List.mem_cons_of_mem _ hf)⟩

/-- Whether a name is that of an operator whose arguments are expressions as they stand: it is
neither the mark nor a sub-query. -/
def isPlainOperator (name : String) : Bool :=
  name ∉ ["$literal", "$filter", "$map"] && name.toList[1]? != some '$'

/-- What an operator on expressions says about variables. -/
theorem occurrences_operator {name : String} (hname : isPlainOperator name) :
    (Value.operator name v).occurrences bound = .text bound name :: v.occurrences bound := by
  simp only [isPlainOperator, Bool.and_eq_true, decide_eq_true_eq, List.mem_cons,
    List.not_mem_nil, or_false, not_or] at hname
  obtain ⟨⟨unmarked, noFilter, noMap⟩, -⟩ := hname
  simp [operator, occurrences, fieldOccurrences, unmarked, noFilter, noMap]

theorem keepsTo_operator {name : String} (hname : isPlainOperator name) :
    (Value.operator name v).KeepsTo rule bound ↔ v.KeepsTo rule bound := by
  have allowed : TextKeepsTo rule bound name := by
    simp only [isPlainOperator, Bool.and_eq_true, bne_iff_ne] at hname
    exact textKeepsTo_of_operator hname.2
  rw [KeepsTo, occurrences_operator hname, allKeepTo_text]
  exact and_iff_right allowed

theorem keepsTo_operator_array {name : String} {arguments : List Value}
    (hname : isPlainOperator name) (h : ∀ v ∈ arguments, v.KeepsTo rule bound) :
    (Value.operator name (.array arguments)).KeepsTo rule bound :=
  (keepsTo_operator hname).mpr (keepsTo_array.mpr h)

/-- What is marked as literal is no expression. -/
theorem keepsTo_marked : v.marked.KeepsTo rule bound := by
  rw [KeepsTo, marked, operator, occurrences, fieldOccurrences, if_pos rfl]
  exact allKeepTo_text.mpr ⟨textKeepsTo_of_operator (by decide), allKeepTo_nil⟩

theorem keepsTo_emit : v.emit.KeepsTo rule bound := by
  cases v with
  | string | document | array => exact keepsTo_marked
  | codeWithScope source scope => exact allKeepTo_carried
  | _ => exact allKeepTo_nil

/-- A sub-query binds its variable in its condition or its body. -/
theorem keepsTo_subquery {name part var : String} (hname : name = "$filter" ∨ name = "$map")
    (hpart : part = "cond" ∨ part = "in") (named : isServerName var) (hv : v.KeepsTo rule bound)
    (hw : w.KeepsTo rule (var :: bound)) :
    (Value.operator name (.document
      [("input", v), ("as", .string var), (part, w)])).KeepsTo rule bound := by
  have listed : (Value.operator name (.document
      [("input", v), ("as", .string var), (part, w)])).occurrences bound =
        .text bound name :: .text bound "input" :: (v.occurrences bound ++
          .text bound "as" :: .binder (.string var) ::
            .text bound part :: w.occurrences (var :: bound)) := by
    rcases hname with rfl | rfl
    all_goals
      rcases hpart with rfl | rfl
      all_goals
        simp [operator, occurrences, fieldOccurrences, subqueryOccurrences,
          argumentOccurrences, boundNames]
  have binder : AllKeepTo rule [.binder (.string var)] := by
    intro o ho _
    obtain rfl := List.mem_singleton.mp ho
    exact ⟨var, rfl, named⟩
  have body : AllKeepTo rule (.text bound part :: w.occurrences (var :: bound)) := by
    refine allKeepTo_text.mpr ⟨textKeepsTo_of_hasNoSigil ?_, hw⟩
    rcases hpart with rfl | rfl
    · decide
    · decide
  rw [KeepsTo, listed, allKeepTo_text, allKeepTo_text, allKeepTo_append, allKeepTo_text]
  refine ⟨textKeepsTo_of_operator ?_, textKeepsTo_of_hasNoSigil (by decide), hv,
    textKeepsTo_of_hasNoSigil (by decide), allKeepTo_append.mpr ⟨binder, body⟩⟩
  rcases hname with rfl | rfl
  · decide
  · decide

end Value

end QueryPipeline
