import QueryPipeline.Proofs.Semantics.Term
import QueryPipeline.Proofs.Term.Children

/-!
The variables that a term reads. Sub-queries bind the variable of their item, so a term is
evaluated alike wherever the row and the variables that it reads are the same, whatever is
bound besides.
-/

namespace QueryPipeline

namespace Env

@[simp] theorem var_bind_self (env : Env) (name : String) (v : Value) :
    (env.bind name v).var name = some v := by
  simp [var, bind, Document.get?]

theorem var_bind_of_ne {env : Env} {name other : String} {v : Value} (h : other ≠ name) :
    (env.bind name v).var other = env.var other := by
  simp [var, bind, Document.get?, Ne.symm h]

/-- Two environments have the same row and agree on some variables. -/
structure Agree (vars : List String) (env env' : Env) : Prop where
  row : env.row = env'.row
  var : ∀ x ∈ vars, env.var x = env'.var x

namespace Agree

variable {vars vars' : List String} {env env' : Env}

theorem mono (h : Agree vars env env') (sub : ∀ x ∈ vars', x ∈ vars) :
    Agree vars' env env' :=
  ⟨h.row, fun x hx => h.var x (sub x hx)⟩

/-- Binding a variable on both sides adds it to those that agree. -/
theorem bind {name : String} (h : Agree (vars.filter (· != name)) env env') (v : Value) :
    Agree vars (env.bind name v) (env'.bind name v) where
  row := h.row
  var x hx := by
    by_cases same : x = name
    · rw [same, var_bind_self, var_bind_self]
    · rw [var_bind_of_ne same, var_bind_of_ne same]
      exact h.var x (List.mem_filter.mpr ⟨hx, by simpa using same⟩)

/-- Binding a variable that is not among them leaves the others as they were. -/
theorem bind_of_notMem {name : String} (h : name ∉ vars) (env : Env) (v : Value) :
    Agree vars (env.bind name v) env where
  row := rfl
  var x hx := by
    have other : x ≠ name := by
      rintro rfl
      exact h hx
    exact var_bind_of_ne other

end Agree

end Env

theorem FieldPath.eval_congr {engine : Engine} {env env' : Env} {path : FieldPath}
    (h : Env.Agree path.var.toList env env') :
    path.eval engine env = path.eval engine env' := by
  obtain ⟨var, segments⟩ := path
  cases var with
  | none => simp only [eval, h.row]
  | some x => simp only [eval, h.var x (by simp)]

namespace Term

mutual
/-- The variables that a term reads. An item is read by its variable, whatever the array
it comes from. -/
def reads : Term → List String
  | .const _ _ => []
  | .field path _ => path.var.toList
  | .document fields => fieldReads fields
  | .item _ var _ => [var]
  | .accumulator _ _ source _ _ => source.reads
  | .binary _ left right => left.reads ++ right.reads
  | .unary _ operand => operand.reads
  | .cond test ifTrue ifFalse => test.reads ++ (ifTrue.reads ++ ifFalse.reads)
  | .filter input var condition => input.reads ++ condition.reads.filter (· != var)
  | .map input var body => input.reads ++ body.reads.filter (· != var)
  | .anyTrue array | .allTrue array | .size array => array.reads
  | .setOp _ arguments => allReads arguments
  | .contained value array => value.reads ++ array.reads
  | .elemAt array position => array.reads ++ position.reads
  | .slice array _ => array.reads
  | .reduce _ input _ => input.reads
  | .sortArray input _ => input.reads
  | .getField input _ _ => input.reads
  | .grouping _ key element none _ => key.reads ++ element.reads
  | .grouping _ key element (some predicate) _ =>
      key.reads ++ (element.reads ++ predicate.reads)

def allReads : List Term → List String
  | [] => []
  | t :: ts => t.reads ++ allReads ts

def fieldReads : List (String × Term) → List String
  | [] => []
  | (_, t) :: rest => t.reads ++ fieldReads rest
end

/-- Every variable that the term reads is one of those around it. -/
def ReadsIn (vars : List String) (t : Term) : Prop := ∀ x ∈ t.reads, x ∈ vars

theorem mem_allReads {ts : List Term} {x : String} :
    x ∈ allReads ts ↔ ∃ t ∈ ts, x ∈ t.reads := by
  induction ts with
  | nil => simp [allReads]
  | cons t ts ih => simp [allReads, ih]

theorem mem_fieldReads {fields : List (String × Term)} {x : String} :
    x ∈ fieldReads fields ↔ ∃ f ∈ fields, x ∈ f.2.reads := by
  induction fields with
  | nil => simp [fieldReads]
  | cons f fields ih =>
    obtain ⟨name, t⟩ := f
    simp only [fieldReads, List.mem_append, ih, List.mem_cons, exists_eq_or_imp]

theorem evalAll_eq {engine : Engine} {env : Env} (ts : List Term) :
    evalAll engine env ts = ts.map (eval engine env) := by
  induction ts with
  | nil => rfl
  | cons t ts ih => simp [evalAll, ih]

/-- **A term is evaluated alike where the row and the variables it reads are the same.** -/
theorem eval_congr {engine : Engine} (t : Term) :
    ∀ {env env' : Env}, Env.Agree t.reads env env' →
      t.eval engine env = t.eval engine env' := by
  induction t using inductionOn with
  | step t ih =>
    intro env env' agree
    cases t with
    | const v codec => rfl
    | field path codec => exact FieldPath.eval_congr agree
    | item array var codec => exact agree.var var (by simp [reads])
    | accumulator | grouping => rfl
    | document fields =>
      have parts : evalFields engine env fields = evalFields engine env' fields := by
        rw [evalFields_eq, evalFields_eq]
        refine List.map_congr_left ?_
        intro f hf
        have hpart : f.2 ∈ (Term.document fields).children := List.mem_map_of_mem hf
        rw [ih f.2 hpart (agree.mono fun x hx => mem_fieldReads.mpr ⟨f, hf, hx⟩)]
      simp only [eval, parts]
    | setOp op arguments =>
      have parts : evalAll engine env arguments = evalAll engine env' arguments := by
        rw [evalAll_eq, evalAll_eq]
        refine List.map_congr_left ?_
        intro u hu
        exact ih u hu (agree.mono fun x hx => mem_allReads.mpr ⟨u, hu, hx⟩)
      simp only [eval, parts]
    | filter input var condition =>
      have hinput := ih input (by simp [children])
        (agree.mono (fun x hx => List.mem_append_left _ hx))
      have hcondition (v : Value) := ih condition (by simp [children])
        ((agree.mono (fun x hx => List.mem_append_right _ hx)).bind v)
      simp only [eval, hinput, hcondition]
    | map input var body =>
      have hinput := ih input (by simp [children])
        (agree.mono (fun x hx => List.mem_append_left _ hx))
      have hbody (v : Value) := ih body (by simp [children])
        ((agree.mono (fun x hx => List.mem_append_right _ hx)).bind v)
      simp only [eval, hinput, hbody]
    | unary | anyTrue | allTrue | size | slice | reduce | sortArray | getField =>
      have part := ih _ (List.mem_singleton_self _) agree
      simp only [eval, part]
    | binary op left right =>
      have hleft := ih left (by simp [children])
        (agree.mono fun x hx => List.mem_append_left _ hx)
      have hright := ih right (by simp [children])
        (agree.mono fun x hx => List.mem_append_right _ hx)
      simp only [eval, hleft, hright]
    | contained value array =>
      have hvalue := ih value (by simp [children])
        (agree.mono fun x hx => List.mem_append_left _ hx)
      have harray := ih array (by simp [children])
        (agree.mono fun x hx => List.mem_append_right _ hx)
      simp only [eval, hvalue, harray]
    | elemAt array position =>
      have harray := ih array (by simp [children])
        (agree.mono fun x hx => List.mem_append_left _ hx)
      have hposition := ih position (by simp [children])
        (agree.mono fun x hx => List.mem_append_right _ hx)
      simp only [eval, harray, hposition]
    | cond test ifTrue ifFalse =>
      have rest := agree.mono fun x hx => List.mem_append_right _ hx
      have htest := ih test (by simp [children])
        (agree.mono fun x hx => List.mem_append_left _ hx)
      have hyes := ih ifTrue (by simp [children])
        (rest.mono fun x hx => List.mem_append_left _ hx)
      have hno := ih ifFalse (by simp [children])
        (rest.mono fun x hx => List.mem_append_right _ hx)
      simp only [eval, htest, hyes, hno]

end Term

end QueryPipeline
