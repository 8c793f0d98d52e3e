import QueryPipeline.Proofs.Semantics.Server
import QueryPipeline.Proofs.Success
import QueryPipeline.Proofs.Term.Names

/-!
What predicates mean to the server, and that expressions are written so that they mean
it. Comparisons, logical operators, membership, fields of the row and constants have
their meaning as terms; any other term means what the expression it is written as gives.
-/

namespace QueryPipeline

/-! ### Paths -/

/-- A text that starts with one dollar sign is read as a path. -/
theorem Server.readText_path {server : Server} {row : Value} {text : String}
    {path : List Char} (h : text.toList = '$' :: path) (single : path.head? ≠ some '$') :
    server.readText row text =
      server.readAll ((path.splitOn '.').map String.ofList) (some row) := by
  unfold Server.readText
  rw [h]
  split
  · rename_i heq
    obtain rfl := List.cons.inj heq |>.2
    exact absurd rfl single
  · rename_i heq
    obtain rfl := List.cons.inj heq |>.2
    rfl
  · rename_i notPath
    exact absurd rfl (notPath path)

/-- A path whose names can be told apart when they are joined by points. -/
def FieldPath.IsPlain (p : FieldPath) : Prop :=
  ∀ name ∈ p.segments, name ≠ "" ∧ '.' ∉ name.toList ∧ name.toList.head? ≠ some '$'

namespace FieldPath

variable {p : FieldPath}

/-- Joined names are split into the same names. -/
theorem splitOn_dotted (plain : p.IsPlain) (h : p.segments ≠ []) :
    (p.dotted.toList.splitOn '.').map String.ofList = p.segments := by
  have joined : p.dotted.toList = ['.'].intercalate (p.segments.map String.toList) :=
    String.toList_intercalate
  have noPoint : ∀ l ∈ p.segments.map String.toList, '.' ∉ l := by
    intro l hl
    obtain ⟨name, hname, rfl⟩ := List.mem_map.mp hl
    exact (plain name hname).2.1
  rw [joined, List.splitOn_intercalate '.' noPoint (by simpa using h), List.map_map]
  simp [Function.comp_def]

/-- Joined plain names do not start with a dollar sign. -/
theorem head?_dotted (plain : p.IsPlain) : p.dotted.toList.head? ≠ some '$' :=
  bne_iff_ne.mp (hasNoSigil_dotted fun name hname => bne_iff_ne.mpr (plain name hname).2.2)

/-- A path of a row, written as a text, is read name by name. -/
theorem readText_text {server : Server} {row : Value} (plain : p.IsPlain)
    (ofRow : p.var = none) :
    server.readText row p.text = server.readAll p.segments (some row) := by
  by_cases h : p.segments = []
  · obtain ⟨var, segments⟩ := p
    obtain rfl : var = none := ofRow
    obtain rfl : segments = [] := h
    rfl
  · have chars : p.text.toList = '$' :: p.dotted.toList := by
      obtain ⟨var, segments⟩ := p
      obtain rfl : var = none := ofRow
      cases segments with
      | nil => exact absurd rfl h
      | cons name rest => simp [text]
    rw [Server.readText_path chars (head?_dotted plain), splitOn_dotted plain h]

end FieldPath

/-! ### The meaning of predicates -/

namespace Term

/-- Whether all fields that a term reads have names that can be told apart. -/
def HasPlainPaths (t : Term) : Prop :=
  ∀ path codec, .field path codec ∈ t.subterms → path.IsPlain

/-- The value of the expression that a term is written as. -/
def writtenValue (server : Server) (row : Value) (t : Term) : Option Value :=
  match t.emit [] with
  | .ok e => server.evaluate row e
  | .error _ => none

/-- What a predicate, or a part of one, means to the server for a row. Connectives, comparisons,
membership, fields and constants have a meaning here; every other term, such as arithmetic, a
conditional, a size or a sub-query, means what the server makes of the expression that it is
written as. -/
def meaning (server : Server) (row : Value) : Term → Option Value
  | .const v _ => some v
  | .field ⟨none, names⟩ _ => server.readAll names (some row)
  | .binary op left right =>
    let l := left.meaning server row
    let r := right.meaning server row
    match op with
    | .and => some (.bool (server.isTrue l && server.isTrue r))
    | .or => some (.bool (server.isTrue l || server.isTrue r))
    | .eq => some (.bool (server.order l r == .eq))
    | .ne => some (.bool (server.order l r != .eq))
    | .lt => some (.bool (server.order l r == .lt))
    | .lte => some (.bool (server.order l r != .gt))
    | .gt => some (.bool (server.order l r == .gt))
    | .gte => some (.bool (server.order l r != .lt))
    | _ => writtenValue server row (.binary op left right)
  | .unary .not operand => some (.bool !server.isTrue (operand.meaning server row))
  | .contained value array =>
    match array.meaning server row with
    | some (.array items) =>
      some (.bool (items.any fun item =>
        server.order (value.meaning server row) (some item) == .eq))
    | _ => none
  | t => writtenValue server row t

variable {server : Server} {row : Value} {t : Term} {e : Value}

/-! ### Written expressions -/

/-- What an operand adds to a chain, whatever document it is written as: all of that document,
or the array under its only name, if the operand is such a chain. -/
theorem operands_cases (op : BinaryOp) (t : Term) (written : Value) :
    t.operands op written = [written] ∨
      ∃ left right name arguments, t = .binary op left right ∧
        written = .document [(name, .array arguments)] ∧
        t.operands op written = arguments := by
  unfold operands
  split
  · rename_i op' left right name arguments
    by_cases h : op' = op
    · exact .inr ⟨left, right, name, arguments, by rw [h], rfl, if_pos h⟩
    · exact .inl (if_neg h)
  · exact .inl rfl

/-- A constant is written so that it stands for itself. -/
theorem evaluate_emit_const (v : Value) : server.evaluate row v.emit = some v := by
  cases v with
  | array items => simp [Value.emit, Value.marked, Value.operator, Server.evaluate]
  | document fields => simp [Value.emit, Value.marked, Value.operator, Server.evaluate]
  | string s => simp [Value.emit, Value.marked, Value.operator, Server.evaluate]
  | _ => rfl

theorem emit_field {path : FieldPath} (h : path.emit [] = .ok e) :
    path.var = none ∧ e = .string path.text := by
  unfold FieldPath.emit at h
  cases hvar : path.var with
  | none =>
    rw [hvar] at h
    cases h
    exact ⟨rfl, rfl⟩
  | some var =>
    rw [hvar] at h
    simp at h

theorem evaluate_and (arguments : List Value) :
    server.evaluate row (.operator "$and" (.array arguments)) =
      some (.bool (arguments.all fun e => server.isTrue (server.evaluate row e))) := by
  simp [Value.operator, Server.evaluate, Server.operator?, Server.evaluateAll_eq,
    Function.comp_def]

theorem evaluate_or (arguments : List Value) :
    server.evaluate row (.operator "$or" (.array arguments)) =
      some (.bool (arguments.any fun e => server.isTrue (server.evaluate row e))) := by
  simp [Value.operator, Server.evaluate, Server.operator?, Server.evaluateAll_eq,
    Function.comp_def]

theorem evaluate_in (v a : Value) :
    server.evaluate row (.operator "$in" (.array [v, a])) =
      match server.evaluate row a with
      | some (.array items) =>
        some (.bool (items.any fun item =>
          server.order (server.evaluate row v) (some item) == .eq))
      | _ => none := by
  simp only [Value.operator, Server.evaluate, Server.evaluateAll]
  cases server.evaluate row a with
  | none => rfl
  | some w => cases w <;> rfl

/-- A binary operator is written with its operands, those of a chain in one list. -/
theorem emit_binary {scope : List String} {op : BinaryOp} {left right : Term}
    (h : (Term.binary op left right).emit scope = .ok e) :
    ∃ l r, left.emit scope = .ok l ∧ right.emit scope = .ok r ∧
      e = .operator op.emit (.array (if op.isConnective
        then left.operands op l ++ right.operands op r else [l, r])) := by
  simp only [emit, bind_eq_ok, pure_eq_ok] at h
  obtain ⟨l, hl, r, hr, rfl⟩ := h
  exact ⟨l, r, hl, hr, rfl⟩

/-- What an operand adds to a chain as it is emitted: then the only name is the operator of the
chain, so that the array holds the operands that it joins. -/
theorem operands_emit {scope : List String} (op : BinaryOp) (h : t.emit scope = .ok e) :
    t.operands op e = [e] ∨
      ∃ arguments, e = .operator op.emit (.array arguments) ∧
        t.operands op e = arguments := by
  rcases operands_cases op t e with single | ⟨left, right, name, arguments, rfl, rfl, hargs⟩
  · exact .inl single
  · obtain ⟨l, r, _, _, he⟩ := emit_binary h
    simp only [Value.operator, Value.document.injEq, List.cons.injEq, Prod.mk.injEq] at he
    exact .inr ⟨arguments, by rw [Value.operator, he.1.1], hargs⟩

/-- The operands that a written term adds to a conjunction are true if and only if the
term is. -/
theorem all_operands (lawful : server.Lawful) (h : t.emit [] = .ok e) :
    (t.operands .and e).all (fun e => server.isTrue (server.evaluate row e)) =
      server.isTrue (server.evaluate row e) := by
  rcases operands_emit .and h with single | ⟨arguments, rfl, hargs⟩
  · simp [single]
  · rw [hargs, BinaryOp.emit, evaluate_and]
    exact (lawful.truth_bool _).symm

/-- One of the operands that a written term adds to a disjunction is true if and only if
the term is. -/
theorem any_operands (lawful : server.Lawful) (h : t.emit [] = .ok e) :
    (t.operands .or e).any (fun e => server.isTrue (server.evaluate row e)) =
      server.isTrue (server.evaluate row e) := by
  rcases operands_emit .or h with single | ⟨arguments, rfl, hargs⟩
  · simp [single]
  · rw [hargs, BinaryOp.emit, evaluate_or]
    exact (lawful.truth_bool _).symm

theorem HasPlainPaths.child {u : Term} (plain : t.HasPlainPaths) (h : u ∈ t.children) :
    u.HasPlainPaths :=
  fun path codec hmem => plain path codec (mem_subterms_of_child h hmem)

/-- **Predicates are written as what they mean.** -/
theorem evaluate_emit (lawful : server.Lawful) : (t : Term) → {e : Value} →
    t.HasPlainPaths → t.emit [] = .ok e → server.evaluate row e = t.meaning server row
  | .const v _, e, _, h => by
      cases h
      exact evaluate_emit_const v
  | .field path codec, e, plain, h => by
      obtain ⟨ofRow, rfl⟩ := emit_field h
      have readable := plain path codec (by simp [subterms])
      rw [Server.evaluate, FieldPath.readText_text readable ofRow]
      obtain ⟨var, names⟩ := path
      obtain rfl : var = none := ofRow
      rfl
  | .binary op left right, e, plain, h => by
      obtain ⟨l, r, hl, hr, rfl⟩ := emit_binary h
      have left_meaning :=
        evaluate_emit lawful left (plain.child (by simp [children])) hl
      have right_meaning :=
        evaluate_emit lawful right (plain.child (by simp [children])) hr
      cases op with
      | and =>
        simp only [BinaryOp.isConnective, BinaryOp.emit, if_true, evaluate_and,
          List.all_append, all_operands lawful hl, all_operands lawful hr, left_meaning,
          right_meaning, meaning]
      | or =>
        simp only [BinaryOp.isConnective, BinaryOp.emit, if_true, evaluate_or,
          List.any_append, any_operands lawful hl, any_operands lawful hr, left_meaning,
          right_meaning, meaning]
      | eq | ne | lt | lte | gt | gte =>
        simp [meaning, ← left_meaning, ← right_meaning, BinaryOp.isConnective, BinaryOp.emit,
          Value.operator, Server.evaluate, Server.operator?, Server.evaluateAll,
          Server.comparison?]
      | add | subtract | multiply | divide | modulo =>
        simp only [meaning, writtenValue, h]
  | .unary .not operand, e, plain, h => by
      simp only [emit, bind_eq_ok, pure_eq_ok] at h
      obtain ⟨v, hv, rfl⟩ := h
      have operand_meaning :=
        evaluate_emit lawful operand (plain.child (by simp [children])) hv
      simp [meaning, ← operand_meaning, Value.operator, Server.evaluate, Server.operator?,
        Server.evaluateAll]
  | .contained value array, e, plain, h => by
      simp only [emit, bind_eq_ok, pure_eq_ok] at h
      obtain ⟨v, hv, a, ha, rfl⟩ := h
      have value_meaning :=
        evaluate_emit lawful value (plain.child (by simp [children])) hv
      have array_meaning :=
        evaluate_emit lawful array (plain.child (by simp [children])) ha
      rw [evaluate_in, value_meaning, array_meaning]
      rfl
  | .document _, e, _, h | .item _ _ _, e, _, h | .accumulator _ _ _ _ _, e, _, h
  | .unary .negate _, e, _, h | .cond _ _ _, e, _, h | .filter _ _ _, e, _, h
  | .map _ _ _, e, _, h | .anyTrue _, e, _, h | .allTrue _, e, _, h | .setOp _ _, e, _, h
  | .size _, e, _, h | .elemAt _ _, e, _, h | .slice _ _, e, _, h | .reduce _ _ _, e, _, h
  | .sortArray _ _, e, _, h | .getField _ _ _, e, _, h
  | .grouping _ _ _ _ _, e, _, h => by
      simp only [meaning, writtenValue, h]

end Term

end QueryPipeline
