import QueryPipeline.Proofs.Binding.Definedness

/-!
The value of a bound expression (`Expr.eval_of_bind`). Whatever chains an expression holds and
however they are nested, the term it is bound to has the value that the chains give on lists, as
long as no array has more items than a count can number.
-/

namespace QueryPipeline

variable {engine : Engine} {registry : Registry} {other? : Others} {vars : List String}

/-- **Sub-queries mean what their author means.** An expression of chains that is bound has
a meaning, and whatever has a meaning is bound to a term with the value that is meant, in
every environment in which the meaning is defined. -/
theorem Expr.eval_of_bind (laws : Laws engine registry other?) {e : Expr} {c c' : Context}
    {t : Term} (apart : e.apart vars = true) (fit : c.Fit vars)
    (h : (e.bind registry).Yields c t c') :
    (e.chained registry = true → (c.Every fun t => t.outline.Regular) →
      ∃ m, e.meaning? engine registry other? c.outlines = some m) ∧
    ∀ m, e.meaning? engine registry other? c.outlines = some m →
      t.codec = m.outline.codec ∧
      ∀ env, c.Every (Term.Countable engine env) → ∀ d,
        m.datum (c.data engine env) = some d → t.eval engine env = d.stored := by
  constructor
  · intro chained regular
    obtain ⟨m, hm, -⟩ := meant laws e chained apart fit regular h
    exact ⟨m, hm⟩
  · intro m hm
    obtain ⟨-, realizes⟩ := sound laws e apart fit hm h
    refine ⟨by rw [← Term.codec_outline, realizes.outline], ?_⟩
    intro env countable d hd
    obtain ⟨rfl, -⟩ := realizes.datum countable hd
    exact (Term.stored_datum t).symm

/-! ### A chain in a chain -/

/-- Persons with their scores and their friends. -/
def friends : Registry where
  classes := [.mk "Person" none
    [.mk "Name" "name" (.static .string), .mk "Age" "age" (.static .int32),
      .mk "Scores" "scores" (.static (.array .int32)),
      .mk "Friends" "friends" (.static (.array (.document "Person")))]]

/-- The names of the friends who have scored more than the person is old. -/
def rivalNames : Expr :=
  (Expr.member (.param "x") "Friends").applied [
    ⟨"Enumerable", "Where", [], [.lambda ["f"] (.call (.member (.param "f") "Scores")
      ⟨"Enumerable", "Any", [],
        [.lambda ["s"] (.binary .gt (.param "s") (.member (.param "x") "Age"))]⟩)]⟩,
    ⟨"Enumerable", "Select", [], [.lambda ["f"] (.member (.param "f") "Name")]⟩]

/-- The second of these names. -/
def secondRival : Expr :=
  rivalNames.applied [
    ⟨"Enumerable", "Skip", [], [.const (.int32 1) .int32]⟩,
    ⟨"Enumerable", "First", [], []⟩]

/-- A person of ten years with three friends, the first and the last of whom have a score
above ten. -/
def rivals : Value :=
  .document [("age", .int32 10), ("friends", .array [
    .document [("name", .string "Ann"), ("scores", .array [.int32 3, .int32 12])],
    .document [("name", .string "Bob"), ("scores", .array [.int32 10])],
    .document [("name", .string "Cem"), ("scores", .array [.int32 11])]])]

/-- A person is in scope. -/
def ofPerson : Context :=
  ({} : Context).push "x" (.root ((friends.codec? (.document "Person")).getD .dynamic))

theorem secondRival_answers :
    ∃ t c', (secondRival.bind friends).Yields ofPerson t c' ∧
      t.eval .folding { row := rivals } = some (.string "Cem") := by
  have laws : Laws .folding friends fun _ _ => none := ⟨Engine.exact_folding, rfl, nofun⟩
  have only : ofPerson.Every fun t => ∃ codec, t = .root codec :=
    Context.Every.push nofun fun p hp => ⟨_, congrArg Prod.snd (List.mem_singleton.mp hp)⟩
  have fit : ofPerson.Fit [] := by
    constructor
    · rintro name t hlookup
      obtain ⟨codec, rfl⟩ := only name t hlookup
      nofun
    · rintro name t hlookup
      obtain ⟨codec, rfl⟩ := only name t hlookup
      exact .other rfl rfl
  obtain ⟨t, c', h⟩ : ∃ t c', (secondRival.bind friends).Yields ofPerson t c' := ⟨_, _, rfl⟩
  obtain ⟨-, means⟩ := Expr.eval_of_bind laws (by decide) fit h
  refine ⟨t, c', h, (means _ rfl).2 _ ?_ (.value (some (.string "Cem"))) rfl⟩
  rintro name t hlookup
  obtain ⟨codec, rfl⟩ := only name t hlookup
  exact .other rfl rfl

/-! ### Lambdas that share a variable -/

/-- The name of each friend, once for every friend of theirs. -/
def namesakes : Expr :=
  (Expr.member (.param "x") "Friends").applied [
    ⟨"Enumerable", "Select", [], [.lambda ["X"] (.call (.member (.param "X") "Friends")
      ⟨"Enumerable", "Select", [],
        [.lambda ["v_X"] (.member (.param "X") "Name")]⟩)]⟩]

/-- A person whose only friend, Ann, has one friend, Bob. -/
def acquaintance : Value :=
  .document [("friends", .array [
    .document [("name", .string "Ann"), ("friends", .array [
      .document [("name", .string "Bob")]])]])]

/-- Parameters with different names may be read by the same variable. Then the variable of
the inner lambda hides that of the outer one, and the name is read from the wrong friend. -/
theorem sharedVariable_captures :
    namesakes.apart [] = false ∧
    ∃ m t c', namesakes.meaning? .folding friends (fun _ _ => none) ofPerson.outlines = some m ∧
      (namesakes.bind friends).Yields ofPerson t c' ∧
      (m.datum (ofPerson.data .folding { row := acquaintance })).map Datum.stored =
        some (some (.array [.array [.string "Ann"]])) ∧
      t.eval .folding { row := acquaintance } = some (.array [.array [.string "Bob"]]) :=
  ⟨by decide, _, _, _, rfl, rfl, rfl, rfl⟩

/-! ### Arrays that are too long to count -/

/-- Three skips, each of as many items as a signed count can tell. -/
def greatSkipCalls : List (Call Expr) :=
  List.replicate 3 ⟨"Enumerable", "Skip", [], [.const (.int64 9223372036854775807) .int64]⟩

/-- One item more than a count can number. -/
def uncounted : List Value := List.replicate (Window.maxOffset + 1) .null

/-- Where the items of an array cannot be counted, the offset of its slice stays at the
greatest count and an item is left that the skips leave out. -/
theorem greatSkipCalls_leave_an_item :
    greatSkipCalls.mapM Paging.ofCall? =
        some (List.replicate 3 (.skip 9223372036854775807)) ∧
      Paging.applyAll uncounted (List.replicate 3 (.skip 9223372036854775807)) = [] ∧
      ∃ t c', (((Expr.param "x").applied greatSkipCalls).bind {}).Yields
          (({} : Context).push "x" (.root (.arrayOf .int32))) t c' ∧
        t.eval .folding { row := .array uncounted } = some (.array [.null]) := by
  refine ⟨rfl, ?_, .slice (.root (.arrayOf .int32)) ⟨some Window.maxOffset, none⟩, _, rfl, ?_⟩
  · have skipped (items : List Value) :
        Paging.applyAll items (List.replicate 3 (.skip 9223372036854775807)) =
          ((items.drop 9223372036854775807).drop 9223372036854775807).drop
            9223372036854775807 := rfl
    rw [skipped, uncounted, List.drop_replicate, List.drop_replicate, List.drop_replicate]
    rfl
  · change some (Value.array (uncounted.drop Window.maxOffset)) = _
    rw [uncounted, List.drop_replicate, Nat.add_sub_cancel_left]
    rfl

end QueryPipeline
