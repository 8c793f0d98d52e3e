import Mathlib.Data.Set.List
import QueryPipeline.Compile
import QueryPipeline.Proofs.Binding.Clauses
import QueryPipeline.Proofs.Emission.Closure
import QueryPipeline.Proofs.Grouping.Ungrouped
import QueryPipeline.Proofs.Success

/-!
The order that written sort keys give. A list of keys sorts by the first key that tells two
elements apart. Written as a document it holds each path once: a path that comes again keeps
its first place there and gets its last direction. So the document sorts as the list does
just if each path comes last with the direction that it comes first with
(`sorting_written_iff_settled`).

How two elements compare by one key is the server's own; a descending key turns its
comparison around.
-/

namespace QueryPipeline

/-! ### Comparisons -/

/-- How two elements compare. -/
abbrev Comparison := Value → Value → Ordering

/-- The first comparison that tells two elements apart decides. -/
def Comparison.lexicographic (cs : List Comparison) : Comparison :=
  cs.foldr compareLex fun _ _ => .eq

/-- A comparison in a direction. -/
def Direction.orient (c : Comparison) : Direction → Comparison
  | .ascending => c
  | .descending => fun a b => (c a b).swap

/-- Elements that compare equal do so in both directions. -/
theorem Direction.orient_eq_eq {c : Comparison} {a b : Value} (d : Direction) :
    d.orient c a b = .eq ↔ c a b = .eq := by
  cases d with
  | ascending => exact Iff.rfl
  | descending => cases h : c a b <;> simp [orient, h]

/-- How rows compare by keys, given how they compare by a term. -/
def RowKey.compareAll (byTerm : Term → Comparison) (keys : List RowKey) : Comparison :=
  .lexicographic (keys.map fun k => k.direction.orient (byTerm k.key))

/-- How items compare by keys, given how they compare themselves and by a path. -/
def ItemKey.compareAll (byItem : Comparison) (byText : String → Comparison)
    (keys : List ItemKey) : Comparison :=
  .lexicographic (keys.map fun k => k.direction.orient (k.path.elim byItem byText))

/-! ### Written keys -/

/-- The direction that a value in a sort document stands for. -/
def Direction.written? : Value → Option Direction
  | .int32 n => if n = 1 then some .ascending else if n = -1 then some .descending else none
  | _ => none

theorem Direction.written?_emit (d : Direction) : written? d.emit = some d := by
  cases d <;> rfl

/-- How elements compare by the keys of a sort document, in the order of the document. -/
def writtenKeys? (byText : String → Comparison) (fields : Document) : Option Comparison :=
  (fields.mapM fun f => (Direction.written? f.2).map (·.orient (byText f.1))).map .lexicographic

/-- How rows compare by a written stage, if the stage sorts them. -/
def writtenSort? (byText : String → Comparison) : Document → Option Comparison
  | [("$sort", .document fields)] => writtenKeys? byText fields
  | _ => none

/-- How items compare by a written expression, if it sorts them. -/
def writtenItemSort? (byItem : Comparison) (byText : String → Comparison) :
    Value → Option Comparison
  | .document [("$sortArray", .document [("input", _), ("sortBy", .document fields)])] =>
      writtenKeys? byText fields
  | .document [("$sortArray", .document [("input", _), ("sortBy", direction)])] =>
      (Direction.written? direction).map (·.orient byItem)
  | _ => none

/-! ### Keys with paths -/

/-- A path with a direction. -/
abbrev PathKey := String × Direction

namespace PathKey

/-- The key as a field of a sort document. -/
def emit (k : PathKey) : String × Value := (k.1, k.2.emit)

/-- How elements compare by the key. -/
def comparison (byText : String → Comparison) (k : PathKey) : Comparison :=
  k.2.orient (byText k.1)

/-- Each path has the direction that it comes first with where it comes last. -/
def Settled (keys : List PathKey) : Prop :=
  ∀ path, keys.find? (·.1 == path) = keys.reverse.find? (·.1 == path)

variable {keys written : List PathKey} {byText : String → Comparison} {a b : Value}

/-- The key that decides is the first one that tells the elements apart. -/
theorem lexicographic_apply :
    Comparison.lexicographic (keys.map (comparison byText)) a b =
      (keys.find? fun k => byText k.1 a b != .eq).elim .eq fun k =>
        k.comparison byText a b := by
  induction keys with
  | nil => rfl
  | cons k rest ih =>
    have step : Comparison.lexicographic ((k :: rest).map (comparison byText)) a b =
        (k.comparison byText a b).then
          (Comparison.lexicographic (rest.map (comparison byText)) a b) := rfl
    rw [step]
    by_cases same : byText k.1 a b = .eq
    · rw [List.find?_cons_of_neg (by simp [same]), ← ih,
        show k.comparison byText a b = .eq from (Direction.orient_eq_eq _).mpr same]
      rfl
    · rw [List.find?_cons_of_pos (by simpa using same)]
      have apart : k.comparison byText a b ≠ .eq := fun h =>
        same ((Direction.orient_eq_eq _).mp h)
      change _ = k.comparison byText a b
      cases h : k.comparison byText a b with
      | eq => exact absurd h apart
      | lt | gt => rfl

/-- The first field with a name of some kind is the first one with the first such name. -/
theorem find?_by_name {β : Type} (fields : List (String × β)) (p : String → Bool) :
    (fields.find? fun f => p f.1) =
      ((fields.map Prod.fst).find? p).bind fun name => fields.find? (·.1 == name) := by
  induction fields with
  | nil => rfl
  | cons f rest ih =>
    rw [List.map_cons]
    by_cases holds : p f.1 = true
    · rw [List.find?_cons_of_pos (by exact holds), List.find?_cons_of_pos holds]
      simp
    · rw [List.find?_cons_of_neg (by exact holds), List.find?_cons_of_neg holds, ih]
      cases hname : (rest.map Prod.fst).find? p with
      | none => rfl
      | some name =>
        have named : p name = true := List.find?_some hname
        have other : f.1 ≠ name := fun h => holds (h ▸ named)
        rw [Option.bind_some, Option.bind_some, List.find?_cons_of_neg (by simpa using other)]

end PathKey

/-! ### Documents of keys -/

namespace Document

variable {name path : String} {v : Value} {p : String → Bool}

/-- Of a name that is inserted, the value inserted last is found. -/
theorem find?_insert (d : Document) :
    (insert name v d).find? (·.1 == path) = ((name, v) :: d).find? (·.1 == path) := by
  induction d with
  | nil => rfl
  | cons f rest ih =>
    obtain ⟨k, w⟩ := f
    by_cases same : k = name
    · subst same
      by_cases found : k = path
      · simp [insert, found]
      · simp [insert, found]
    · rw [insert, if_neg same]
      by_cases found : k = path
      · subst found
        simp [Ne.symm same]
      · rw [List.find?_cons_of_neg (by simpa using found), ih]
        by_cases found' : name = path
        · simp [found']
        · simp [found, found']

/-- **Of the fields with a name, a document keeps the value of the last one.** -/
theorem find?_ofList (fields : Document) :
    (ofList fields).find? (·.1 == path) = fields.reverse.find? (·.1 == path) := by
  have onto (d : Document) : (fields.foldl (fun d f => insert f.1 f.2 d) d).find? (·.1 == path) =
      (fields.reverse ++ d).find? (·.1 == path) := by
    induction fields generalizing d with
    | nil => rfl
    | cons f rest ih =>
      rw [List.foldl_cons, ih, List.find?_append, find?_insert, ← List.find?_append,
        List.reverse_cons, List.append_assoc]
      rfl
  rw [ofList, onto, List.append_nil]

/-- **Of the fields with a name, a document keeps the place of the first one.** -/
theorem find?_names_ofList (fields : Document) :
    ((ofList fields).map Prod.fst).find? p = (fields.map Prod.fst).find? p := by
  have onto (d : Document) :
      ((fields.foldl (fun d f => insert f.1 f.2 d) d).map Prod.fst).find? p =
        (d.map Prod.fst ++ fields.map Prod.fst).find? p := by
    induction fields generalizing d with
    | nil => rw [List.map_nil, List.append_nil]; rfl
    | cons f rest ih =>
      rw [List.foldl_cons, ih, map_fst_insert, List.map_cons]
      split
      · rename_i present
        -- The name stands in front already, so it is found there or not at all.
        rw [List.find?_append, List.find?_append]
        cases front : (d.map Prod.fst).find? p with
        | some name => rfl
        | none =>
          rw [List.find?_cons_of_neg (List.find?_eq_none.mp front f.1 present)]
      · rw [List.append_assoc]
        rfl
  rw [ofList, onto]
  rfl

end Document

namespace PathKey

variable {keys : List PathKey} {byText : String → Comparison}

/-- A document of keys is the document of some list of keys. -/
theorem exists_written (keys : List PathKey) :
    ∃ written : List PathKey, Document.ofList (keys.map emit) = written.map emit := by
  have each : ∀ f ∈ Document.ofList (keys.map emit), f ∈ Set.range emit := by
    intro f hf
    obtain ⟨k, -, hk⟩ := List.mem_map.mp (Document.mem_of_mem_ofList hf)
    exact ⟨k, hk⟩
  obtain ⟨written, hwritten⟩ := (Set.range_list_map emit).superset each
  exact ⟨written, hwritten.symm⟩

theorem writtenKeys?_emit (written : List PathKey) :
    writtenKeys? byText (written.map emit) =
      some (.lexicographic (written.map (comparison byText))) := by
  have read : (written.map emit).mapM
      (fun f => (Direction.written? f.2).map (·.orient (byText f.1))) =
        some (written.map (comparison byText)) := by
    induction written with
    | nil => rfl
    | cons k rest ih =>
      rw [List.map_cons, List.mapM_cons, ih, emit, Direction.written?_emit]
      rfl
  rw [writtenKeys?, read]
  rfl

theorem find?_emit (keys : List PathKey) (path : String) :
    (keys.map emit).find? (·.1 == path) = (keys.find? (·.1 == path)).map emit :=
  List.find?_map ..

theorem emit_injective : Function.Injective emit := by
  rintro ⟨path, d⟩ ⟨path', d'⟩ h
  have same : some d = some d' := by
    rw [← Direction.written?_emit d, ← Direction.written?_emit d']
    exact congrArg (fun f => Direction.written? f.2) h
  exact Prod.ext (congrArg (fun f : String × Value => f.1) h) (Option.some.inj same)

/-- **What a document of keys sorts by.** The elements are told apart by the same path as by the
list of the keys, but in the direction that the path comes last with. -/
theorem writtenKeys?_ofList (byText : String → Comparison) (keys : List PathKey) :
    ∃ order, writtenKeys? byText (Document.ofList (keys.map emit)) = some order ∧
      ∀ a b, order a b =
        (((keys.map Prod.fst).find? fun path => byText path a b != .eq).bind fun path =>
          keys.reverse.find? (·.1 == path)).elim .eq fun k => k.comparison byText a b := by
  obtain ⟨written, hwritten⟩ := exists_written keys
  have names (p : String → Bool) :
      (written.map Prod.fst).find? p = (keys.map Prod.fst).find? p := by
    have fromEmit (ks : List PathKey) : (ks.map emit).map Prod.fst = ks.map Prod.fst := by
      rw [List.map_map]
      rfl
    rw [← fromEmit, ← hwritten, Document.find?_names_ofList, fromEmit]
  have last (path : String) :
      written.find? (·.1 == path) = keys.reverse.find? (·.1 == path) := by
    refine Option.map_injective emit_injective ?_
    rw [← find?_emit, ← hwritten, Document.find?_ofList, ← List.map_reverse, find?_emit]
  refine ⟨_, hwritten ▸ writtenKeys?_emit written, fun a b => ?_⟩
  rw [lexicographic_apply, find?_by_name written fun path => byText path a b != .eq, names]
  simp only [last]

/-- A comparison that a list of keys makes, path by path. -/
theorem lexicographic_by_path (byText : String → Comparison) (keys : List PathKey)
    (a b : Value) :
    Comparison.lexicographic (keys.map (comparison byText)) a b =
      (((keys.map Prod.fst).find? fun path => byText path a b != .eq).bind fun path =>
        keys.find? (·.1 == path)).elim .eq fun k => k.comparison byText a b := by
  rw [lexicographic_apply, find?_by_name keys fun path => byText path a b != .eq]

/-- The elements that are null come after those that are not, by one path. -/
def onlyBy (path : String) (path' : String) : Comparison := fun a b =>
  if path' = path then compare a.isNull b.isNull else .eq

theorem onlyBy_tells (path path' : String) :
    (onlyBy path path' .null (.bool true) != .eq) = (path' == path) := by
  by_cases h : path' = path
  · rw [onlyBy, if_pos h, h, beq_self_eq_true]
    rfl
  · rw [onlyBy, if_neg h, beq_false_of_ne h]
    rfl

/-- Of the paths, the one that tells the elements apart is found. -/
theorem find?_onlyBy {path : String} {paths : List String} (h : path ∈ paths) :
    (paths.find? fun path' => onlyBy path path' .null (.bool true) != .eq) = some path := by
  simp only [onlyBy_tells]
  have found : (paths.find? (· == path)).isSome :=
    List.find?_isSome.mpr ⟨path, h, beq_self_eq_true path⟩
  obtain ⟨name, hname⟩ := Option.isSome_iff_exists.mp found
  have same : (name == path) = true := List.find?_some (p := (· == path)) hname
  rw [hname, eq_of_beq same]

/-- Keys of one path that compare null and what is not null alike have the same direction. -/
theorem eq_of_onlyBy {path : String} {d d' : Direction}
    (same : comparison (onlyBy path) (path, d) .null (.bool true) =
      comparison (onlyBy path) (path, d') .null (.bool true)) : d = d' := by
  have first : onlyBy path path .null (.bool true) = .gt := if_pos rfl
  have ascending : comparison (onlyBy path) (path, .ascending) .null (.bool true) = .gt := first
  have descending : comparison (onlyBy path) (path, .descending) .null (.bool true) = .lt :=
    congrArg Ordering.swap first
  cases d <;> cases d' <;> simp_all

/-- A key of a path that some key has. -/
theorem find?_path_of_mem {path : String} (keys : List PathKey) (h : path ∈ keys.map Prod.fst) :
    ∃ d, keys.find? (·.1 == path) = some (path, d) := by
  obtain ⟨k, hk, hpath⟩ := List.mem_map.mp h
  have found : (keys.find? (·.1 == path)).isSome :=
    List.find?_isSome.mpr ⟨k, hk, beq_iff_eq.mpr hpath⟩
  obtain ⟨⟨name, d⟩, hfirst⟩ := Option.isSome_iff_exists.mp found
  have same : (name == path) = true :=
    List.find?_some (p := fun k : PathKey => k.1 == path) hfirst
  exact ⟨d, eq_of_beq same ▸ hfirst⟩

/-- No key has a path that is not among the paths. -/
theorem find?_of_not_mem {path : String} (keys : List PathKey)
    (h : path ∉ keys.map Prod.fst) : keys.find? (·.1 == path) = none :=
  List.find?_eq_none.mpr fun _ hk same => h (eq_of_beq same ▸ List.mem_map_of_mem hk)

/-- Only paths of keys can be unsettled. -/
theorem settled_iff_forall_mem (keys : List PathKey) : Settled keys ↔
    ∀ path ∈ keys.map Prod.fst,
      keys.find? (·.1 == path) = keys.reverse.find? (·.1 == path) := by
  refine ⟨fun settled path _ => settled path, fun settled path => ?_⟩
  by_cases present : path ∈ keys.map Prod.fst
  · exact settled path present
  · rw [find?_of_not_mem keys present, find?_of_not_mem keys.reverse (by
      rwa [List.map_reverse, List.mem_reverse])]

/-- **A document sorts as its keys do just if their directions are settled.** -/
theorem settled_iff (keys : List PathKey) : Settled keys ↔
    ∀ byText, writtenKeys? byText (Document.ofList (keys.map emit)) =
      some (.lexicographic (keys.map (comparison byText))) := by
  constructor
  · intro settled byText
    obtain ⟨order, hread, hsorts⟩ := writtenKeys?_ofList byText keys
    rw [hread]
    refine congrArg some (funext fun a => funext fun b => ?_)
    rw [hsorts, lexicographic_by_path]
    simp only [settled _]
  · intro same
    rw [settled_iff_forall_mem]
    intro path present
    -- Rows that only this path tells apart compare in its direction.
    obtain ⟨order, hread, hsorts⟩ := writtenKeys?_ofList (onlyBy path) keys
    obtain rfl := Option.some.inj (hread.symm.trans (same (onlyBy path)))
    have told := (hsorts .null (.bool true)).symm.trans (lexicographic_by_path ..)
    obtain ⟨d, hd⟩ := find?_path_of_mem keys present
    obtain ⟨d', hd'⟩ := find?_path_of_mem keys.reverse (by
      rwa [List.map_reverse, List.mem_reverse])
    rw [find?_onlyBy present, Option.bind_some, Option.bind_some, hd, hd'] at told
    rw [hd, hd', eq_of_onlyBy told]

instance : DecidablePred Settled := fun keys => decidable_of_iff' _ (settled_iff_forall_mem keys)

end PathKey

/-! ### Written lists of keys -/

/-- The path and the direction of a key that rows are sorted by, where a sort document can
hold it. -/
def RowKey.path? (k : RowKey) : Option PathKey :=
  match k.key with
  | .field path _ => if path.isRowField then some (path.dotted, k.direction) else none
  | _ => none

/-- The paths that rows are sorted by. -/
def RowKey.paths (keys : List RowKey) : List PathKey := keys.filterMap path?

/-- The path and the direction of a key that items are sorted by, unless it is the item. -/
def ItemKey.path? (k : ItemKey) : Option PathKey := k.path.map fun path => (path, k.direction)

/-- The paths that items are sorted by. -/
def ItemKey.paths (keys : List ItemKey) : List PathKey := keys.filterMap path?

/-- Rows compare by a written path as they do by the key that it is written for. -/
def RowKey.Reads (byTerm : Term → Comparison) (byText : String → Comparison)
    (keys : List RowKey) : Prop :=
  ∀ k ∈ keys, ∀ path codec, k.key = .field path codec → byText path.dotted = byTerm k.key

/-- Keys that are written one by one have paths, and the fields that are written are those of
the paths. -/
theorem PathKey.of_mapM_eq_ok {α : Type} {write : α → Except EmitError (String × Value)}
    (path? : α → Option PathKey)
    (each : ∀ k f, write k = .ok f → (path? k).map emit = some f) {keys : List α}
    {fields : Document} (h : keys.mapM write = .ok fields) :
    fields = (keys.filterMap path?).map emit ∧ ∀ k ∈ keys, (path? k).isSome := by
  induction keys generalizing fields with
  | nil =>
    cases h
    exact ⟨rfl, nofun⟩
  | cons k rest ih =>
    simp only [List.mapM_cons, bind_eq_ok, pure_eq_ok] at h
    obtain ⟨f, hf, fs, hfs, rfl⟩ := h
    obtain ⟨rfl, later⟩ := ih hfs
    obtain ⟨pathKey, hpath, rfl⟩ := Option.map_eq_some_iff.mp (each k f hf)
    refine ⟨by rw [List.filterMap_cons_some hpath, List.map_cons], ?_⟩
    intro k' hk'
    rcases List.mem_cons.mp hk' with rfl | hk'
    · exact Option.isSome_of_mem hpath
    · exact later k' hk'

/-- Comparing by keys that have paths is comparing by the paths. -/
theorem PathKey.compareAll_eq {α : Type} {byText : String → Comparison}
    {path? : α → Option PathKey} {compareBy : α → Comparison} {keys : List α}
    (have_paths : ∀ k ∈ keys, (path? k).isSome)
    (each : ∀ k ∈ keys, ∀ pathKey, path? k = some pathKey →
      pathKey.comparison byText = compareBy k) :
    keys.map compareBy = (keys.filterMap path?).map (comparison byText) := by
  induction keys with
  | nil => rfl
  | cons k rest ih =>
    obtain ⟨pathKey, hpath⟩ := Option.isSome_iff_exists.mp (have_paths k List.mem_cons_self)
    rw [List.filterMap_cons_some hpath, List.map_cons, List.map_cons,
      each k List.mem_cons_self pathKey hpath,
      ih (fun k' h => have_paths k' (List.mem_cons_of_mem _ h))
        fun k' h => each k' (List.mem_cons_of_mem _ h)]

namespace RowKey

variable {keys : List RowKey} {fields : Document} {byTerm : Term → Comparison}
  {byText : String → Comparison}

theorem eq_of_emitSortKeys (h : emitSortKeys keys = .ok fields) :
    fields = .ofList ((paths keys).map PathKey.emit) ∧ ∀ k ∈ keys, k.path?.isSome := by
  simp only [emitSortKeys, bind_eq_ok, pure_eq_ok] at h
  obtain ⟨written, hwritten, rfl⟩ := h
  obtain ⟨rfl, havePaths⟩ := PathKey.of_mapM_eq_ok path? (by
    rintro ⟨key, direction⟩ f hk
    cases key
    case field path codec =>
      dsimp only at hk
      by_cases rowField : path.isRowField
      · rw [if_pos rowField] at hk
        cases hk
        simp only [path?, rowField, if_true, Option.map_some, PathKey.emit]
      · rw [if_neg rowField] at hk
        cases hk
    all_goals cases hk) hwritten
  exact ⟨rfl, havePaths⟩

/-- Rows compare by keys as they do by their paths. -/
theorem compareAll_eq (havePaths : ∀ k ∈ keys, k.path?.isSome)
    (reads : Reads byTerm byText keys) :
    compareAll byTerm keys =
      .lexicographic ((paths keys).map (PathKey.comparison byText)) := by
  refine congrArg Comparison.lexicographic (PathKey.compareAll_eq havePaths ?_)
  intro k hk pathKey hpath
  unfold path? at hpath
  split at hpath
  · rename_i path codec hkey
    split at hpath
    · cases hpath
      rw [PathKey.comparison, reads k hk path codec hkey]
    · cases hpath
  · cases hpath

/-- How rows compare by a term, if they compare by the paths that are written for it. -/
def byWritten (byText : String → Comparison) : Term → Comparison
  | .field path _ => byText path.dotted
  | _ => fun _ _ => .eq

theorem reads_byWritten : Reads (byWritten byText) byText keys := by
  intro k _ path codec hkey
  rw [hkey]
  rfl

end RowKey

namespace ItemKey

variable {keys : List ItemKey} {byItem : Comparison} {byText : String → Comparison} {v : Value}

/-- Items that are sorted by themselves are sorted in a direction, others by a document. -/
theorem eq_of_emitItemKeys {input : Term} (h : emitItemKeys input keys = .ok v) :
    (∃ direction, keys = [⟨none, direction⟩] ∧ v = direction.emit) ∨
      v = .document (Document.ofList ((paths keys).map PathKey.emit)) ∧
        ∀ k ∈ keys, k.path?.isSome := by
  unfold emitItemKeys at h
  split at h
  · cases h
    exact .inl ⟨_, rfl, rfl⟩
  · simp only [bind_eq_ok, pure_eq_ok] at h
    obtain ⟨written, hwritten, rfl⟩ := h
    obtain ⟨rfl, havePaths⟩ := PathKey.of_mapM_eq_ok path? (by
      intro k f hk
      unfold path?
      split at hk
      · rename_i path hpath
        cases hk
        rw [hpath]
        rfl
      · cases hk) hwritten
    exact .inr ⟨rfl, havePaths⟩

/-- Items compare by keys as they do by their paths. -/
theorem compareAll_eq (havePaths : ∀ k ∈ keys, k.path?.isSome) :
    compareAll byItem byText keys =
      .lexicographic ((paths keys).map (PathKey.comparison byText)) := by
  refine congrArg Comparison.lexicographic (PathKey.compareAll_eq havePaths ?_)
  intro k _ pathKey hpath
  obtain ⟨path, hk, rfl⟩ := Option.map_eq_some_iff.mp hpath
  rw [hk]
  rfl

/-- Items that are sorted by themselves compare as they do in the direction. -/
theorem compareAll_item (direction : Direction) :
    compareAll byItem byText [⟨none, direction⟩] = direction.orient byItem := by
  funext a b
  exact Ordering.then_eq

end ItemKey

/-- **Written keys sort as the keys do, as long as each path keeps its direction**, for the
keys of rows and for those of items, and however the server compares. The keys may repeat; a
path that comes last with another direction than first is written with the wrong one. -/
theorem sorting_written_iff_settled (queryLanguage : Bool) (keys : List RowKey)
    (scope : List String) (input : Term) (itemKeys : List ItemKey) :
    (∀ document, (Stage.sort keys).emit queryLanguage = .ok document →
      (PathKey.Settled (RowKey.paths keys) ↔
        ∀ byTerm byText, RowKey.Reads byTerm byText keys →
          writtenSort? byText document = some (RowKey.compareAll byTerm keys))) ∧
    ∀ v, (Term.sortArray input itemKeys).emit scope = .ok v →
      (PathKey.Settled (ItemKey.paths itemKeys) ↔
        ∀ byItem byText,
          writtenItemSort? byItem byText v = some (ItemKey.compareAll byItem byText itemKeys)) := by
  constructor
  · intro document h
    simp only [Stage.emit, bind_eq_ok, pure_eq_ok] at h
    obtain ⟨fields, hfields, rfl⟩ := h
    obtain ⟨rfl, havePaths⟩ := RowKey.eq_of_emitSortKeys hfields
    rw [PathKey.settled_iff]
    constructor
    · intro same byTerm byText reads
      rw [RowKey.compareAll_eq havePaths reads]
      exact same byText
    · intro same byText
      rw [← RowKey.compareAll_eq havePaths RowKey.reads_byWritten]
      exact same _ byText RowKey.reads_byWritten
  · intro v h
    simp only [Term.emit, bind_eq_ok, pure_eq_ok] at h
    obtain ⟨sortBy, hkeys, written, -, rfl⟩ := h
    rcases ItemKey.eq_of_emitItemKeys hkeys with ⟨direction, rfl, rfl⟩ | ⟨rfl, havePaths⟩
    · refine iff_of_true (fun _ => rfl) fun byItem byText => ?_
      rw [ItemKey.compareAll_item]
      cases direction <;> rfl
    · rw [PathKey.settled_iff]
      constructor
      · intro same byItem byText
        rw [ItemKey.compareAll_eq havePaths]
        exact same byText
      · intro same byText
        have items := same (fun _ _ => .eq) byText
        rwa [ItemKey.compareAll_eq havePaths] at items

/-! ### People by age and name -/

/-- How rows compare by the value of a field. -/
def Comparison.ofField (name : String) : Comparison
  | .document a, .document b => ((Document.get? name a).bind fun v =>
      (Document.get? name b).bind v.compare?).getD .eq
  | _, _ => .eq

/-- The age, the name and again the age in a direction. -/
def ageNameAge (direction : Direction) : List RowKey := [
  ⟨.field (.field "age") .int32, .ascending⟩,
  ⟨.field (.field "name") .string, .descending⟩,
  ⟨.field (.field "age") .int32, direction⟩]

/-- The same key twice is written once. -/
theorem ageNameAge_sorts :
    (Stage.sort (ageNameAge .ascending)).emit false =
        .ok [("$sort", .document [("age", .int32 1), ("name", .int32 (-1))])] ∧
      RowKey.Reads (RowKey.byWritten .ofField) .ofField (ageNameAge .ascending) ∧
      writtenSort? .ofField [("$sort", .document [("age", .int32 1), ("name", .int32 (-1))])] =
        some (RowKey.compareAll (RowKey.byWritten .ofField) (ageNameAge .ascending)) :=
  have settled : PathKey.Settled (RowKey.paths (ageNameAge .ascending)) := by decide
  ⟨rfl, RowKey.reads_byWritten,
    ((sorting_written_iff_settled false (ageNameAge .ascending) [] (.const (.bool true) .boolean)
      []).1 _ rfl).mp settled _ _ RowKey.reads_byWritten⟩

/-- People by their age, then by their name, then by their age again, from the greatest. -/
def byAgeNameAge : Query where
  collection := "people"
  itemType := .document "Person"
  clauses := [
    ⟨"Queryable", "OrderBy", [], [.lambda ["x"] (.member (.param "x") "Age")]⟩,
    ⟨"Queryable", "ThenBy", [], [.lambda ["x"] (.member (.param "x") "Name")]⟩,
    ⟨"Queryable", "ThenByDescending", [], [.lambda ["x"] (.member (.param "x") "Age")]⟩]

/-- The last key, which decides nothing, turns the first one around. -/
theorem byAgeNameAge_sorts_backwards :
    let young : Value := .document [("age", .int32 7)]
    let old : Value := .document [("age", .int32 44)]
    let written : Document := [("$sort", .document [("age", .int32 (-1)), ("name", .int32 1)])]
    ∃ p context keys order, byAgeNameAge.bound people = (.ok p, context) ∧
      p.flush.stages = [.sort keys] ∧ RowKey.Reads (RowKey.byWritten .ofField) .ofField keys ∧
      (byAgeNameAge.compile people {}).map Command.pipeline = .ok [written] ∧
      writtenSort? .ofField written = some order ∧
      RowKey.compareAll (RowKey.byWritten .ofField) keys young old = .lt ∧
      order young old = .gt := by
  intro young old written
  let keys : List RowKey := [
    ⟨.field (.field "age") .int32, .ascending⟩,
    ⟨.field (.field "name") .string, .ascending⟩,
    ⟨.field (.field "age") .int32, .descending⟩]
  let p : Pipeline := {
    stages := [.sort keys]
    projector := .root ((people.codec? (.document "Person")).getD .dynamic)
    sortOpen := true }
  have bound : byAgeNameAge.bound people = (.ok p, {}) := rfl
  have resolved : p.resolveGroups 0 = .ok p.reduceResult :=
    Pipeline.resolveGroups_of_no_group (Query.bind_placed bound) (by simp [p, Stage.isGroup]) 0
  have compiled : (byAgeNameAge.compile people {}).map Command.pipeline = .ok [written] := by
    unfold Query.compile
    simp only [bound, resolved, Except.mapError, Bind.bind, Except.bind]
    rfl
  exact ⟨p, {}, keys, _, bound, rfl, RowKey.reads_byWritten, compiled, rfl, rfl, rfl⟩

end QueryPipeline
