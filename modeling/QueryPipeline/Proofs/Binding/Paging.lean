import QueryPipeline.Proofs.Binding.Clauses
import QueryPipeline.Proofs.Binding.Invariant
import QueryPipeline.Proofs.Semantics.Paging

/-!
Paging composes. Skips and takes over rows are held back in one window, which is written
as one skip and one limit. Over the items of an array every skip and take is a call of its
own: it finds the slice that the call before it ended with and goes on with its window,
unless that window was empty and left the empty array instead. Both ways the written
counts are clamped, and both ways the server drops and keeps what the operators do.
-/

namespace QueryPipeline

variable {registry : Registry}

/-! ### Windows -/

namespace Window

variable {α : Type}

/-- The window after a paging operator. -/
def page (w : Window) : Paging → Window
  | .skip n => w.skip n
  | .take n => w.take n

theorem skipped_page_le {w : Window} (h : w.skipped ≤ maxOffset) (step : Paging) :
    (w.page step).skipped ≤ maxOffset := by
  cases step with
  | take n => exact h
  | skip n =>
    simp only [page, skip]
    cases w.limit with
    | none => exact Nat.min_le_right ..
    | some limit =>
      by_cases hle : limit ≤ n
      · simp only [hle, ite_true]
        exact Nat.min_le_right ..
      · simp only [hle, ite_false]
        exact Nat.min_le_right ..

theorem apply_page {w : Window} {elements : List α} (h : elements.length ≤ maxOffset)
    (step : Paging) : (w.page step).apply elements = step.apply (w.apply elements) := by
  cases step with
  | skip n => exact apply_skip w n elements (.inl h)
  | take n => exact apply_take w n elements

/-- **A run of paging operators is one window.** -/
theorem apply_pages {w : Window} {elements : List α} (h : elements.length ≤ maxOffset)
    (steps : List Paging) :
    (steps.foldl page w).apply elements = Paging.applyAll (w.apply elements) steps := by
  induction steps generalizing w with
  | nil => rfl
  | cons step steps ih => rw [List.foldl_cons, ih, apply_page h, Paging.applyAll_cons]

/-- A window that leaves nothing out is the whole sequence. -/
theorem eq_of_not_isPending {w : Window} (h : w.isPending = false) : w = {} := by
  obtain ⟨skipped, limit⟩ := w
  simp only [isPending, Bool.or_eq_false_iff, decide_eq_false_iff_not, Nat.not_lt,
    Nat.le_zero_eq, gt_iff_lt, Option.isSome_eq_false_iff, Option.isNone_iff_eq_none] at h
  obtain ⟨rfl, rfl⟩ := h
  rfl

/-- Bounds describe the window that they are written for, unless it is empty. -/
theorem ofBounds_bounds {w : Window} (h : w.skipped ≤ maxOffset)
    (nonempty : w.isEmpty = false) : ofBounds w.bounds = w := by
  obtain ⟨skipped, limit⟩ := w
  have first : min skipped maxOffset = skipped := Nat.min_eq_left h
  rw [bounds, nonempty]
  by_cases hskip : 0 < skipped
  · cases limit <;> simp [ofBounds, skip, take, advance, hskip, first]
  · obtain rfl : skipped = 0 := by omega
    cases limit <;> simp [ofBounds, skip, take, advance]

/-- Once a window is empty it stays so. -/
theorem isEmpty_page {w : Window} (h : w.isEmpty = true) (step : Paging) :
    (w.page step).isEmpty = true := by
  have closed : w.limit = some 0 := by simpa [isEmpty] using h
  cases step with
  | skip n => simp [page, skip, closed, isEmpty]
  | take n => simp [page, take, closed, isEmpty]

theorem apply_of_isEmpty {w : Window} (h : w.isEmpty = true) (elements : List α) :
    w.apply elements = [] := by
  have closed : w.limit = some 0 := by simpa [isEmpty] using h
  simp [apply, closed]

/-- What bounds leave out is what the window leaves out. -/
theorem apply_bounds (w : Window) (elements : List α) :
    (⟨w.bounds.skip.getD 0, w.bounds.limit⟩ : Window).apply elements = w.apply elements := by
  obtain ⟨skipped, limit⟩ := w
  unfold bounds
  by_cases h : limit = some 0
  · simp [isEmpty, h, apply]
  · by_cases hskip : 0 < skipped
    · simp [isEmpty, h, hskip]
    · obtain rfl : skipped = 0 := by omega
      simp [isEmpty, h]

theorem apply_nil (w : Window) : w.apply ([] : List α) = [] := by
  unfold apply
  cases w.limit <;> simp

/-- Bounds that are written out never have a limit of zero, unless they close the
window. -/
theorem limit_bounds (w : Window) : w.bounds.limit = w.limit := by
  by_cases h : w.isEmpty = true
  · have closed : w.limit = some 0 := by simpa [isEmpty] using h
    rw [bounds, if_pos h, closed]
  · rw [bounds, if_neg h]

end Window

/-! ### Calls -/

namespace Paging

theorem count?_eq_some {arguments : List Expr} {n : Nat} (h : count? arguments = some n) :
    ∃ v type width i, arguments = [.const v type] ∧ v.integer? = some (width, i) ∧
      ¬ i < 0 ∧ i.toNat = n := by
  unfold count? at h
  split at h
  · rename_i v type
    obtain ⟨⟨width, i⟩, hv, h⟩ := Option.bind_eq_some_iff.mp h
    by_cases negative : i < 0
    · simp [negative] at h
    · simp only [negative, ite_false, Option.some.injEq] at h
      exact ⟨v, type, width, i, rfl, hv, negative, h⟩
  · cases h

/-- A call pages if it applies a skip or a take and its only argument is a count. -/
theorem ofCall?_cases {call : Call Expr} {step : Paging} (h : ofCall? call = some step) :
    (∃ n, step = .skip n ∧ Operator.ofCall call = .ok .skip ∧
      count? call.arguments = some n) ∨
    ∃ n, step = .take n ∧ Operator.ofCall call = .ok .take ∧
      count? call.arguments = some n := by
  unfold ofCall? at h
  split at h
  · rename_i declared
    rw [List.contains_iff_mem] at declared
    have applies {op : Operator} {n : Nat} (hn : count? call.arguments = some n)
        (types : op.declaringTypes = ["Queryable", "Enumerable", "MongoQueryable"])
        (one : op.arities = [1]) (named : call.name = op.name) :
        Operator.ofCall call = .ok op := by
      obtain ⟨v, type, width, i, single, -⟩ := count?_eq_some hn
      exact Operator.ofCall_eq_ok_iff.mpr
        ⟨named.symm, types ▸ declared, by rw [one, single]; exact List.mem_singleton_self _⟩
    split at h
    · rename_i named
      obtain ⟨n, hn, rfl⟩ := Option.map_eq_some_iff.mp h
      exact .inl ⟨n, rfl, applies hn rfl rfl named, hn⟩
    · rename_i named
      obtain ⟨n, hn, rfl⟩ := Option.map_eq_some_iff.mp h
      exact .inr ⟨n, rfl, applies hn rfl rfl named, hn⟩
    · cases h
  · cases h

theorem ofCall?_skip {call : Call Expr} {n : Nat} (hop : Operator.ofCall call = .ok .skip)
    (hn : count? call.arguments = some n) : ofCall? call = some (.skip n) := by
  obtain ⟨named, declared, -⟩ := Operator.ofCall_eq_ok_iff.mp hop
  have declared : ["Queryable", "Enumerable", "MongoQueryable"].contains call.declaringType :=
    List.contains_iff_mem.mpr declared
  rw [ofCall?, if_pos declared, ← named, hn]
  rfl

theorem ofCall?_take {call : Call Expr} {n : Nat} (hop : Operator.ofCall call = .ok .take)
    (hn : count? call.arguments = some n) : ofCall? call = some (.take n) := by
  obtain ⟨named, declared, -⟩ := Operator.ofCall_eq_ok_iff.mp hop
  have declared : ["Queryable", "Enumerable", "MongoQueryable"].contains call.declaringType :=
    List.contains_iff_mem.mpr declared
  rw [ofCall?, if_pos declared, ← named, hn]
  rfl

/-- The count of a paging call is bound without touching the context. -/
theorem count_yields {call : Call Expr} {n : Nat} (h : count? call.arguments = some n)
    (c : Context) : (Expr.bindArguments registry call).count.Yields c n c := by
  obtain ⟨declaringType, name, types, arguments⟩ := call
  obtain ⟨v, type, width, i, rfl, hv, nonneg, rfl⟩ := count?_eq_some h
  cases v with
  | int32 | int64 =>
    obtain ⟨-, rfl⟩ : _ ∧ _ = i := by simpa [Value.integer?] using hv
    simp [Expr.bindArguments, Expr.bindEach, Call.count, Call.argument, Call.count.ofInt,
      nonneg]
  | _ => simp [Value.integer?] at hv

/-- The first of a run of paging calls, and the others. -/
theorem ofCalls_cons {call : Call Expr} {rest : List (Call Expr)} {steps : List Paging}
    (h : (call :: rest).mapM ofCall? = some steps) :
    ∃ step more, steps = step :: more ∧ ofCall? call = some step ∧
      rest.mapM ofCall? = some more := by
  rw [List.mapM_cons] at h
  obtain ⟨step, hstep, h⟩ := Option.bind_eq_some_iff.mp h
  obtain ⟨more, hmore, h⟩ := Option.bind_eq_some_iff.mp h
  exact ⟨step, more, (Option.some.inj h).symm, hstep, hmore⟩

/-- A sequence after a paging operator. -/
def of {σ ρ : Type} [Sequence σ ρ] (s : σ) (site : String) :
    Paging → Except BindingError σ
  | .skip n => Sequence.skip s n site
  | .take n => Sequence.take s n site

/-- A paging call binds nothing, and pages its sequence. -/
theorem apply_yields (registry : Registry) {σ ρ : Type} [Sequence σ ρ] {call : Call Expr}
    {step : Paging} (h : ofCall? call = some step) {s s' : σ}
    (paged : step.of (Sequence.closeSort s) (Expr.bindArguments registry call).text = .ok s')
    (c : Context) :
    ∃ op, Operator.ofCall call = .ok op ∧
      (op.apply registry s (Expr.bindArguments registry call)).Yields c (.sequence s') c := by
  rcases ofCall?_cases h with ⟨n, rfl, hop, hn⟩ | ⟨n, rfl, hop, hn⟩
  · refine ⟨.skip, hop, ?_⟩
    simp only [Operator.apply, BindM.yields_bind, Operator.yields_next]
    exact ⟨n, c, count_yields hn c, s', paged, rfl, rfl⟩
  · refine ⟨.take, hop, ?_⟩
    simp only [Operator.apply, BindM.yields_bind, Operator.yields_next]
    exact ⟨n, c, count_yields hn c, s', paged, rfl, rfl⟩

end Paging

/-! ### Written counts -/

/-- The number of a clamped count. -/
theorem toInt_emitCount (n : Nat) :
    (Int64.ofInt (min n countMax : Nat)).toInt = min n countMax := by
  have bounded : min n countMax < 9223372036854775808 := by unfold countMax; omega
  rw [Int64.toInt_ofInt_of_le]
  · omega
  · omega

theorem drop_min {α : Type} {elements : List α} {most : Nat} (h : elements.length ≤ most)
    (n : Nat) : elements.drop (min n most) = elements.drop n := by
  by_cases hle : n ≤ most
  · rw [Nat.min_eq_left hle]
  · rw [List.drop_eq_nil_of_le (by omega), List.drop_eq_nil_of_le (by omega)]

theorem take_min {α : Type} {elements : List α} {most : Nat} (h : elements.length ≤ most)
    (n : Nat) : elements.take (min n most) = elements.take n := by
  by_cases hle : n ≤ most
  · rw [Nat.min_eq_left hle]
  · rw [List.take_of_length_le (by omega), List.take_of_length_le (by omega)]

/-! ### Rows -/

section Rows

variable {α : Type}

theorem writtenStage?_skip {rows : List α} (few : rows.length ≤ countMax) (n : Nat) :
    writtenStage? rows [("$skip", emitCount n)] = some (rows.drop n) := by
  have nonneg : ¬ ((min n countMax : Nat) : Int) < 0 := by omega
  simp only [writtenStage?, emitCount, toInt_emitCount, nonneg, ite_false, Int.toNat_natCast,
    drop_min few]

theorem writtenStage?_limit {rows : List α} (few : rows.length ≤ countMax) (n : Nat) :
    writtenStage? rows [("$limit", emitCount n)] = some (rows.take n) := by
  have nonneg : ¬ ((min n countMax : Nat) : Int) < 0 := by omega
  simp only [writtenStage?, emitCount, toInt_emitCount, nonneg, ite_false, Int.toNat_natCast,
    take_min few]

theorem Bounds.written_stages (queryLanguage : Bool) (b : Bounds) :
    ∃ docs, Stage.emitAll queryLanguage b.stages = .ok docs ∧
      (docs.map (List.map Prod.fst)).Sublist [["$skip"], ["$limit"]] ∧
      ∀ {α : Type} (rows : List α), rows.length ≤ countMax →
        writtenStages? rows docs = some ((⟨b.skip.getD 0, b.limit⟩ : Window).apply rows) := by
  obtain ⟨skip, limit⟩ := b
  cases skip with
  | none =>
    cases limit with
    | none => exact ⟨[], rfl, by decide, fun _ _ => rfl⟩
    | some m =>
      refine ⟨[[("$limit", emitCount m)]], rfl, by simp, ?_⟩
      intro α rows few
      rw [writtenStages?, List.foldlM_cons, writtenStage?_limit few]
      rfl
  | some n =>
    cases limit with
    | none =>
      refine ⟨[[("$skip", emitCount n)]], rfl, by simp, ?_⟩
      intro α rows few
      rw [writtenStages?, List.foldlM_cons, writtenStage?_skip few]
      rfl
    | some m =>
      refine ⟨[[("$skip", emitCount n)], [("$limit", emitCount m)]], rfl, by simp, ?_⟩
      intro α rows few
      have few' : (rows.drop n).length ≤ countMax :=
        Nat.le_trans (by simp) few
      rw [writtenStages?, List.foldlM_cons, writtenStage?_skip few]
      change writtenStages? (rows.drop n) _ = _
      rw [writtenStages?, List.foldlM_cons, writtenStage?_limit few']
      rfl

/-- **A run of paging operators over rows** is held back in the window of the pipeline. -/
theorem Query.bindClauses_pages (registry : Registry) {calls : List (Call Expr)}
    {steps : List Paging} (paged : calls.mapM Paging.ofCall? = some steps) (p : Pipeline)
    (c : Context) :
    ∃ sortOpen, (Query.bindClauses registry p calls).Yields c
      { p with paging := steps.foldl Window.page p.paging, sortOpen } c := by
  induction calls generalizing p steps with
  | nil =>
    obtain rfl : [] = steps := by simpa using paged
    exact ⟨p.sortOpen, by simp [Query.bindClauses]⟩
  | cons call rest ih =>
    obtain ⟨step, more, rfl, hstep, hmore⟩ := Paging.ofCalls_cons paged
    let paging := p.paging.page step
    have hpaged (site : String) : step.of (Sequence.closeSort p) site =
        .ok { p with paging, sortOpen := false } := by
      cases step <;> rfl
    obtain ⟨op, hop, happly⟩ := Paging.apply_yields registry hstep (hpaged _) c
    obtain ⟨sortOpen, hrest⟩ := ih hmore { p with paging, sortOpen := false }
    refine ⟨sortOpen, ?_⟩
    simp only [Query.bindClauses, BindM.yields_bind, BindM.yields_ofExcept]
    exact ⟨op, c, ⟨hop, rfl⟩, _, c, happly, hrest⟩

end Rows

/-! ### Items of an array -/

namespace Items

/-- The items of an array that is no slice, of a known codec, paged by a window that
bounds can describe. -/
structure Resumable (s : Items) : Prop where
  codec : s.array.codec = .arrayOf s.codec
  no_group : s.array.isGrouping = false
  no_slice : s.array.isSlice = false
  countable : s.paging.skipped ≤ Window.maxOffset

/-- The empty array that an empty window is written as. -/
def emptyArray (codec : Codec) : Term := .const (.array []) (.arrayOf codec)

theorem resumable_emptyArray (codec : Codec) :
    Resumable { array := emptyArray codec, codec } where
  codec := rfl
  no_group := rfl
  no_slice := rfl
  countable := Nat.zero_le _

variable {s : Items}

theorem windowed_cases (s : Items) :
    s.paging = {} ∧ s.windowed = s.array ∨
    s.paging.isEmpty = true ∧ s.windowed = emptyArray s.codec ∨
    s.paging.isPending = true ∧ s.paging.isEmpty = false ∧
      s.windowed = .slice s.array s.paging.bounds := by
  unfold windowed
  cases hpending : s.paging.isPending with
  | false => exact .inl ⟨Window.eq_of_not_isPending hpending, rfl⟩
  | true =>
    cases hempty : s.paging.isEmpty with
    | true => exact .inr (.inl ⟨rfl, rfl⟩)
    | false => exact .inr (.inr ⟨rfl, rfl, rfl⟩)

/-- A window leaves the codec of the items as it is. -/
theorem codec_windowed_of_array (h : s.array.codec = .arrayOf s.codec) :
    s.windowed.codec = .arrayOf s.codec := by
  rcases s.windowed_cases with ⟨_, heq⟩ | ⟨_, heq⟩ | ⟨_, _, heq⟩
  · rw [heq, h]
  · rw [heq]
    rfl
  · rw [heq, Term.codec, h]

theorem isGrouping_windowed (h : s.array.isGrouping = false) :
    s.windowed.isGrouping = false := by
  rcases s.windowed_cases with ⟨_, heq⟩ | ⟨_, heq⟩ | ⟨_, _, heq⟩
  · rw [heq, h]
  · rw [heq]
    rfl
  · rw [heq]
    rfl

theorem Resumable.codec_windowed (h : s.Resumable) : s.windowed.codec = .arrayOf s.codec :=
  codec_windowed_of_array h.codec

theorem Resumable.no_group_windowed (h : s.Resumable) : s.windowed.isGrouping = false :=
  isGrouping_windowed h.no_group

theorem Resumable.paged (h : s.Resumable) (step : Paging) :
    Resumable { s with sortOpen := false, paging := s.paging.page step } where
  codec := h.codec
  no_group := h.no_group
  no_slice := h.no_slice
  countable := Window.skipped_page_le h.countable step

theorem ofArray_of_no_slice {t : Term} {codec : Codec} (h : t.isSlice = false) :
    ofArray t codec = { array := t, codec, sortOpen := t.isSorted } := by
  cases t with
  | slice => cases h
  | _ => rfl

/-- **A call goes on where the call before it ended**: with the same window over the same
array, or with the empty array that an empty window became. -/
theorem Resumable.ofTerm_windowed (h : s.Resumable) (site : String) :
    ∃ s', ofTerm s.windowed site = .ok s' ∧ s'.Resumable ∧ s'.codec = s.codec ∧
      (s'.array = s.array ∧ s'.paging = s.paging ∨
        s.paging.isEmpty = true ∧ s'.array = emptyArray s.codec) := by
  have item : s.windowed.codec.item? = some s.codec := by rw [h.codec_windowed]; rfl
  refine ⟨ofArray s.windowed s.codec, by simp [ofTerm, item], ?_⟩
  rcases s.windowed_cases with ⟨hpaging, heq⟩ | ⟨hempty, heq⟩ | ⟨_, hnonempty, heq⟩
  · rw [heq, ofArray_of_no_slice h.no_slice]
    exact ⟨⟨h.codec, h.no_group, h.no_slice, Nat.zero_le _⟩, rfl, .inl ⟨rfl, hpaging.symm⟩⟩
  · rw [heq]
    exact ⟨resumable_emptyArray s.codec, rfl, .inr ⟨hempty, rfl⟩⟩
  · have resumed : Window.ofBounds s.paging.bounds = s.paging :=
      Window.ofBounds_bounds h.countable hnonempty
    rw [heq]
    refine ⟨⟨h.codec, h.no_group, h.no_slice, ?_⟩, rfl, .inl ⟨rfl, resumed⟩⟩
    change (Window.ofBounds s.paging.bounds).skipped ≤ Window.maxOffset
    rw [resumed]
    exact h.countable

/-- The sequence after paging operators: the array with the window that they leave, or,
once the window is empty, the empty array. -/
structure Paged (s : Items) (steps : List Paging) (s' : Items) : Prop where
  resumable : s'.Resumable
  codec : s'.codec = s.codec
  window : s'.array = s.array ∧ s'.paging = steps.foldl Window.page s.paging ∨
    (steps.foldl Window.page s.paging).isEmpty = true ∧ s'.array = emptyArray s.codec

theorem Paged.refl (h : s.Resumable) : Paged s [] s := ⟨h, rfl, .inl ⟨rfl, rfl⟩⟩

/-- **One call** pages the sequence further. -/
theorem Paged.step {steps : List Paging} {s₁ : Items} (h : Paged s steps s₁)
    (site : String) (step : Paging) :
    ∃ s₂ s₃, ofTerm s₁.windowed site = .ok s₂ ∧
      (∀ site, step.of (Sequence.closeSort s₂) site = .ok s₃) ∧
      Paged s (steps ++ [step]) s₃ := by
  obtain ⟨s₂, hs₂, resumable, hcodec, found⟩ := h.resumable.ofTerm_windowed site
  refine ⟨s₂, { s₂ with sortOpen := false, paging := s₂.paging.page step }, hs₂, ?_,
    resumable.paged step, hcodec.trans h.codec, ?_⟩
  · intro site
    cases step <;> rfl
  rw [List.foldl_append]
  rcases found with ⟨harray, hpaging⟩ | ⟨hempty, harray⟩
  · rcases h.window with ⟨same, window⟩ | ⟨closed, empty⟩
    · refine .inl ⟨harray.trans same, ?_⟩
      simp only [hpaging, window, List.foldl_cons, List.foldl_nil]
    · exact .inr ⟨Window.isEmpty_page closed step, harray.trans empty⟩
  · -- An empty window was written, so the window of all steps so far was empty already.
    have closed : (steps.foldl Window.page s.paging).isEmpty = true := by
      rcases h.window with ⟨_, window⟩ | ⟨closed, _⟩
      · rw [← window, hempty]
      · exact closed
    exact .inr ⟨Window.isEmpty_page closed step, by rw [harray, h.codec]⟩

end Items

/-- An operator on a term that is no group is applied to the items of the term. -/
theorem Term.applyOperator_yields {t t' : Term} {op : Operator} {call : Call Argument}
    {text : String} {c c' : Context} (no_group : t.isGrouping = false) :
    (t.applyOperator registry op call text).Yields c t' c' ↔
      t.codec.isArray = true ∧ ∃ s applied, Items.ofTerm t text = .ok s ∧
        (op.apply registry s call).Yields c applied c' ∧
        applied.term Items.windowed = t' := by
  have opened : t.applyOperator registry op call text =
      if t.codec.isArray then do
        let s ← BindM.ofExcept (Items.ofTerm t text)
        return (← op.apply registry s call).term Items.windowed
      else .unsupported text := by
    cases t with
    | grouping => cases no_group
    | _ => rfl
  rw [opened]
  by_cases harray : t.codec.isArray = true
  · simp only [harray, ite_true, BindM.yields_bind, BindM.yields_ofExcept,
      BindM.yields_pure, true_and]
    constructor
    · rintro ⟨s, c₁, ⟨hs, rfl⟩, applied, c₂, happly, rfl, rfl⟩
      exact ⟨s, applied, hs, happly, rfl⟩
    · rintro ⟨s, applied, hs, happly, rfl⟩
      exact ⟨s, c, ⟨hs, rfl⟩, applied, c', happly, rfl, rfl⟩
  · simp [harray]

namespace Items

variable {s : Items}

/-- **A run of calls** pages the sequence by all its operators. -/
theorem Paged.run {calls : List (Call Expr)} {steps more : List Paging} {source : Expr}
    {s₁ : Items} {c c₁ : Context} (h : Paged s steps s₁)
    (hsource : (source.bind registry).Yields c s₁.windowed c₁)
    (paged : calls.mapM Paging.ofCall? = some more) :
    ∃ s₂, ((source.applied calls).bind registry).Yields c s₂.windowed c₁ ∧
      Paged s (steps ++ more) s₂ := by
  induction calls generalizing source steps more s₁ with
  | nil =>
    obtain rfl : [] = more := by simpa using paged
    exact ⟨s₁, hsource, by simpa using h⟩
  | cons call rest ih =>
    obtain ⟨step, more, rfl, hstep, hmore⟩ := Paging.ofCalls_cons paged
    -- The call starts again from what was written for the calls before it.
    obtain ⟨s₂, s₃, hs₂, hs₃, hpaged⟩ := h.step (Expr.call source call).text step
    obtain ⟨op, hop, happly⟩ := Paging.apply_yields registry hstep (hs₃ _) c₁
    have hcall : ((Expr.call source call).bind registry).Yields c s₃.windowed c₁ := by
      simp only [Expr.bind, BindM.yields_bind, BindM.yields_ofExcept]
      refine ⟨op, c, ⟨hop, rfl⟩, _, c₁, hsource, ?_⟩
      rw [Term.applyOperator_yields h.resumable.no_group_windowed,
        h.resumable.codec_windowed]
      exact ⟨rfl, s₂, _, hs₂, happly, rfl⟩
    obtain ⟨s', hbind, h'⟩ := ih hpaged hcall hmore
    exact ⟨s', hbind, by simpa using h'⟩

end Items

/-! ### Written slices -/

section Slices

variable {other? : Value → Option (List Value)}

theorem toInt_bound (n : Nat) :
    (Int32.ofInt (min n sliceMax : Nat)).toInt = min n sliceMax := by
  have bounded : min n sliceMax < 2147483648 := by unfold sliceMax; omega
  rw [Int32.toInt_ofInt_of_le]
  · omega
  · omega

/-- Slices whose limit is positive keep what their bounds say, although the bounds are
clamped. -/
theorem Bounds.written_slice {b : Bounds} (positive : b.limit ≠ some 0) {base : Value}
    {items : List Value} (hbase : writtenItems? other? base = some items)
    (few : items.length ≤ sliceMax) :
    writtenItems? other? (b.emit base) =
      some ((⟨b.skip.getD 0, b.limit⟩ : Window).apply items) := by
  obtain ⟨skip, limit⟩ := b
  have nonneg (n : Nat) : ¬ ((min n sliceMax : Nat) : Int) < 0 := by omega
  cases skip with
  | none =>
    cases limit with
    | none => simpa [emit, Window.apply] using hbase
    | some m =>
      simp only [emit, emitBound, Value.operator, writtenItems?, hbase, Option.map_some,
        sliceFirst, toInt_bound, nonneg, ite_false, Int.toNat_natCast, take_min few]
      rfl
  | some n =>
    have few' : (items.drop n).length ≤ sliceMax := Nat.le_trans (by simp) few
    have some_left (m : Nat) (h : m ≠ 0) : ¬ ((min m sliceMax : Nat) : Int) ≤ 0 := by
      unfold sliceMax
      omega
    cases limit with
    | none =>
      simp only [emit, emitBound, Value.operator, writtenItems?, hbase, Option.bind_some,
        sliceFrom?, toInt_bound, nonneg, ite_false, Int.toNat_natCast, Option.getD_none,
        some_left sliceMax (by decide), drop_min few, take_min few', Window.apply,
        Option.getD_some]
      rw [List.take_of_length_le few']
    | some m =>
      have hm : m ≠ 0 := by
        rintro rfl
        exact positive rfl
      simp only [emit, emitBound, Value.operator, writtenItems?, hbase, Option.bind_some,
        sliceFrom?, toInt_bound, nonneg, ite_false, Int.toNat_natCast, Option.getD_some,
        some_left m hm, drop_min few, take_min few', Window.apply]

namespace Items

variable {s : Items}

theorem written_emptyArray (scope : List String) (codec : Codec) :
    (emptyArray codec).emit scope = .ok (.document [("$literal", .array [])]) := rfl

/-- **What is written for a window over an array denotes the items in the window.** -/
theorem written_windowed {scope : List String} {base : Value}
    (hbase : s.array.emit scope = .ok base) :
    ∃ written, s.windowed.emit scope = .ok written ∧
      ∀ {other? : Value → Option (List Value)} {items : List Value},
        writtenItems? other? base = some items → items.length ≤ sliceMax →
        writtenItems? other? written = some (s.paging.apply items) := by
  rcases s.windowed_cases with ⟨hpaging, heq⟩ | ⟨hempty, heq⟩ | ⟨_, hnonempty, heq⟩
  · refine ⟨base, by rw [heq, hbase], ?_⟩
    intro other? items hitems _
    simpa [hpaging, Window.apply] using hitems
  · refine ⟨_, by rw [heq, written_emptyArray], ?_⟩
    intro other? items _ _
    rw [Window.apply_of_isEmpty hempty]
    rfl
  · refine ⟨s.paging.bounds.emit base, by simp [heq, Term.emit, hbase], ?_⟩
    intro other? items hitems few
    have positive : s.paging.bounds.limit ≠ some 0 := by
      rw [Window.limit_bounds]
      simpa [Window.isEmpty] using hnonempty
    rw [Bounds.written_slice positive hitems few, Window.apply_bounds]

/-- No slice is built that keeps nothing. -/
theorem limit_of_slice_mem {array : Term} {b : Bounds}
    (h : .slice array b ∈ s.windowed.subterms) :
    .slice array b ∈ s.array.subterms ∨ b.limit ≠ some 0 := by
  rcases s.windowed_cases with ⟨_, heq⟩ | ⟨_, heq⟩ | ⟨_, hnonempty, heq⟩
  · exact .inl (by rwa [heq] at h)
  · simp [heq, emptyArray, Term.subterms] at h
  · rw [heq, Term.subterms, List.mem_cons] at h
    rcases h with hslice | h
    · cases hslice
      rw [Window.limit_bounds]
      exact .inr (by simpa [Window.isEmpty] using hnonempty)
    · exact .inl h

/-- What is written after a run of paging operators denotes what the operators leave. -/
theorem Paged.written {steps : List Paging} {s' : Items} (h : Paged s steps s')
    {scope : List String} {base : Value} (hbase : s.array.emit scope = .ok base) :
    ∃ written, s'.windowed.emit scope = .ok written ∧
      ∀ {other? : Value → Option (List Value)} {items : List Value},
        writtenItems? other? base = some items → items.length ≤ sliceMax →
        writtenItems? other? written =
          some (Paging.applyAll (s.paging.apply items) steps) := by
  have pages {items : List Value} (few : items.length ≤ sliceMax) :
      (steps.foldl Window.page s.paging).apply items =
        Paging.applyAll (s.paging.apply items) steps :=
    Window.apply_pages (Nat.le_trans few (by decide)) steps
  rcases h.window with ⟨harray, hpaging⟩ | ⟨hempty, harray⟩
  · obtain ⟨written, hwritten, denotes⟩ := s'.written_windowed (harray ▸ hbase)
    refine ⟨written, hwritten, ?_⟩
    intro other? items hitems few
    rw [denotes hitems few, hpaging, pages few]
  · obtain ⟨written, hwritten, denotes⟩ :=
      s'.written_windowed (by rw [harray, written_emptyArray scope])
    refine ⟨written, hwritten, ?_⟩
    intro other? items _ few
    rw [denotes rfl (Nat.zero_le _), Window.apply_nil, ← pages few,
      Window.apply_of_isEmpty hempty]

theorem Paged.limit_of_slice_mem {steps : List Paging} {s' : Items} (h : Paged s steps s')
    {array : Term} {b : Bounds} (hslice : .slice array b ∈ s'.windowed.subterms) :
    .slice array b ∈ s.array.subterms ∨ b.limit ≠ some 0 := by
  rcases Items.limit_of_slice_mem hslice with inner | positive
  · rcases h.window with ⟨harray, _⟩ | ⟨_, harray⟩
    · exact .inl (harray ▸ inner)
    · simp [harray, emptyArray, Term.subterms] at inner
  · exact .inr positive

end Items

end Slices

/-! ### Both routes -/

/-- **Paging composes.** Over rows, a run of skips and takes adds at most one skip and one
limit to a pipeline, and as they are written they page any countable rows as the operators
do one after the other. Over the items of an array the expression written at the end
denotes what the operators leave of the items, and no slice with a limit of zero is built
on the way. -/
theorem Paging.composes {calls : List (Call Expr)} {steps : List Paging}
    (paged : calls.mapM Paging.ofCall? = some steps) :
    (∀ (registry : Registry) (queryLanguage : Bool) (p : Pipeline) (c : Context),
      ∃ p' pages docs, (Query.bindClauses registry p calls).Yields c p' c ∧
        p'.flush.stages = p.stages ++ pages ∧
        Stage.emitAll queryLanguage pages = .ok docs ∧
        (docs.map (List.map Prod.fst)).Sublist [["$skip"], ["$limit"]] ∧
        ∀ rows : List Value, rows.length < 9223372036854775808 →
          writtenStages? rows docs = some (Paging.applyAll (p.paging.apply rows) steps)) ∧
    (∀ (registry : Registry) (source : Expr) (s : Items) (c c₁ : Context), s.Resumable →
      (source.bind registry).Yields c s.windowed c₁ →
      ∃ t, ((source.applied calls).bind registry).Yields c t c₁ ∧
        (∀ array b, .slice array b ∈ t.subterms →
          .slice array b ∈ s.array.subterms ∨ b.limit ≠ some 0) ∧
        ∀ scope base, s.array.emit scope = .ok base →
          ∃ written, t.emit scope = .ok written ∧
            ∀ (other? : Value → Option (List Value)) (items : List Value),
              writtenItems? other? base = some items → items.length < 2147483648 →
              writtenItems? other? written =
                some (Paging.applyAll (s.paging.apply items) steps)) := by
  constructor
  · intro registry queryLanguage p c
    obtain ⟨sortOpen, hbind⟩ := Query.bindClauses_pages registry paged p c
    obtain ⟨docs, hdocs, order, pages⟩ :=
      Bounds.written_stages queryLanguage (steps.foldl Window.page p.paging).bounds
    refine ⟨_, _, docs, hbind, rfl, hdocs, order, ?_⟩
    intro rows few
    have few' : rows.length ≤ countMax := by unfold countMax; omega
    rw [pages rows few', Window.apply_bounds,
      Window.apply_pages (Nat.le_trans few' (by decide))]
  · intro registry source s c c₁ resumable hsource
    obtain ⟨s', hbind, hpaged⟩ := (Items.Paged.refl resumable).run hsource paged
    refine ⟨s'.windowed, hbind, fun _ _ => hpaged.limit_of_slice_mem, ?_⟩
    intro scope base hbase
    obtain ⟨written, hwritten, denotes⟩ := hpaged.written hbase
    refine ⟨written, hwritten, ?_⟩
    intro other? items hitems few
    have few' : items.length ≤ sliceMax := by unfold sliceMax; omega
    exact denotes hitems few'

/-- Three calls that page, one after the other. -/
def threePages : List (Call Expr) :=
  [⟨"Enumerable", "Skip", [], [.const (.int32 1) .int32]⟩,
    ⟨"Enumerable", "Take", [], [.const (.int64 3) .int64]⟩,
    ⟨"Enumerable", "Skip", [], [.const (.int32 1) .int32]⟩]

/-- Five numbers. -/
def fiveToNine : List Value := [.int32 5, .int32 6, .int32 7, .int32 8, .int32 9]

theorem Paging.threePages_compose :
    (∃ p pages docs, (Query.bindClauses {} (.ofRoot .dynamic) threePages).Yields {} p {} ∧
      p.flush.stages = pages ∧ Stage.emitAll true pages = .ok docs ∧
      writtenStages? fiveToNine docs = some [.int32 7, .int32 8]) ∧
    ∃ t written,
      (((Expr.const (.array fiveToNine) (.array .int32)).applied threePages).bind {}).Yields
        {} t {} ∧
      t.emit [] = .ok written ∧
      writtenItems? (fun _ => none) written = some [.int32 7, .int32 8] := by
  have paged : threePages.mapM Paging.ofCall? = some [.skip 1, .take 3, .skip 1] := rfl
  obtain ⟨rows, items⟩ := Paging.composes paged
  constructor
  · obtain ⟨p, pages, docs, hbind, hpages, hdocs, _, written⟩ :=
      rows {} true (.ofRoot .dynamic) {}
    exact ⟨p, pages, docs, hbind, hpages, hdocs, written fiveToNine (by decide)⟩
  · let numbers : Items :=
      { array := .const (.array fiveToNine) (.arrayOf .int32), codec := .int32 }
    have resumable : numbers.Resumable := ⟨rfl, rfl, rfl, by decide⟩
    obtain ⟨t, hbind, _, emitted⟩ :=
      items {} (.const (.array fiveToNine) (.array .int32)) numbers {} {} resumable rfl
    obtain ⟨written, hwritten, denotes⟩ := emitted [] _ rfl
    exact ⟨t, written, hbind, hwritten, denotes _ _ rfl (by decide)⟩

end QueryPipeline
