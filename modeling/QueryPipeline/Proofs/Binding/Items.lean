import QueryPipeline.Proofs.Binding.Paging
import QueryPipeline.Proofs.Semantics.Outline

/-!
The items that a sequence over an array holds. A sequence is an array with a window over
it; it `Holds` items in an environment when they are what the window leaves of the array.
Each operator on sequences changes the items as the author of the query expects, and the
expression that is written in the end has the items as its value.
-/

namespace QueryPipeline

namespace Window

/-- A window that leaves something out still does so after paging further. -/
theorem isPending_page {w : Window} (h : w.isPending = true) (step : Paging) :
    (w.page step).isPending = true := by
  cases step with
  | take n => simp [page, take, isPending]
  | skip n =>
    cases hlimit : w.limit with
    | some limit =>
      by_cases hle : limit ≤ n
      · simp [page, skip, hlimit, hle, isPending]
      · simp [page, skip, hlimit, hle, isPending]
    | none =>
      have offset : 0 < w.skipped := by simpa [isPending, hlimit] using h
      have advanced : 0 < w.advance n := by
        unfold advance maxOffset
        omega
      simp [page, skip, hlimit, isPending, advanced]

theorem isPending_ofBounds {w : Window} (h : w.isPending = true)
    (nonempty : w.isEmpty = false) : (ofBounds w.bounds).isPending = true := by
  rw [bounds, nonempty]
  cases hlimit : w.limit with
  | some limit => simp [ofBounds, take, isPending]
  | none =>
    have offset : 0 < w.skipped := by simpa [isPending, hlimit] using h
    have advanced : 0 < min w.skipped maxOffset := by
      unfold maxOffset
      omega
    simp [ofBounds, skip, advance, isPending, offset, advanced]

/-- The window that bounds describe leaves what the bounds leave. -/
theorem apply_ofBounds (b : Bounds) {items : List Value} (few : items.length ≤ maxOffset) :
    (ofBounds b).apply items = b.slice items := by
  have skipped : (({} : Window).skip (b.skip.getD 0)).apply items =
      items.drop (b.skip.getD 0) := apply_skip {} _ items (.inl few)
  unfold ofBounds Bounds.slice
  cases hlimit : b.limit with
  | none => exact skipped
  | some limit =>
    simp only [apply_take, skipped]

/-- The first item of a window that is not empty is the item at its offset. -/
theorem head?_apply {α : Type} {w : Window} (nonempty : w.isEmpty = false)
    (elements : List α) : (w.apply elements).head? = elements[w.skipped]? := by
  unfold apply
  cases hlimit : w.limit with
  | none => simp [List.head?_drop]
  | some limit =>
    have positive : limit ≠ 0 := by
      rintro rfl
      simp [isEmpty, hlimit] at nonempty
    simp [List.head?_take, positive, List.head?_drop]

theorem slice_bounds (w : Window) (items : List Value) : w.bounds.slice items = w.apply items := by
  rw [← apply_bounds]
  unfold Bounds.slice apply
  cases w.bounds.limit <;> rfl

end Window

theorem Codec.eq_arrayOf {codec item : Codec} (h : codec.item? = some item) :
    codec = .arrayOf item := by
  cases codec with
  | array found => exact congrArg Codec.array h
  | _ => cases h

/-- The item of a list that is picked. -/
def Pick.of? : Pick → Option (List Value → Option Value)
  | .first | .firstOrDefault => some List.head?
  | .last | .lastOrDefault => some List.getLast?
  | .single | .singleOrDefault => none

namespace Items

variable {engine : Engine} {env : Env} {vars : List String} {s : Items} {items : List Value}

/-! ### What is known of a sequence -/

/-- A sequence over an array that reads the variables around it. Where nothing is left
out, the array itself is written: it is a value and no slice. -/
structure Over (vars : List String) (s : Items) : Prop where
  reads : s.array.ReadsIn vars
  codec : s.array.codec = .arrayOf s.codec
  written : s.paging.isPending = true ∨
    s.array.outline = .stored (.arrayOf s.codec) ∧ s.array.isSlice = false

theorem isValue_of_outline {t : Term} {codec : Codec} (h : t.outline = .stored codec) :
    t.isValue = true := by
  cases t with
  | document | grouping => simp [Term.outline, Outline.stored] at h
  | _ => rfl

theorem no_group_of_outline {t : Term} {codec : Codec} (h : t.outline = .stored codec) :
    t.isGrouping = false := by
  cases t with
  | grouping => simp [Term.outline, Outline.stored] at h
  | _ => rfl

theorem Over.paged (h : s.Over vars) (step : Paging) :
    ({ s with paging := s.paging.page step } : Items).Over vars where
  reads := h.reads
  codec := h.codec
  written := h.written.imp_left fun pending => Window.isPending_page pending step

/-- A sequence over an array that an operator has built. -/
theorem Over.built (reads : s.array.ReadsIn vars)
    (outline : s.array.outline = .stored (.arrayOf s.codec))
    (no_slice : s.array.isSlice = false) : s.Over vars where
  reads := reads
  codec := by
    rw [← Term.codec_outline, outline]
    rfl
  written := .inr ⟨outline, no_slice⟩

theorem Over.outline_windowed (h : s.Over vars) :
    s.windowed.outline = .stored (.arrayOf s.codec) := by
  rcases s.windowed_cases with ⟨hpaging, heq⟩ | ⟨_, heq⟩ | ⟨_, _, heq⟩
  · rw [heq]
    refine (h.written.resolve_left ?_).1
    simp [hpaging, Window.isPending]
  · rw [heq]
    rfl
  · simp only [heq, Term.outline, Term.shape, Term.codec, h.codec, Outline.ofShape,
      Outline.stored]

theorem Over.codec_windowed (h : s.Over vars) : s.windowed.codec = .arrayOf s.codec := by
  rw [← Term.codec_outline, h.outline_windowed]
  rfl

theorem Over.reads_windowed (h : s.Over vars) : s.windowed.ReadsIn vars := by
  rcases s.windowed_cases with ⟨_, heq⟩ | ⟨_, heq⟩ | ⟨_, _, heq⟩
  · rw [heq]
    exact h.reads
  · rw [heq]
    nofun
  · rw [heq]
    exact h.reads

/-- What is written for a sequence has slices only over the array of the sequence. -/
theorem Over.sliced_windowed {holds : Term → Prop} (h : s.Over vars)
    (array_holds : holds s.array) : s.windowed.Sliced holds := by
  rcases s.windowed_cases with ⟨hpaging, heq⟩ | ⟨_, heq⟩ | ⟨hpending, hnonempty, heq⟩
  · obtain ⟨outline, no_slice⟩ := h.written.resolve_left (by simp [hpaging, Window.isPending])
    rw [heq]
    exact .other (isValue_of_outline outline) no_slice
  · rw [heq]
    exact .other rfl rfl
  · rw [heq]
    exact .slice (Window.isPending_ofBounds hpending hnonempty) array_holds

/-! ### What a sequence holds -/

/-- The items that the window leaves of the array, whose items can be counted. -/
def Holds (engine : Engine) (env : Env) (s : Items) (items : List Value) : Prop :=
  ∃ base, s.array.eval engine env = some (.array base) ∧
    base.length ≤ Window.maxOffset ∧ s.paging.apply base = items

theorem Holds.paged (h : s.Holds engine env items) (step : Paging) :
    ({ s with paging := s.paging.page step } : Items).Holds engine env (step.apply items) := by
  obtain ⟨base, heval, few, rfl⟩ := h
  exact ⟨base, heval, few, Window.apply_page few step⟩

theorem Holds.few (h : s.Holds engine env items) : items.length ≤ Window.maxOffset := by
  obtain ⟨base, _, few, rfl⟩ := h
  exact Nat.le_trans (Window.length_apply_le ..) few

/-- An array that an operator has built holds the items of its value. -/
theorem Holds.built (whole : s.paging = {})
    (heval : s.array.eval engine env = some (.array items))
    (few : items.length ≤ Window.maxOffset) : s.Holds engine env items :=
  ⟨items, heval, few, by rw [whole]; rfl⟩

/-- **What is written for a sequence has the items as its value.** -/
theorem Holds.eval_windowed (h : s.Holds engine env items) :
    s.windowed.eval engine env = some (.array items) := by
  obtain ⟨base, heval, few, rfl⟩ := h
  rcases s.windowed_cases with ⟨hpaging, heq⟩ | ⟨hempty, heq⟩ | ⟨_, _, heq⟩
  · rw [heq, hpaging, heval]
    rfl
  · rw [heq, Window.apply_of_isEmpty hempty]
    rfl
  · rw [heq, Term.eval, heval, Value.onItems, Window.slice_bounds]

theorem Holds.fewItems (h : s.Holds engine env items) : Term.FewItems engine env s.array := by
  obtain ⟨base, heval, few, _⟩ := h
  intro items hitems
  obtain rfl : base = items := by simpa [heval] using hitems
  exact few

/-! ### Calls -/

theorem ofTerm_eq_ok {t : Term} {site : String} (h : ofTerm t site = .ok s) :
    t.codec = .arrayOf s.codec ∧ s = ofArray t s.codec := by
  unfold ofTerm at h
  split at h
  · rename_i codec hitem
    cases h
    have hcodec : (ofArray t codec).codec = codec := by
      unfold ofArray
      split <;> rfl
    rw [hcodec]
    exact ⟨Codec.eq_arrayOf hitem, rfl⟩
  · cases h

/-- **A call goes on with the items that the call before it ended with.** -/
theorem holds_ofTerm {t : Term} {site : String} (hs : ofTerm t site = .ok s)
    (heval : t.eval engine env = some (.array items)) (few : items.length ≤ Window.maxOffset)
    (countable : t.Countable engine env) : s.Holds engine env items := by
  obtain ⟨_, hs⟩ := ofTerm_eq_ok hs
  rw [hs]
  cases countable with
  | record | group => simp [Term.eval] at heval
  | @slice array b _ fewBase =>
    rw [Term.eval] at heval
    have found : ∃ base, array.eval engine env = some (.array base) ∧ b.slice base = items := by
      unfold Value.onItems at heval
      split at heval
      · rename_i base hbase
        exact ⟨base, hbase, by simpa using heval⟩
      · cases heval
    obtain ⟨base, hbase, rfl⟩ := found
    exact ⟨base, hbase, fewBase base hbase, Window.apply_ofBounds b (fewBase base hbase)⟩
  | other _ no_slice =>
    rw [ofArray_of_no_slice no_slice]
    exact .built rfl heval few

/-- A call goes on with an array that reads what the call before it reads. -/
theorem over_ofTerm {t : Term} {site : String} {codec : Codec} (hs : ofTerm t site = .ok s)
    (outline : t.outline = .stored codec) (reads : t.ReadsIn vars)
    (sliced : t.Sliced fun _ => True) : s.Over vars ∧ codec = .arrayOf s.codec := by
  obtain ⟨hcodec, hs⟩ := ofTerm_eq_ok hs
  have same : codec = .arrayOf s.codec := by
    rw [← hcodec, ← Term.codec_outline, outline]
    rfl
  refine ⟨?_, same⟩
  rw [hs]
  cases sliced with
  | record | group => simp [Term.outline, Outline.stored] at outline
  | @slice array b pending _ => exact ⟨reads, hcodec, .inl pending⟩
  | other _ no_slice =>
    rw [ofArray_of_no_slice no_slice]
    exact ⟨reads, hcodec, .inr ⟨same ▸ outline, no_slice⟩⟩

/-! ### Operators -/

theorem Over.closeSort (h : s.Over vars) : (Sequence.closeSort s : Items).Over vars :=
  ⟨h.reads, h.codec, h.written⟩

theorem Holds.closeSort (h : s.Holds engine env items) :
    (Sequence.closeSort s : Items).Holds engine env items := h

theorem Over.filter {l : Lambda} (h : s.Over vars)
    (reads : ∀ x ∈ l.body.reads.filter (· != l.var), x ∈ vars) :
    (s.withArray (.filter s.windowed l.var l.body)).Over vars := by
  refine .built ?_ ?_ rfl
  · intro x hx
    exact (List.mem_append.mp hx).elim (h.reads_windowed x) (reads x)
  · change (Term.filter s.windowed l.var l.body).outline = .stored (.arrayOf s.codec)
    simp only [Term.outline, Term.shape, Term.codec, Outline.ofShape, Outline.stored,
      h.codec_windowed]

theorem Holds.filter {l : Lambda} (h : s.Holds engine env items) :
    (s.withArray (.filter s.windowed l.var l.body)).Holds engine env
      (items.filter fun v => engine.isTrue (l.body.eval engine (env.bind l.var v))) := by
  refine .built rfl ?_ (Nat.le_trans (List.length_filter_le ..) h.few)
  simp only [withArray, Term.eval, h.eval_windowed, Value.onItems]

theorem reads_mapped {l : Lambda} (h : s.Over vars)
    (reads : ∀ x ∈ l.body.reads.filter (· != l.var), x ∈ vars) :
    (s.mapped l).ReadsIn vars := by
  intro x hx
  exact (List.mem_append.mp hx).elim (h.reads_windowed x) (reads x)

theorem Over.project {l : Lambda} (h : s.Over vars)
    (reads : ∀ x ∈ l.body.reads.filter (· != l.var), x ∈ vars) :
    ({ array := s.mapped l, codec := l.body.codec } : Items).Over vars := by
  refine .built (reads_mapped h reads) ?_ rfl
  simp only [mapped, Term.outline, Term.shape, Term.codec, Outline.ofShape, Outline.stored]

theorem Holds.eval_mapped {l : Lambda} (h : s.Holds engine env items) :
    (s.mapped l).eval engine env = some (.array (items.map fun v =>
      (l.body.eval engine (env.bind l.var v)).getD .null)) := by
  simp only [mapped, Term.eval, h.eval_windowed, Value.onItems]

theorem Holds.project {l : Lambda} (h : s.Holds engine env items) :
    ({ array := s.mapped l, codec := l.body.codec } : Items).Holds engine env
      (items.map fun v => (l.body.eval engine (env.bind l.var v)).getD .null) :=
  .built rfl h.eval_mapped (by simpa using h.few)

/-! ### Picking an item -/

variable (engine env) in
theorem integer_position {n : Int} (fits : Width.w64.fits n = true) :
    ∃ width, ((Term.position n).eval engine env).bind Value.integer? = some (width, n) := by
  have range {w : Width} (h : w.fits n = true) : -w.bound ≤ n ∧ n < w.bound := by
    simpa [Width.fits] using h
  unfold Term.position
  split
  · rename_i small
    refine ⟨.w32, ?_⟩
    simp only [Term.int32, Term.eval, Option.bind_some, Value.integer?]
    rw [Int32.toInt_ofInt_of_le (range small).1 (range small).2]
  · refine ⟨.w64, ?_⟩
    simp only [Term.eval, Option.bind_some, Value.integer?]
    rw [Int64.toInt_ofInt_of_le (range fits).1 (range fits).2]

theorem eval_elemAt {array : Term} {base : List Value} {n : Int}
    (heval : array.eval engine env = some (.array base)) (fits : Width.w64.fits n = true) :
    (Term.elemAt array (.position n)).eval engine env = Value.itemAt base n := by
  obtain ⟨width, hposition⟩ := integer_position engine env fits
  simp only [Term.eval, heval, hposition]

theorem itemAt_zero (items : List Value) : Value.itemAt items 0 = items.head? := by
  simp [Value.itemAt, List.head?_eq_getElem?]

theorem itemAt_neg_one (items : List Value) : Value.itemAt items (-1) = items.getLast? := by
  unfold Value.itemAt
  cases items with
  | nil => simp
  | cons v rest =>
    have last : ((v :: rest).length + -1 : Int).toNat = rest.length := by
      simp only [List.length_cons]
      omega
    have counted : -(-1 : Int) ≤ (v :: rest).length := by
      simp only [List.length_cons]
      omega
    rw [if_neg (by omega), if_pos counted, last, List.getLast?_eq_getElem?]
    rfl

/-- The ways in which an item is picked. -/
theorem element_cases {pick : Pick} {site : String} {t : Term} {g : List Value → Option Value}
    (hpick : pick.of? = some g) (ht : s.element pick site = .ok t) :
    (g = List.head? ∧ s.paging.isEmpty = false ∧ Width.w64.fits s.paging.skipped = true ∧
      t = .elemAt s.array (.position s.paging.skipped)) ∨
    (g = List.head? ∧ t = .elemAt s.windowed (.position 0)) ∨
    (g = List.getLast? ∧ t = .elemAt s.windowed (.position (-1))) := by
  have first (ht : s.element .first site = .ok t) :
      (s.paging.isEmpty = false ∧ Width.w64.fits s.paging.skipped = true ∧
        t = .elemAt s.array (.position s.paging.skipped)) ∨
      t = .elemAt s.windowed (.position 0) := by
    simp only [element] at ht
    split at ht
    · rename_i window
      have nonempty : s.paging.isEmpty = false := by
        simp only [Bool.and_eq_true, Bool.not_eq_true'] at window
        exact window.2
      have offset : s.paging.bounds.skip.getD 0 = s.paging.skipped := by
        by_cases hskip : 0 < s.paging.skipped
        · simp [Window.bounds, nonempty, hskip]
        · simp [Window.bounds, nonempty, hskip]
          omega
      rw [offset] at ht
      split at ht
      · rename_i fits
        exact .inl ⟨nonempty, fits, (Except.ok.inj ht).symm⟩
      · cases ht
    · exact .inr (Except.ok.inj ht).symm
  cases pick with
  | first | firstOrDefault =>
    obtain rfl := Option.some.inj hpick
    rcases first ht with ⟨nonempty, fits, rfl⟩ | rfl
    · exact .inl ⟨rfl, nonempty, fits, rfl⟩
    · exact .inr (.inl ⟨rfl, rfl⟩)
  | last | lastOrDefault =>
    obtain rfl := Option.some.inj hpick
    exact .inr (.inr ⟨rfl, (Except.ok.inj ht).symm⟩)
  | single | singleOrDefault => cases hpick

/-- **The item that is picked of a sequence** is picked of the items that it holds. -/
theorem Holds.eval_element {pick : Pick} {site : String} {t : Term}
    {g : List Value → Option Value} (h : s.Holds engine env items)
    (hpick : pick.of? = some g) (ht : s.element pick site = .ok t) :
    t.eval engine env = g items := by
  rcases element_cases hpick ht with ⟨rfl, nonempty, fits, rfl⟩ | ⟨rfl, rfl⟩ | ⟨rfl, rfl⟩
  · obtain ⟨base, heval, _, rfl⟩ := h
    rw [eval_elemAt heval fits, Window.head?_apply nonempty]
    simp [Value.itemAt]
  · rw [eval_elemAt h.eval_windowed rfl, itemAt_zero]
  · rw [eval_elemAt h.eval_windowed rfl, itemAt_neg_one]

theorem reads_position (n : Int) : (Term.position n).reads = [] := by
  unfold Term.position
  split <;> rfl

theorem Over.element {pick : Pick} {site : String} {t : Term} {g : List Value → Option Value}
    (h : s.Over vars) (hpick : pick.of? = some g) (ht : s.element pick site = .ok t) :
    t.ReadsIn vars ∧ t.outline = .stored s.codec ∧ t.isSlice = false := by
  have picked {array : Term} {n : Int} (reads : array.ReadsIn vars)
      (codec : array.codec = .arrayOf s.codec) :
      (Term.elemAt array (.position n)).ReadsIn vars ∧
        (Term.elemAt array (.position n)).outline = .stored s.codec ∧
        (Term.elemAt array (.position n)).isSlice = false := by
    refine ⟨?_, ?_, rfl⟩
    · simpa [Term.ReadsIn, Term.reads, reads_position] using reads
    · simp [Term.outline, Term.shape, Term.codec, codec, Codec.item?, Outline.ofShape,
        Outline.stored]
  rcases element_cases hpick ht with ⟨_, _, _, rfl⟩ | ⟨_, rfl⟩ | ⟨_, rfl⟩
  · exact picked h.reads h.codec
  · exact picked h.reads_windowed h.codec_windowed
  · exact picked h.reads_windowed h.codec_windowed

end Items

end QueryPipeline
