import QueryPipeline.Proofs.Binding.Group
import QueryPipeline.Proofs.Binding.Inheritance
import QueryPipeline.Proofs.Binding.Items

/-!
What a call inside an expression knows of the items of an array. An operator on the items
establishes a codec for them, and the call ends with an expression; the next call takes the
codec of the items from that expression. The expression has the codec that was established,
except where documents of a class are kept: it is a filter then, and its items are read as they
were before (`Expr.knows_items_iff`).
-/

namespace QueryPipeline

variable {registry : Registry}

/-- Whether the operator makes other items of the items of an array. -/
def Operator.continues : Operator → Bool
  | .filter | .project | .distinct | .sortBy _ | .thenBy _ | .skip | .take | .union | .except
  | .intersect | .ofType | .toList | .toArray | .asQueryable => true
  | _ => false

/-- Whether the operator may establish another codec for the items. -/
def Operator.retypes : Operator → Bool
  | .project | .ofType => true
  | _ => false

/-- Whether the term is a group or a slice of one. -/
def Term.isGroupSlice : Term → Bool
  | .grouping _ _ _ _ _ => true
  | .slice array _ => array.isGroupSlice
  | _ => false

theorem Term.isGrouping_of_isGroupSlice {t : Term} (h : t.isGroupSlice = false) :
    t.isGrouping = false := by
  cases t with
  | grouping => cases h
  | _ => rfl

/-- An array whose items have a codec, and whose items are no rows of a group. -/
structure Term.IsArrayOf (t : Term) (item : Codec) : Prop where
  codec : t.codec = .arrayOf item
  no_group : t.isGroupSlice = false

namespace Items

variable {s s' : Items} {t : Term} {site : String} {call : Call Argument} {c c' : Context}

/-! ### One call -/

/-- The codec of the items that an operator establishes: that of what a lambda selects, that
of a class, or the one that the items have. -/
inductive Establishes (registry : Registry) (s : Items) (call : Call Argument)
    (c c' : Context) : Operator → Codec → Prop
  | project {l} : (call.lambda s).Yields c l c' →
      Establishes registry s call c c' .project l.body.codec
  | ofType {m} : (call.classMap registry).Yields c m c' →
      Establishes registry s call c c' .ofType (.document m)
  | other {op} : op.retypes = false → Establishes registry s call c c' op s.codec

/-- The codec that the items of the expression have after an operator. -/
def codecAfter (s s' : Items) (op : Operator) : Codec :=
  if op = .ofType then s.codec else s'.codec

theorem isArrayOf_array (array : t.IsArrayOf s.codec) (h : ofTerm t site = .ok s) :
    s.array.IsArrayOf s.codec := by
  unfold ofTerm at h
  split at h
  · cases h
    cases t with
    | slice inner bounds => exact ⟨array.codec, array.no_group⟩
    | _ => exact array
  · cases h

/-- The next call finds the items of an array. -/
theorem ofTerm_of_array {codec : Codec} (h : t.IsArrayOf codec) (site : String) :
    ∃ s, ofTerm t site = .ok s ∧ s.codec = codec := by
  have known : t.codec.item? = some codec := by
    rw [h.codec]
    rfl
  refine ⟨ofArray t codec, by simp [ofTerm, known], ?_⟩
  cases t <;> rfl

/-- A lambda over the items finds the members that their codec has. -/
theorem isSome_member_item (document : s.codec.isArray = false) (var name : String) :
    ((s.item var).member registry name).isSome = (registry.member? s.codec name).isSome := by
  rw [Term.member_of_readsByCodec rfl, item, Term.codec, document]
  simp

theorem isArrayOf_windowed (h : s.array.IsArrayOf s.codec) : s.windowed.IsArrayOf s.codec := by
  refine ⟨codec_windowed_of_array h.codec, ?_⟩
  rcases s.windowed_cases with ⟨_, heq⟩ | ⟨_, heq⟩ | ⟨_, _, heq⟩
  · rw [heq, h.no_group]
  · rw [heq]
    rfl
  · rw [heq, Term.isGroupSlice, h.no_group]

/-- **One operator.** It establishes a codec for the items, and the expression that the call
ends with is an array of such items, unless documents of a class are kept. -/
theorem apply_establishes (array : s.array.IsArrayOf s.codec) {op : Operator}
    (continues : op.continues = true) {applied : Applied Items Term}
    (h : (op.apply registry s call).Yields c applied c') :
    ∃ s', applied = .sequence s' ∧ s.Establishes registry call c c' op s'.codec ∧
      s'.windowed.IsArrayOf (s.codecAfter s' op) := by
  have windowed := isArrayOf_windowed array
  unfold Operator.apply at h
  cases op with
  | filter =>
    simp only [BindM.yields_bind, Operator.yields_next] at h
    obtain ⟨l, c₁, hl, s', hs', rfl, rfl⟩ := h
    cases hs'
    exact ⟨_, rfl, .other rfl, windowed.codec, rfl⟩
  | project =>
    simp only [BindM.yields_bind, Operator.yields_next] at h
    obtain ⟨l, c₁, hl, s', hs', rfl, rfl⟩ := h
    cases hs'
    exact ⟨_, rfl, .project hl, rfl, rfl⟩
  | distinct =>
    simp only [Operator.yields_next] at h
    obtain ⟨s', hs', rfl, rfl⟩ := h
    cases hs'
    exact ⟨_, rfl, .other rfl, windowed.codec, rfl⟩
  | sortBy direction =>
    simp only [BindM.yields_bind, Operator.yields_next] at h
    obtain ⟨l, c₁, hl, s', hs', rfl, rfl⟩ := h
    obtain ⟨key, -, hs'⟩ := bind_eq_ok.mp hs'
    cases hs'
    exact ⟨_, rfl, .other rfl, windowed.codec, rfl⟩
  | thenBy direction =>
    simp only [BindM.yields_bind, Operator.yields_next] at h
    obtain ⟨l, c₁, hl, s', hs', rfl, rfl⟩ := h
    obtain ⟨key, -, hs'⟩ := bind_eq_ok.mp hs'
    split at hs'
    · rename_i input keys _ harray
      cases hs'
      have codec : s.array.codec = .arrayOf s.codec := array.codec
      have isSorted : s.array = .sortArray input keys := harray
      rw [isSorted, Term.codec] at codec
      have sorted : (Term.sortArray input (keys ++ [key])).IsArrayOf s.codec := ⟨codec, rfl⟩
      exact ⟨_, rfl, .other rfl, isArrayOf_windowed sorted⟩
    · cases hs'
  | skip =>
    simp only [BindM.yields_bind, Operator.yields_next] at h
    obtain ⟨n, c₁, hn, s', hs', rfl, rfl⟩ := h
    cases hs'
    exact ⟨_, rfl, .other rfl, isArrayOf_windowed array⟩
  | take =>
    simp only [BindM.yields_bind, Operator.yields_next] at h
    obtain ⟨n, c₁, hn, s', hs', rfl, rfl⟩ := h
    cases hs'
    exact ⟨_, rfl, .other rfl, isArrayOf_windowed array⟩
  | union | except | intersect =>
    simp only [BindM.yields_bind, BindM.yields_pure, Operator.combineStep,
      BindM.yields_ofExcept] at h
    obtain ⟨s', c₁, ⟨t, c₂, ht, hs', rfl⟩, rfl, rfl⟩ := h
    simp only [Sequence.combine, combine] at hs'
    split at hs'
    · cases hs'
      exact ⟨_, rfl, .other rfl, windowed.codec, rfl⟩
    · cases hs'
  | ofType =>
    simp only [BindM.yields_bind, Operator.yields_next] at h
    obtain ⟨m, c₁, hm, s', hs', rfl, rfl⟩ := h
    simp only [Sequence.ofType, Items.ofType] at hs'
    split at hs'
    · cases hs'
      exact ⟨_, rfl, .ofType hm, windowed.codec, rfl⟩
    · cases hs'
  | toList | toArray =>
    obtain ⟨rfl, rfl⟩ := BindM.yields_pure.mp h
    exact ⟨_, rfl, .other rfl, isArrayOf_windowed array⟩
  | asQueryable =>
    obtain ⟨rfl, rfl⟩ := BindM.yields_pure.mp h
    exact ⟨_, rfl, .other rfl, isArrayOf_windowed array⟩
  | _ => cases continues

end Items

/-! ### Chains -/

namespace Expr

variable {source : Expr} {chain : List (Call Expr)} {call : Call Expr} {op : Operator}
  {t u : Term} {item : Codec} {c c₁ c₂ : Context}

/-- **One call** behind a chain that has come to an array. -/
theorem establishes_of_call (array : t.IsArrayOf item) (continues : op.continues = true)
    {site : String} {call : Call Argument}
    (h : (t.applyOperator registry op call site).Yields c u c₁) :
    ∃ s s', Items.ofTerm t site = .ok s ∧ s.codec = item ∧
      (op.apply registry s call).Yields c (.sequence s') c₁ ∧ u = s'.windowed ∧
      s.Establishes registry call c c₁ op s'.codec ∧ u.IsArrayOf (s.codecAfter s' op) := by
  have no_group := Term.isGrouping_of_isGroupSlice array.no_group
  obtain ⟨-, s, applied, hs, happly, rfl⟩ := (Term.applyOperator_yields no_group).mp h
  obtain ⟨s₀, hs₀, rfl⟩ := Items.ofTerm_of_array array site
  obtain rfl : s₀ = s := by simpa using hs₀.symm.trans hs
  obtain ⟨s', rfl, establishes, array'⟩ :=
    Items.apply_establishes (Items.isArrayOf_array array hs) continues happly
  exact ⟨s₀, s', hs, rfl, happly, rfl, establishes, array'⟩

/-- A chain of calls on an array comes to an array. -/
theorem isArrayOf_applied (hsource : (source.bind registry).Yields c t c₁)
    (array : t.IsArrayOf item)
    (continues : ∀ call ∈ chain, ∀ op, Operator.ofCall call = .ok op → op.continues = true)
    (h : ((source.applied chain).bind registry).Yields c u c₂) : ∃ item', u.IsArrayOf item' := by
  induction chain using List.reverseRecOn generalizing u c₂ with
  | nil =>
    obtain ⟨rfl, -⟩ := hsource.unique h
    exact ⟨item, array⟩
  | append_singleton chain call ih =>
    obtain ⟨op, hop, t', c', ht', happly⟩ := Group.yields_applied_append.mp h
    obtain ⟨item', array'⟩ := ih (fun call' hmem => continues call' (by simp [hmem])) ht'
    obtain ⟨s, s', -, -, -, -, -, result⟩ :=
      establishes_of_call array' (continues call (by simp) op hop) happly
    exact ⟨_, result⟩

/-- **What the next call knows of the items.** On whatever array a chain of operators is
applied, each of them takes the codec of the items from the expression that it is given, and
establishes one for what it makes of them. The expression that it ends with is an array of one
codec, by which the next call reads the items, and whose members its lambda finds. It is the
established one if and only if the operator does not keep the documents of a class, or the items
had that class already. -/
theorem knows_items_iff (hsource : (source.bind registry).Yields c t c₁)
    (array : t.IsArrayOf item)
    (continues : ∀ call ∈ chain, ∀ op, Operator.ofCall call = .ok op → op.continues = true)
    (hop : Operator.ofCall call = .ok op) (further : op.continues = true)
    (h : ((source.applied (chain ++ [call])).bind registry).Yields c u c₂) :
    ∃ (t' : Term) (c' : Context) (s s' : Items),
      ((source.applied chain).bind registry).Yields c t' c' ∧
      Items.ofTerm t' (Expr.call (source.applied chain) call).text = .ok s ∧
      t'.codec = .arrayOf s.codec ∧
      (op.apply registry s (bindArguments registry call)).Yields c' (.sequence s') c₂ ∧
      u = s'.windowed ∧
      s.Establishes registry (bindArguments registry call) c' c₂ op s'.codec ∧
      ∃ known, u.codec = .arrayOf known ∧
        (∀ site, ∃ next, Items.ofTerm u site = .ok next ∧ next.codec = known ∧
          ∀ var name, known.isArray = false → ((next.item var).member registry name).isSome =
            (registry.member? known name).isSome) ∧
        (known = s'.codec ↔ op = .ofType → s'.codec = s.codec) := by
  obtain ⟨op', hop', t', c', ht', happly⟩ := Group.yields_applied_append.mp h
  obtain rfl : op = op' := by simpa using hop.symm.trans hop'
  obtain ⟨item', array'⟩ := isArrayOf_applied hsource array continues ht'
  obtain ⟨s, s', hs, rfl, hs', rfl, establishes, result⟩ :=
    establishes_of_call array' further happly
  refine ⟨t', c', s, s', ht', hs, array'.codec, hs', rfl, establishes, _, result.codec, ?_, ?_⟩
  · intro site
    obtain ⟨next, hnext, known⟩ := Items.ofTerm_of_array result site
    rw [← known]
    exact ⟨next, hnext, rfl, fun var name document => Items.isSome_member_item document var name⟩
  · unfold Items.codecAfter
    split
    · rename_i keepsClass
      exact ⟨fun same _ => same.symm, fun had => (had keepsClass).symm⟩
    · rename_i keepsNone
      exact ⟨fun _ keepsClass => absurd keepsClass keepsNone, fun _ => rfl⟩

end Expr

/-! ### Cats among pets -/

/-- Animals, some of which are cats, and the people who keep them. -/
def animalClass : ClassMap := .mk "Animal" none [.mk "Name" "name" (.static .string)]

def catClass : ClassMap := .mk "Cat" (some "Cat") [.mk "Lives" "lives" (.static .int32)]

def ownerClass : ClassMap :=
  .mk "Owner" none [.mk "Pets" "pets" (.static (.array (.document "Animal")))]

def petOwners : Registry := .ofList [animalClass, catClass, ownerClass]

/-- The pets of an owner. -/
def petsOfOwner : Expr := .member (.param "x") "Pets"

/-- Different pets, two at most. -/
def twoPets : List (Call Expr) :=
  [⟨"Enumerable", "Distinct", [], []⟩, ⟨"Enumerable", "Take", [], [.const (.int32 2) .int32]⟩]

/-- Those that are cats. -/
def keepCats (type : String) : Call Expr := ⟨type, "OfType", [.document "Cat"], []⟩

/-- How many lives they have. -/
def selectLives (type : String) : Call Expr :=
  ⟨type, "Select", [], [.lambda ["c"] (.member (.param "c") "Lives")]⟩

/-- The cats among the pets are animals to the next call. -/
theorem keepCats_leaves_animals :
    ∃ u c₂ known, ((petsOfOwner.applied (twoPets ++ [keepCats "Enumerable"])).bind
        petOwners).Yields (({} : Context).push "x" (.root (.document ownerClass))) u c₂ ∧
      u.codec = .arrayOf known ∧ known = .document animalClass ∧
      ∀ site, ∃ next, Items.ofTerm u site = .ok next ∧ next.codec = known ∧
        ∀ var name, known.isArray = false → ((next.item var).member petOwners name).isSome =
          (petOwners.member? known name).isSome := by
  have pets : (petsOfOwner.bind petOwners).Yields
      (({} : Context).push "x" (.root (.document ownerClass)))
      (.field (.field "pets") (.arrayOf (.document animalClass)))
      (({} : Context).push "x" (.root (.document ownerClass))) := rfl
  have continues : ∀ call ∈ twoPets, ∀ op, Operator.ofCall call = .ok op →
      op.continues = true := by
    simp only [twoPets, List.mem_cons, List.not_mem_nil, or_false, forall_eq_or_imp, forall_eq]
    constructor
    · intro op h
      obtain rfl : Operator.distinct = op := Except.ok.inj h
      rfl
    · intro op h
      obtain rfl : Operator.take = op := Except.ok.inj h
      rfl
  have kept : Operator.ofCall (keepCats "Enumerable") = .ok .ofType := rfl
  obtain ⟨u, c₂, bound, animals⟩ :
      ∃ u c₂, ((petsOfOwner.applied (twoPets ++ [keepCats "Enumerable"])).bind
        petOwners).Yields (({} : Context).push "x" (.root (.document ownerClass))) u c₂ ∧
      u.codec = .arrayOf (.document animalClass) := ⟨_, _, rfl, rfl⟩
  obtain ⟨-, -, -, -, -, -, -, -, -, -, known, codec, reads, -⟩ :=
    Expr.knows_items_iff pets ⟨rfl, rfl⟩ continues kept rfl bound
  refine ⟨u, c₂, known, bound, codec, ?_, reads⟩
  simpa using codec.symm.trans animals

/-- For each owner, how many lives the cats have. -/
def livesOfPets : Query where
  collection := "owners"
  itemType := .document "Owner"
  clauses := [⟨"Queryable", "Select", [], [.lambda ["x"]
    (petsOfOwner.applied [keepCats "Enumerable", selectLives "Enumerable"])]⟩]

/-- How many lives all cats have. -/
def livesOfCats : Query where
  collection := "animals"
  itemType := .document "Animal"
  clauses := [keepCats "Queryable", selectLives "Queryable"]

/-- A cat has lives, which are found among all animals but not among pets. -/
theorem livesOfPets_unresolved :
    petOwners.class? "Cat" = some catClass ∧
      petOwners.member? (.document catClass) "Lives" = some ("lives", .int32) ∧
      (livesOfPets.bound petOwners).1 = .error (.unresolvedMember "Lives" "c.Lives") ∧
      ∃ p, (livesOfCats.bound petOwners).1 = .ok p ∧
        p.projector = .field (.field "lives") .int32 :=
  ⟨rfl, rfl, rfl, _, rfl, rfl⟩

end QueryPipeline
