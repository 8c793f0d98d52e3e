import QueryPipeline.Proofs.Term.Children
import QueryPipeline.Term.Fold

/-!
References of a term. Sub-queries bind variables in their conditions and bodies, so a variable
is read where some others are bound, and which of them it is found in depends on what stands
between. `Term.Refers` says which variable a term reads where, and `Term.KeepsTo` that all
that it reads keeps to a rule.
-/

namespace QueryPipeline.Term

/-- The variable that the term itself is read by. -/
def ownVar? : Term → Option String
  | .field path _ => path.var
  | .item _ var _ => some var
  | _ => none

/-- The parts of a term that are read where it stands, each with the variables that are bound
there, the innermost first. An item is read by its variable, whatever the array it comes from;
accumulators are computed elsewhere, and of the rows of a group only the key is read. -/
def readParts (bound : List String) : Term → List (List String × Term)
  | .item .. | .accumulator .. => []
  | .grouping _ key _ _ _ => [(bound, key)]
  | .filter input var condition => [(bound, input), (var :: bound, condition)]
  | .map input var body => [(bound, input), (var :: bound, body)]
  | t => t.children.map (bound, ·)

/-- Where some variables are bound, the term stands, and in it a variable is read where these
and perhaps more are bound. -/
inductive Refers : List String → Term → List String → String → Prop
  | self {bound t var} : t.ownVar? = some var → Refers bound t bound var
  | part {bound bound' around t u var} : (bound', u) ∈ t.readParts bound →
      Refers bound' u around var → Refers bound t around var

/-- Wherever the term reads a variable, a rule allows it. -/
def KeepsTo (rule : List String → String → Prop) (bound : List String) (t : Term) : Prop :=
  ∀ ⦃around var⦄, t.Refers bound around var → rule around var

variable {rule : List String → String → Prop} {bound bound' outer around : List String}
  {t u v w : Term} {var : String}

theorem mem_children_of_readParts (h : (bound', u) ∈ t.readParts bound) : u ∈ t.children := by
  cases t with
  | item | accumulator => cases h
  | grouping group key element predicate distinct =>
    obtain ⟨-, rfl⟩ := Prod.mk.inj (List.mem_singleton.mp h)
    exact List.mem_cons_self
  | filter | map =>
    simp only [readParts, List.mem_cons, List.not_mem_nil, or_false, Prod.mk.injEq] at h
    rcases h with ⟨-, rfl⟩ | ⟨-, rfl⟩
    · exact List.mem_cons_self
    · exact List.mem_cons_of_mem _ List.mem_cons_self
  | _ =>
    obtain ⟨w, hw, heq⟩ := List.mem_map.mp h
    exact (Prod.mk.inj heq).2 ▸ hw

/-! ### Variables around a term -/

theorem readParts_append : t.readParts (bound ++ outer) =
    (t.readParts bound).map fun p => (p.1 ++ outer, p.2) := by
  cases t <;> simp [readParts]

/-- What is bound around a term is bound around all that it reads, behind what it binds
itself. -/
theorem Refers.of_append (h : t.Refers (bound ++ outer) around var) :
    ∃ inner, around = inner ++ outer ∧ t.Refers bound inner var := by
  generalize hstart : bound ++ outer = start at h
  induction h generalizing bound with
  | self hvar => exact ⟨bound, hstart.symm, .self hvar⟩
  | part hpart _ ih =>
    rw [← hstart, readParts_append] at hpart
    obtain ⟨⟨inside, u⟩, hmem, heq⟩ := List.mem_map.mp hpart
    obtain ⟨rfl, rfl⟩ := Prod.mk.inj heq
    obtain ⟨inner, rfl, href⟩ := ih rfl
    exact ⟨inner, rfl, .part hmem href⟩

/-! ### Terms that keep to a rule -/

theorem keepsTo_iff : t.KeepsTo rule bound ↔
    (∀ var, t.ownVar? = some var → rule bound var) ∧
      ∀ p ∈ t.readParts bound, p.2.KeepsTo rule p.1 := by
  constructor
  · intro h
    exact ⟨fun var hvar => h (.self hvar), fun p hp _ _ href => h (.part hp href)⟩
  · rintro ⟨own, parts⟩ around var href
    cases href with
    | self hvar => exact own var hvar
    | part hpart href => exact parts _ hpart href

namespace KeepsTo

theorem part (h : t.KeepsTo rule bound) (hpart : (bound', u) ∈ t.readParts bound) :
    u.KeepsTo rule bound' :=
  (keepsTo_iff.mp h).2 _ hpart

/-- A term that is no path and no item. -/
theorem of_parts (own : t.ownVar? = none)
    (parts : ∀ p ∈ t.readParts bound, p.2.KeepsTo rule p.1) : t.KeepsTo rule bound :=
  keepsTo_iff.mpr ⟨fun _ hvar => (nomatch own.symm.trans hvar), parts⟩

/-- A term that binds nothing and is read with all its parts. -/
theorem of_children (own : t.ownVar? = none)
    (plain : t.readParts bound = t.children.map (bound, ·))
    (h : ∀ u ∈ t.children, u.KeepsTo rule bound) : t.KeepsTo rule bound := by
  refine of_parts own ?_
  rw [plain, List.forall_mem_map]
  exact h

/-- A path or an item. -/
theorem of_variable (leaf : t.readParts bound = [])
    (own : ∀ var, t.ownVar? = some var → rule bound var) : t.KeepsTo rule bound :=
  keepsTo_iff.mpr ⟨own, by simp [leaf]⟩

theorem const {value : Value} {codec : Codec} : KeepsTo rule bound (.const value codec) :=
  of_parts rfl nofun

theorem accumulator {group : Nat} {kind : AccumulatorKind} {source : Term} {output : String}
    {codec : Codec} : KeepsTo rule bound (.accumulator group kind source output codec) :=
  of_parts rfl nofun

theorem document {fields : List (String × Term)}
    (h : ∀ u ∈ fields.map Prod.snd, u.KeepsTo rule bound) :
    KeepsTo rule bound (.document fields) :=
  of_children rfl rfl h

theorem binary {op : BinaryOp} (hu : u.KeepsTo rule bound) (hv : v.KeepsTo rule bound) :
    KeepsTo rule bound (.binary op u v) :=
  of_children rfl rfl (by simp [children, hu, hv])

theorem filter (hu : u.KeepsTo rule bound) (hv : v.KeepsTo rule (var :: bound)) :
    KeepsTo rule bound (.filter u var v) :=
  of_parts rfl (by simp [readParts, hu, hv])

theorem map (hu : u.KeepsTo rule bound) (hv : v.KeepsTo rule (var :: bound)) :
    KeepsTo rule bound (.map u var v) :=
  of_parts rfl (by simp [readParts, hu, hv])

theorem setOp {op : SetOp} {arguments : List Term}
    (h : ∀ u ∈ arguments, u.KeepsTo rule bound) : KeepsTo rule bound (.setOp op arguments) :=
  of_children rfl rfl h

theorem elemAt (hu : u.KeepsTo rule bound) (hv : v.KeepsTo rule bound) :
    KeepsTo rule bound (.elemAt u v) :=
  of_children rfl rfl (by simp [children, hu, hv])

theorem size (hu : u.KeepsTo rule bound) : KeepsTo rule bound (.size u) :=
  of_children rfl rfl (by simp [children, hu])

theorem foldUnary {op : UnaryOp} (hu : u.KeepsTo rule bound) :
    (Term.foldUnary op u).KeepsTo rule bound := by
  have unfolded : KeepsTo rule bound (.unary op u) :=
    of_children rfl rfl (by simp [children, hu])
  unfold Term.foldUnary
  split
  · split
    · exact .const
    · exact unfolded
  · exact unfolded

theorem foldBinary {op : BinaryOp} (hu : u.KeepsTo rule bound) (hv : v.KeepsTo rule bound) :
    (Term.foldBinary op u v).KeepsTo rule bound := by
  unfold Term.foldBinary
  split
  · split
    · exact .const
    · exact .binary hu hv
  · exact .binary hu hv

theorem foldCond (hu : u.KeepsTo rule bound) (hv : v.KeepsTo rule bound)
    (hw : w.KeepsTo rule bound) : (Term.foldCond u v w).KeepsTo rule bound := by
  unfold Term.foldCond
  split
  · split
    · exact hv
    · exact hw
  · exact of_children rfl rfl (by simp [children, hu, hv, hw])

end KeepsTo

end QueryPipeline.Term
