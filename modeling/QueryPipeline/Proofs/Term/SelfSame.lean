import Mathlib.Data.List.Perm.Subperm
import QueryPipeline.Proofs.Grouping.Sharing

/-!
Values and terms that agree with themselves. Being the same is no equivalence: a number that
is none differs from itself, and so do an array and a document that holds one, and a term with
such a constant. But what another value agrees with agrees with itself, provided that the
names in documents differ; so it is only where a constant differs from itself that a term is
not found again by looking for the same one.
-/

namespace QueryPipeline

/-! ### Values -/

theorem Double.same_right {a b : Double} (h : a.same b = true) : b.same b = true := by
  simp only [same, compare?, beq_iff_eq] at h ⊢
  split at h
  · cases h
  · rename_i number
    rw [Bool.or_eq_true, not_or] at number
    simp [number.2]

namespace Value

/-- The values of a document or of a scope, by name. -/
def fields : Value → List (String × Value)
  | .document fields | .codeWithScope _ fields => fields
  | _ => []

/-- The values right below a value. -/
def parts : Value → List Value
  | .array items => items
  | v => v.fields.map Prod.snd

/-- The names in each document of the value differ. -/
inductive WellFormed : Value → Prop where
  | intro {v : Value} : (v.fields.map Prod.fst).Nodup → (∀ w ∈ v.parts, WellFormed w) →
      WellFormed v

theorem sameItems_right {as bs : List Value} (h : sameItems as bs = true)
    (right : ∀ a ∈ as, ∀ b ∈ bs, a.same b = true → b.same b = true) :
    sameItems bs bs = true := by
  induction as generalizing bs with
  | nil =>
    cases bs with
    | nil => rfl
    | cons => cases h
  | cons a as ih =>
    cases bs with
    | nil => cases h
    | cons b bs =>
      simp only [sameItems, Bool.and_eq_true] at h ⊢
      refine ⟨right a List.mem_cons_self b List.mem_cons_self h.1, ih h.2 ?_⟩
      intro a' ha' b' hb'
      exact right a' (List.mem_cons_of_mem _ ha') b' (List.mem_cons_of_mem _ hb')

/-- Each field is found under its name, with the same value. -/
theorem sameFields_iff {as bs : List (String × Value)} : sameFields as bs = true ↔
    ∀ f ∈ as, ∃ g, bs.find? (·.1 == f.1) = some g ∧ f.2.same g.2 = true := by
  induction as with
  | nil => simp [sameFields]
  | cons f as ih =>
    obtain ⟨k, a⟩ := f
    rw [sameFields, Bool.and_eq_true, ih, List.forall_mem_cons]
    refine and_congr_left fun _ => ?_
    cases bs.find? (·.1 == k) with
    | none => simp
    | some g => simp

/-- Of two documents of one size, each name of the second one is a name of the first one if
each name of the first one is found in it. -/
theorem sameFields_right {as bs : List (String × Value)} (names : (as.map Prod.fst).Nodup)
    (names' : (bs.map Prod.fst).Nodup) (size : as.length = bs.length)
    (h : sameFields as bs = true)
    (right : ∀ a ∈ as.map Prod.snd, ∀ b ∈ bs.map Prod.snd, a.same b = true → b.same b = true) :
    sameFields bs bs = true := by
  rw [sameFields_iff] at h ⊢
  have found : as.map Prod.fst ⊆ bs.map Prod.fst := by
    intro k hk
    obtain ⟨f, hf, rfl⟩ := List.mem_map.mp hk
    obtain ⟨g, hg, -⟩ := h f hf
    have named : g.1 = f.1 := by simpa using List.find?_some hg
    exact named ▸ List.mem_map_of_mem (List.mem_of_find?_eq_some hg)
  have same : (as.map Prod.fst).Perm (bs.map Prod.fst) :=
    (List.subperm_of_subset names found).perm_of_length_le (by simp [size])
  intro g hg
  obtain ⟨f, hf, named⟩ := List.mem_map.mp (same.mem_iff.mpr (List.mem_map_of_mem hg))
  have self : bs.find? (·.1 == g.1) = some g := find?_of_distinct names' hg
  obtain ⟨g', hg', hsame⟩ := h f hf
  rw [named, self] at hg'
  obtain rfl := Option.some.inj hg'
  exact ⟨g, self, right _ (List.mem_map_of_mem hf) _ (List.mem_map_of_mem hg) hsame⟩

/-- **A value that another one agrees with agrees with itself.** -/
theorem same_right {v w : Value} (hv : v.WellFormed) (hw : w.WellFormed)
    (h : v.same w = true) : w.same w = true := by
  induction hv generalizing w with
  | @intro v names _ ih =>
    obtain ⟨names', parts'⟩ := hw
    unfold same at h
    split at h
    case h_5 => exact Double.same_right h
    case h_7 items items' =>
      rw [same]
      exact sameItems_right h fun a ha b hb => ih a ha (parts' b hb)
    case h_8 fields _ =>
      simp only [Bool.and_eq_true, beq_iff_eq] at h
      have self : sameFields fields fields = true :=
        sameFields_right names names' h.1 h.2 fun a ha b hb => ih a ha (parts' b hb)
      simp [same, self]
    case h_16 fields _ =>
      simp only [Bool.and_eq_true, beq_iff_eq] at h
      have self : sameFields fields fields = true :=
        sameFields_right names names' h.2.1 h.2.2 fun a ha b hb => ih a ha (parts' b hb)
      simp [same, self]
    case h_21 => cases h
    all_goals simp [same]

end Value

/-! ### Terms -/

namespace Term

variable {t u : Term}

/-- A term agrees with itself if its parts do, unless it is a constant that does not. -/
theorem same_self_of_parts (const : ∀ v codec, t = .const v codec → v.same v = true)
    (parts : ∀ u ∈ t.children, u.same u = true) : t.same t = true := by
  cases t with
  | const v codec => simp [same, const v codec rfl]
  | document fields =>
    suffices fieldwise : ∀ fields : List (String × Term),
        (∀ f ∈ fields, f.2.same f.2 = true) → sameFields fields fields = true by
      rw [same]
      exact fieldwise fields fun f hf => parts f.2 (List.mem_map_of_mem hf)
    intro fields h
    induction fields with
    | nil => rfl
    | cons f rest ih =>
      obtain ⟨first, rest⟩ := List.forall_mem_cons.mp h
      simp [sameFields, first, ih rest]
  | setOp op arguments =>
    suffices each : ∀ ts : List Term, (∀ u ∈ ts, u.same u = true) → sameAll ts ts = true by
      simp [same, each arguments parts]
    intro ts h
    induction ts with
    | nil => rfl
    | cons t ts ih =>
      obtain ⟨first, rest⟩ := List.forall_mem_cons.mp h
      simp [sameAll, first, ih rest]
  | grouping group key element predicate distinct =>
    cases predicate <;> simpa [same, children, and_assoc] using parts
  | field => simp [same]
  | _ => simpa [same, children, and_assoc] using parts

/-- So it does if its constants do. -/
theorem same_self (h : ∀ v, t.HasConstant v → v.same v = true) : t.same t = true := by
  induction t using inductionOn with
  | step t ih =>
    refine same_self_of_parts ?_ fun u hu => ih u hu fun v hv => h v (hv.of_child hu)
    rintro v codec rfl
    exact h v hasConstant_const

/-- **A term that differs from itself has a constant that does.** -/
theorem hasConstant_of_not_same_self (h : t.same t = false) :
    ∃ v, t.HasConstant v ∧ v.same v = false := by
  by_contra none
  have constants : ∀ v, t.HasConstant v → v.same v = true := by
    intro v hv
    by_contra differs
    exact none ⟨v, hv, Bool.eq_false_iff.mpr differs⟩
  rw [same_self constants] at h
  cases h

/-- **A term that another one agrees with agrees with itself.** -/
theorem same_right (ht : ∀ v, t.HasConstant v → v.WellFormed)
    (hu : ∀ v, u.HasConstant v → v.WellFormed) (h : t.same u = true) : u.same u = true := by
  induction t using inductionOn generalizing u with
  | step t ih =>
    rcases same_parts h with ⟨v, w, codec, rfl, rfl, hsame⟩ | ⟨form, parts⟩
    · have self := Value.same_right (ht v hasConstant_const) (hu w hasConstant_const) hsame
      exact same_self_of_parts (by simpa using self) nofun
    · refine same_self_of_parts ?_ ?_
      · rintro v codec rfl
        -- The first term is of the same form, so it is this constant.
        obtain rfl := eq_const_of_withChildren form.symm
        simp only [same, Bool.and_eq_true] at h
        exact h.1
      · intro w hw
        obtain ⟨s, hs, hsame⟩ := exists_of_mem_right parts hw
        exact ih s hs (fun v hv => ht v (hv.of_child hs)) (fun v hv => hu v (hv.of_child hw))
          hsame

end Term

end QueryPipeline
