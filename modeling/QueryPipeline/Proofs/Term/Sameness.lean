import Mathlib.Data.List.Forall2
import QueryPipeline.Proofs.Term.Children

/-!
Terms that agree. Two terms are the same if they are of one form with the same parts, down
to their constants, which are compared as values.
-/

namespace QueryPipeline.Term

theorem forall₂_of_sameAll {ts us : List Term} (h : sameAll ts us = true) :
    List.Forall₂ (fun t u => t.same u = true) ts us := by
  induction ts generalizing us with
  | nil =>
    cases us with
    | nil => exact .nil
    | cons => cases h
  | cons t ts ih =>
    cases us with
    | nil => cases h
    | cons u us =>
      rw [sameAll, Bool.and_eq_true] at h
      exact .cons h.1 (ih h.2)

theorem forall₂_of_sameFields {fields fields' : List (String × Term)}
    (h : sameFields fields fields' = true) :
    fields.map Prod.fst = fields'.map Prod.fst ∧
      List.Forall₂ (fun t u => t.same u = true) (fields.map Prod.snd)
        (fields'.map Prod.snd) := by
  induction fields generalizing fields' with
  | nil =>
    cases fields' with
    | nil => exact ⟨rfl, .nil⟩
    | cons => cases h
  | cons f fields ih =>
    cases fields' with
    | nil => cases h
    | cons f' fields' =>
      obtain ⟨name, t⟩ := f
      obtain ⟨name', t'⟩ := f'
      simp only [sameFields, Bool.and_eq_true, beq_iff_eq] at h
      obtain ⟨names, parts⟩ := ih h.2
      exact ⟨by simp [h.1.1, names], .cons h.1.2 parts⟩

/-- **Terms that are the same are constants with the same value, or are of one form with
the same parts.** -/
theorem same_parts {t u : Term} (h : t.same u = true) :
    (∃ v w codec, t = .const v codec ∧ u = .const w codec ∧ v.same w = true) ∨
      u = t.withChildren u.children ∧
        List.Forall₂ (fun t u => t.same u = true) t.children u.children := by
  unfold same at h
  split at h
  case h_1 =>
    simp only [Bool.and_eq_true, beq_iff_eq] at h
    obtain ⟨hvalue, rfl⟩ := h
    exact .inl ⟨_, _, _, rfl, rfl, hvalue⟩
  case h_3 a b =>
    obtain ⟨names, parts⟩ := forall₂_of_sameFields h
    refine .inr ⟨?_, parts⟩
    rw [children, withChildren, names]
    exact (withChildren_children (.document b)).symm
  case h_13 =>
    simp only [Bool.and_eq_true, beq_iff_eq] at h
    obtain ⟨rfl, parts⟩ := h
    exact .inr ⟨rfl, forall₂_of_sameAll parts⟩
  case h_11 | h_12 | h_14 => exact .inr ⟨rfl, .cons h .nil⟩
  case h_23 => cases h
  all_goals
    simp only [Bool.and_eq_true, beq_iff_eq] at h
    simp [children, withChildren, h]

end QueryPipeline.Term
