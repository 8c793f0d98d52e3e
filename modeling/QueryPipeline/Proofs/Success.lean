import QueryPipeline.UniqueMap

/-!
Success of computations that may fail, taken apart: a sequence succeeds when each of its
steps does, and an insertion when it adds an entry.
-/

namespace QueryPipeline

variable {ε α β : Type}

theorem bind_eq_ok {x : Except ε α} {f : α → Except ε β} {b : β} :
    (x >>= f) = .ok b ↔ ∃ a, x = .ok a ∧ f a = .ok b := by
  cases x with
  | error e => exact ⟨nofun, nofun⟩
  | ok a =>
    constructor
    · intro h
      exact ⟨a, rfl, h⟩
    · rintro ⟨_, heq, h⟩
      cases heq
      exact h

theorem map_eq_ok {x : Except ε α} {f : α → β} {b : β} :
    f <$> x = .ok b ↔ ∃ a, x = .ok a ∧ f a = b := by
  cases x with
  | error e => exact ⟨nofun, nofun⟩
  | ok a =>
    constructor
    · intro h
      exact ⟨a, rfl, Except.ok.inj h⟩
    · rintro ⟨_, heq, h⟩
      cases heq
      exact congrArg Except.ok h

theorem pure_eq_ok {a b : α} : (pure a : Except ε α) = .ok b ↔ a = b :=
  ⟨Except.ok.inj, congrArg Except.ok⟩

/-- What steps through a list give was given by one of them. -/
theorem exists_of_mapM_eq_ok {f : α → Except ε β} {as : List α} {bs : List β}
    (h : as.mapM f = .ok bs) : ∀ b ∈ bs, ∃ a ∈ as, f a = .ok b := by
  induction as generalizing bs with
  | nil =>
    cases h
    nofun
  | cons a as ih =>
    rw [List.mapM_cons] at h
    simp only [bind_eq_ok, pure_eq_ok] at h
    obtain ⟨b, hb, bs, hbs, rfl⟩ := h
    intro b' hb'
    rcases List.mem_cons.mp hb' with rfl | hb'
    · exact ⟨a, List.mem_cons_self, hb⟩
    · obtain ⟨a', ha', h⟩ := ih hbs b' hb'
      exact ⟨a', List.mem_cons_of_mem _ ha', h⟩

/-- An insertion that succeeds adds the entry at the end. -/
theorem UniqueMap.entries_insert {κ : Type} [DecidableEq κ] {m m' : UniqueMap κ α}
    {k : κ} {a : α} (h : m.insert k a = .ok m') : m'.entries = m.entries ++ [(k, a)] := by
  unfold UniqueMap.insert at h
  split at h
  · cases h
  · cases h
    rfl

end QueryPipeline
