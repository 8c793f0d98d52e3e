/-!
A map that keeps the order in which its keys were added and refuses a key that
it already holds. The members of a document that a query builds are collected
in one, so two members that would land in the same field are reported instead
of one silently replacing the other.

Two such maps are equal only if they list the same entries in the same order.
-/

namespace QueryPipeline

/-- A key was added a second time. -/
structure DuplicateKey (κ : Type) where
  key : κ
deriving DecidableEq, Repr

/-- The report on a repeated field name. -/
def DuplicateKey.message (e : DuplicateKey String) : String :=
  "duplicate key found: " ++ e.key

/-- Entries in the order of their insertion, no key twice. -/
structure UniqueMap (κ α : Type) where
  entries : List (κ × α)
  nodup_keys : (entries.map Prod.fst).Nodup
deriving DecidableEq, Repr

namespace UniqueMap

variable {κ α β ε : Type}

/-- The map without entries. -/
def empty : UniqueMap κ α := ⟨[], List.nodup_nil⟩

instance : Inhabited (UniqueMap κ α) := ⟨empty⟩

/-- The keys in order. -/
def keys (m : UniqueMap κ α) : List κ := m.entries.map Prod.fst

/-- The values in the order of their keys. -/
def values (m : UniqueMap κ α) : List α := m.entries.map Prod.snd

/-- The number of entries. -/
def size (m : UniqueMap κ α) : Nat := m.entries.length

/-- Whether no key was added yet. -/
def isEmpty (m : UniqueMap κ α) : Bool := m.entries.isEmpty

/-- Whether the key was added. -/
def contains [DecidableEq κ] (m : UniqueMap κ α) (k : κ) : Bool :=
  m.keys.contains k

/-- The value under a key. -/
def get? [DecidableEq κ] (m : UniqueMap κ α) (k : κ) : Option α :=
  (m.entries.find? (·.1 == k)).map Prod.snd

/-! ### Building -/

/-- Adds an entry at the end, or reports the key if it is taken. -/
def insert [DecidableEq κ] (m : UniqueMap κ α) (k : κ) (a : α) :
    Except (DuplicateKey κ) (UniqueMap κ α) :=
  if taken : k ∈ m.keys then .error ⟨k⟩
  else .ok {
    entries := m.entries ++ [(k, a)]
    nodup_keys := by
      simp only [List.map_append, List.map_cons, List.map_nil, List.nodup_append]
      refine ⟨m.nodup_keys, by simp, fun x hx y hy same => taken ?_⟩
      rw [List.mem_singleton] at hy
      rw [same, hy] at hx
      exact hx }

/-- Adds the entries in order and stops at the first repeated key. -/
def ofList [DecidableEq κ] (pairs : List (κ × α)) : Except (DuplicateKey κ) (UniqueMap κ α) :=
  pairs.foldlM (fun m p => m.insert p.1 p.2) empty

/-! ### Changing the values

The keys stay, so they stay distinct. -/

/-- Replaces every value by what the function gives for its entry. -/
def mapWithKey (f : κ → α → β) (m : UniqueMap κ α) : UniqueMap κ β where
  entries := m.entries.map fun p => (p.1, f p.1 p.2)
  nodup_keys := by simpa [List.map_map, Function.comp_def] using m.nodup_keys

/-- Replaces every value. -/
def mapValues (f : α → β) (m : UniqueMap κ α) : UniqueMap κ β :=
  m.mapWithKey fun _ a => f a

/-- Applies a function that may fail to the values of a list of entries, in
order. The first failure is the answer; otherwise the keys are unchanged. -/
def mapEntries (f : α → Except ε β) :
    (l : List (κ × α)) → Except ε { r : List (κ × β) // r.map Prod.fst = l.map Prod.fst }
  | [] => .ok ⟨[], rfl⟩
  | (k, a) :: l => do
      let b ← f a
      let r ← mapEntries f l
      return ⟨(k, b) :: r.1, by rw [List.map_cons, List.map_cons, r.2]⟩

/-- Replaces every value by a function that may fail; the first failure, in
the order of the entries, is the answer. -/
def mapValuesM (f : α → Except ε β) (m : UniqueMap κ α) : Except ε (UniqueMap κ β) := do
  let r ← mapEntries f m.entries
  return ⟨r.1, by rw [r.2]; exact m.nodup_keys⟩

end UniqueMap

end QueryPipeline
