/-!
Nested scopes of names. A lambda opens a frame for its parameters; a name is
looked up in the innermost frame first, so a parameter hides the parameters of
the same name of the lambdas around it.
-/

namespace QueryPipeline

/-- Open frames, the innermost first. Within a frame the later of two bindings
of a name counts. -/
structure Scopes (κ α : Type) where
  frames : List (List (κ × α)) := []
deriving DecidableEq, Repr

namespace Scopes

variable {κ α : Type}

instance : Inhabited (Scopes κ α) := ⟨{}⟩

/-- Opens a frame. -/
def push (s : Scopes κ α) (frame : List (κ × α)) : Scopes κ α :=
  ⟨frame :: s.frames⟩

/-- Closes the innermost frame; nothing to close is no error. -/
def pop (s : Scopes κ α) : Scopes κ α := ⟨s.frames.tail⟩

/-- The innermost frame. -/
def top? (s : Scopes κ α) : Option (List (κ × α)) := s.frames.head?

/-- How many frames are open. -/
def depth (s : Scopes κ α) : Nat := s.frames.length

/-- The innermost binding of a name. -/
def lookup [DecidableEq κ] (s : Scopes κ α) (name : κ) : Option α :=
  s.frames.findSome? fun frame => (frame.reverse.find? (·.1 == name)).map Prod.snd

end Scopes

end QueryPipeline
