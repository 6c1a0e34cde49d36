import PlacementTree.Error

/-!
# Why a file is refused
-/

namespace PlacementTree

/-- A file is refused because it cannot be read as what it should be, or because what it says is not accepted. -/
inductive FileError where
  | malformed
  | invalid (cause : ConfigError)
  deriving DecidableEq

def FileError.message : FileError → String
  | .malformed => "malformed file"
  | .invalid cause => cause.message

/-- What a check says of the content of a file. -/
def FileError.ofCheck {α : Type} (content : α) : Except ConfigError Unit → Except FileError α
  | .ok () => .ok content
  | .error cause => .error (.invalid cause)

end PlacementTree
