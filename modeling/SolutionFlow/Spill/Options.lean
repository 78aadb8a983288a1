import SolutionFlow.Error.Query

/-!
When a store moves entries to disk, and whether it can.
-/

namespace SolutionFlow

/-- How many entries a store keeps in memory, and whether files can be made where it puts them. -/
structure SpillOptions where
  threshold : Nat
  canWrite : Bool

namespace SpillOptions

def standard : SpillOptions := ⟨10000, true⟩

/-- The refusal of a store that cannot make a file. -/
def unwritable : SpillError := .io "the directory for temporary files does not exist"

end SpillOptions

end SolutionFlow
