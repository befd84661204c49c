/-!
# Settings

What a user can set.  Every setting has a default.
-/

namespace FormulaNet

structure Settings where
  /-- How deep a walk over dependents goes before it is taken for a cycle. -/
  depthLimit : UInt64
  /-- How many ticks a message stays visible. -/
  messageTicks : UInt32
  /-- The name of a node that is created without one. -/
  defaultName : String
  deriving DecidableEq, Repr

def Settings.default : Settings where
  depthLimit := 100
  messageTicks := 300
  defaultName := "name"

instance : Inhabited Settings :=
  ⟨.default⟩

end FormulaNet
