/-
Why a walk stops early.
-/
import TreeWalk.Syntax.NodeType

namespace TreeWalk

/-- A failure that ends a walk. -/
inductive WalkError where
  /-- The table has no entry for the key. -/
  | unknownType (key : String)
  /-- A handler was given a node of a shape that it cannot walk. -/
  | malformedNode (expected : String) (found : NodeType)
deriving DecidableEq

namespace WalkError

/-- What is said about a failure. -/
def message : WalkError → String
  | unknownType key => s!"no handler registered for `{key}`"
  | malformedNode expected found =>
    s!"malformed node: expected {expected}, found `{found.name}`"

end WalkError

/-- What a walk of one node comes to: done, or failed. -/
abbrev Outcome := Except WalkError Unit

end TreeWalk
