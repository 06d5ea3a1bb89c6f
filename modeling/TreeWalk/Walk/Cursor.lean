/-
Places in a tree.

A cursor is a node together with the trail that leads to it from the root.  Two equal
nodes in different places have different trails, so the trail is what tells one
occurrence of a node from another.
-/
import TreeWalk.Syntax.Field
import TreeWalk.Syntax.Node

namespace TreeWalk

/-- A node and the way to it from the root. -/
structure Cursor where
  node : Node
  trail : Trail

namespace Cursor

/-- The root of a tree. -/
def root (n : Node) : Cursor := ⟨n, []⟩

/-- Whether two cursors stand at the same place.  Trails that share their memory are not read. -/
def samePlace (a b : Cursor) : Bool :=
  withPtrEq a.trail b.trail (fun _ => a.trail == b.trail) beq_iff_eq.2

@[simp] theorem samePlace_iff (a b : Cursor) : a.samePlace b = true ↔ a.trail = b.trail :=
  beq_iff_eq

/-- The node that the given steps, the last one first, lead to from here. -/
def down (c : Cursor) (steps : Trail) (n : Node) : Cursor := ⟨n, steps ++ c.trail⟩

/-- The nodes of the list that the given steps lead to from here. -/
def downAll (c : Cursor) (steps : Trail) (ns : List Node) : List Cursor :=
  ns.mapIdx fun i n => c.down (.item i :: steps) n

end Cursor

end TreeWalk
