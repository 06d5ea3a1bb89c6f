/-
The kinds of walk.

Each takes the fuel for nested walks, the tree, the table to walk it through (the
default table where none is given), the state and the world, and gives what came of
it, or `none` where the fuel did not suffice.  Through the default table a tree never
needs more than `Node.walkFuel`: a node is dispatched at most four times in a row
before one of its children is.
-/
import TreeWalk.Walk.Default

namespace TreeWalk

/-- Fuel that suffices to walk a tree through the default table, or through one that walks the
same children. -/
def Node.walkFuel (tree : Node) : Nat := 4 * tree.height

namespace Walk

variable {ω σ : Type}

/-- The table to walk through: the given one, else the default table. -/
def baseTable (base : Option (Table ω σ)) : Table ω σ := base.getD (Default.table 0)

/-- Tells a visitor of each dispatch under its key, on the way down. -/
def simple (fuel : Nat) (tree : Node) (visitors : OrderedMap (Visitor ω σ))
    (base : Option (Table ω σ)) (st : σ) (world : ω) : Option (Outcome × ω) :=
  (Walker.run ⟨baseTable base, .before visitors⟩ fuel tree st world).map fun (r, w, _) => (r, w)

/-- Walks through a base with some handlers overridden. -/
def recursive (fuel : Nat) (tree : Node) (st : σ) (overrides : Table ω σ)
    (base : Option (Table ω σ)) (world : ω) : Option (Outcome × ω) :=
  (Walker.run ⟨Table.layer overrides (baseTable base), .silent⟩ fuel tree st world).map
    fun (r, w, _) => (r, w)

/-- Tells a visitor of each dispatch under its key after what was dispatched inside it, with the
path to the node. -/
def ancestor (fuel : Nat) (tree : Node) (visitors : OrderedMap (PathVisitor ω σ))
    (base : Option (Table ω σ)) (st : σ) (world : ω) : Option (Outcome × ω) :=
  (Walker.run ⟨baseTable base, .after visitors⟩ fuel tree st world).map fun (r, w, _) => (r, w)

/-- Searches for the first node that a test accepts, children before their parents. -/
def find (fuel : Nat) (tree : Node) (target : Target) (test : Test ω)
    (base : Option (Table ω σ)) (st : σ) (world : ω) :
    Option (Except WalkError (Option Cursor) × ω) :=
  (Walker.run ⟨baseTable base, .search test target⟩ fuel tree st world).map
    fun (r, w, found) => (r.map fun _ => found, w)

/-- Searches for a node with the given offsets, where given. -/
def findAt (fuel : Nat) (tree : Node) (start stop : Option Offset) (test : Test ω)
    (base : Option (Table ω σ)) (st : σ) (world : ω) :
    Option (Except WalkError (Option Cursor) × ω) :=
  find fuel tree (.offsets start stop) test base st world

/-- Searches for the innermost node that contains or touches a position. -/
def findAround (fuel : Nat) (tree : Node) (pos : Offset) (test : Test ω)
    (base : Option (Table ω σ)) (st : σ) (world : ω) :
    Option (Except WalkError (Option Cursor) × ω) :=
  find fuel tree (.position pos) test base st world

end Walk

namespace Test

/-- Accepts every node. -/
def any {ω : Type} : Test ω := fun _ _ w => (true, w)

/-- Accepts nodes dispatched under a key. -/
def ofType {ω : Type} (key : String) : Test ω := fun candidate _ w => (candidate == key, w)

end Test

end TreeWalk
