/-
The report on how often each kind of node occurs.

A walk through the default table counts its dispatches by key.  The keys are the types,
under which each walked node is counted once, and the categories, which count the
roles that nodes are walked in.
-/
import TreeWalk.Walk.Drivers

namespace TreeWalk

/-- Counts by key, in order of keys. -/
abbrev Tally := List (String × Nat)

/-- All counts together. -/
def Tally.total (t : Tally) : Nat := t.foldr (fun e n => e.2 + n) 0

/-- How often each type and category was visited. -/
structure StatsReport where
  /-- The number of nodes visited under their own type. -/
  nodes : Nat
  types : Tally
  categories : Tally
deriving DecidableEq

namespace StatsReport

/-- The counts so far. -/
abbrev Counts := OrderedMap Nat

/-- Counts a dispatch under a key. -/
def count (key : String) : Visitor Counts Unit := fun _ _ counts =>
  counts.insert key ((counts.get? key).getD 0 + 1)

/-- Every key of the default table. -/
def keys : List String := NodeType.all.map NodeType.name ++ Category.all.map Category.name

/-- A counter for every key. -/
def visitors : OrderedMap (Visitor Counts Unit) :=
  OrderedMap.ofList (keys.map fun key => (key, count key))

/-- The report on counts. -/
def ofCounts (counts : Counts) : StatsReport :=
  let sorted := counts.entries.mergeSort fun a b => decide (a.1 ≤ b.1)
  let isCategory (e : String × Nat) : Bool := (Category.ofName? e.1).isSome
  let types : Tally := sorted.filter fun e => !isCategory e
  ⟨types.total, types, sorted.filter isCategory⟩

/-- The report on a tree. -/
def collect (tree : Node) : Option (Except WalkError StatsReport) :=
  (Walk.simple tree.walkFuel tree visitors none () OrderedMap.empty).map
    fun (r, counts) => r.map fun _ => ofCounts counts

/-- A count and what it counts, on a line of text. -/
def line (e : String × Nat) : String :=
  let digits := (Nat.repr e.2).toList
  String.ofList (List.replicate (8 - digits.length) ' ' ++ digits) ++ "  " ++ e.1

/-- The report as text: types by falling count, then categories by name. -/
def text (r : StatsReport) : String :=
  let byCount := r.types.mergeSort fun a b => decide (b.2 ≤ a.2)
  "\n".intercalate
    ((toString r.nodes ++ " nodes") :: byCount.map line ++
      "categories:" :: r.categories.map line)

/-- The report as JSON. -/
def json (r : StatsReport) : Json :=
  let tally (t : Tally) : Json := .obj (t.map fun (key, n) => (key, .num (.int n)))
  .obj [("nodes", .num (.int r.nodes)), ("types", tally r.types),
    ("categories", tally r.categories)]

end StatsReport

end TreeWalk
