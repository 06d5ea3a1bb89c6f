/-
The report on a node that was found.
-/
import TreeWalk.Syntax.Node

namespace TreeWalk

/-- What is reported on a node. -/
structure FoundReport where
  type : NodeType
  start : Option Offset
  stop : Option Offset
  /-- The name, if the node is an identifier. -/
  name : Option String
deriving DecidableEq

namespace FoundReport

/-- The report on a node. -/
def ofNode (n : Node) : FoundReport := ⟨n.type, n.start, n.stop, n.name?⟩

/-- The report as text: the type, the name, and the offsets if both are recorded. -/
def text (r : FoundReport) : String :=
  r.type.name ++
    (match r.name with
      | some name => " `" ++ name ++ "`"
      | none => "") ++
    match r.start, r.stop with
    | some start, some stop => " at " ++ (Span.mk start stop).text
    | _, _ => ""

/-- The report as JSON: offsets that are not recorded are null, a name that is not there is left
out. -/
def json (r : FoundReport) : Json :=
  let offset (o : Option Offset) : Json :=
    match o with
    | some o => .num (.int o.toNat)
    | none => .null
  .obj ([("type", .str r.type.name), ("start", offset r.start), ("end", offset r.stop)] ++
    r.name.toList.map fun name => ("name", .str name))

end FoundReport

end TreeWalk
