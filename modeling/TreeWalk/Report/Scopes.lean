/-
The report on scopes.

A report lists a scope with its bindings in order and reports on the scopes inside it.
As text it takes a line for each scope and each binding, indented by depth; as JSON it
is an object, in which offsets that are not recorded are left out.
-/
import TreeWalk.Json.Value
import TreeWalk.Scope.Store
import TreeWalk.Text.Blank

namespace TreeWalk

/-- What is reported on a binding. -/
structure BindingReport where
  name : String
  kind : BindingKind
  start : Option Offset
  stop : Option Offset
deriving DecidableEq

/-- What is reported on a scope and on the scopes inside it. -/
structure ScopeReport where
  kind : ScopeKind
  depth : Nat
  bindings : List BindingReport
  children : List ScopeReport

namespace BindingReport

/-- The report on a name and what it stands for. -/
def ofBinding (name : String) (b : Binding) : BindingReport :=
  ⟨name, b.kind, b.node.start, b.node.stop⟩

/-- Where the binding stands, if both its offsets are recorded. -/
def place (b : BindingReport) : String :=
  match b.start, b.stop with
  | some start, some stop => " at " ++ (Span.mk start stop).text
  | _, _ => ""

/-- The binding as a line of text, without its indentation. -/
def line (b : BindingReport) : String := b.name ++ " (" ++ b.kind.name ++ ")" ++ b.place

/-- The binding as JSON. -/
def json (b : BindingReport) : Json :=
  let offset (name : String) (o : Option Offset) : List (String × Json) :=
    o.toList.map fun o => (name, .num (.int o.toNat))
  .obj ([("name", .str b.name), ("kind", .str b.kind.name)] ++
    offset "start" b.start ++ offset "end" b.stop)

end BindingReport

namespace ScopeReport

/-- The report on a scope and those inside it, `levels` deep. -/
def ofScopeUpTo (s : ScopeStore) : Nat → ScopeId → ScopeReport
  | 0, id => ⟨(s.scope id).kind, s.depth id, [], []⟩
  | levels + 1, id =>
    ⟨(s.scope id).kind, s.depth id,
      (s.bindings id).map fun (name, b) => .ofBinding name b,
      (s.children id).map (ofScopeUpTo s levels)⟩

/-- The report on a scope.  A scope is opened after the one around it, so scopes nest no deeper
than there are scopes. -/
def ofScope (s : ScopeStore) (id : ScopeId) : ScopeReport := ofScopeUpTo s s.scopes.size id

/-- The blanks before a line at some depth. -/
def indentation (depth : Nat) : String := String.ofList (List.replicate (2 * depth) ' ')

/-- The line of a scope. -/
def heading (depth : Nat) (kind : ScopeKind) : String := indentation depth ++ kind.name ++ " scope"

/-- The line of a binding in a scope at some depth. -/
def entry (depth : Nat) (b : BindingReport) : String := indentation (depth + 1) ++ b.line

mutual
/-- The lines of a report. -/
def lines : ScopeReport → List String
  | ⟨kind, depth, bindings, children⟩ =>
    heading depth kind :: (bindings.map (entry depth) ++ linesOfAll children)
/-- The lines of reports one after another. -/
def linesOfAll : List ScopeReport → List String
  | [] => []
  | r :: rest => r.lines ++ linesOfAll rest
end

/-- The lines of a report, each with a line feed after it. -/
def rendered (r : ScopeReport) : String := String.join (r.lines.map (· ++ "\n"))

/-- The report as text, without white space at its end. -/
def text (r : ScopeReport) : String := Text.trimmedEnd r.rendered

mutual
/-- The report as JSON. -/
def json : ScopeReport → Json
  | ⟨kind, depth, bindings, children⟩ =>
    .obj [("kind", .str kind.name), ("depth", .num (.int depth)),
      ("bindings", .arr (bindings.map BindingReport.json)), ("children", .arr (jsonOfAll children))]
/-- Reports as JSON one after another. -/
def jsonOfAll : List ScopeReport → List Json
  | [] => []
  | r :: rest => r.json :: jsonOfAll rest
end

end ScopeReport

end TreeWalk
