/-
Scopes and what keeps them alive.

A scope knows the scopes it was opened inside and the scopes that were opened in it.
A scope is alive while something holds on to it or to a scope around it: whoever holds
a scope can reach all that is inside.  Nothing can be reached the other way once the
scope there has died, so a scope whose surroundings died is outermost from then on.

The store never forgets a scope.  Scopes have numbers in the order of their opening,
and whether one is alive is a matter of who is held at the moment.
-/
import TreeWalk.OrderedMap
import TreeWalk.Syntax.Node

namespace TreeWalk

/-- What opened a scope. -/
inductive ScopeKind where
  | global
  | function
  | catchClause
deriving DecidableEq, Inhabited

/-- The spelling of a kind of scope. -/
def ScopeKind.name : ScopeKind → String
  | global => "global"
  | function => "function"
  | catchClause => "catch"

/-- How a name came into a scope. -/
inductive BindingKind where
  | argument
  | function
  | functionName
  | catchParameter
  | variable
deriving DecidableEq, Inhabited

/-- The spelling of a kind of binding. -/
def BindingKind.name : BindingKind → String
  | .argument => "argument"
  | .function => "function"
  | .functionName => "function-name"
  | .catchParameter => "catch-parameter"
  | .variable => "variable"

/-- What a name stands for in a scope: the identifier that brought it there, and how. -/
structure Binding where
  kind : BindingKind
  node : Node

namespace Binding

/-- The name of the identifier; nothing for another node. -/
def name (b : Binding) : String := b.node.name?.getD ""

theorem name_of_name? {kind : BindingKind} {n : Node} {name : String} (h : n.name? = some name) :
    (mk kind n).name = name :=
  congrArg (·.getD "") h

/-- Where the identifier stands in the source. -/
def span? (b : Binding) : Option Span := b.node.span?

end Binding

/-- The number of a scope in its store. -/
abbrev ScopeId := Nat

/-- A scope. -/
structure Scope where
  kind : ScopeKind
  bindings : OrderedMap Binding
  /-- The scopes it was opened inside, the innermost first. -/
  enclosing : List ScopeId
  /-- The scopes opened directly in it, in order. -/
  children : List ScopeId

instance : Inhabited Scope := ⟨⟨.global, .empty, [], []⟩⟩

/-- All scopes ever opened, and which of them are held; one that is held twice is there twice. -/
structure ScopeStore where
  scopes : Array Scope
  held : List ScopeId

namespace ScopeStore

/-! ### Changing the store -/

/-- The store without scopes. -/
def empty : ScopeStore := ⟨#[], []⟩

instance : Inhabited ScopeStore := ⟨empty⟩

/-- The scope of a number. -/
def scope (s : ScopeStore) (id : ScopeId) : Scope := s.scopes[id]?.getD default

/-- Opens an outermost scope. -/
def openGlobal (s : ScopeStore) : ScopeId × ScopeStore :=
  (s.scopes.size, { s with scopes := s.scopes.push ⟨.global, .empty, [], []⟩ })

/-- Opens a scope inside another. -/
def openChild (s : ScopeStore) (parent : ScopeId) (kind : ScopeKind) : ScopeId × ScopeStore :=
  let id := s.scopes.size
  let scopes := s.scopes.modify parent fun p => { p with children := p.children ++ [id] }
  (id, { s with
    scopes := scopes.push ⟨kind, .empty, parent :: (s.scope parent).enclosing, []⟩ })

/-- Binds a name in a scope; a name that is bound already is bound anew and keeps its place. -/
def declare (s : ScopeStore) (id : ScopeId) (name : String) (b : Binding) : ScopeStore :=
  { s with
    scopes := s.scopes.modify id fun c => { c with bindings := c.bindings.insert name b } }

/-- Holds on to a scope. -/
def hold (s : ScopeStore) (id : ScopeId) : ScopeStore := { s with held := id :: s.held }

/-- Lets go of a scope once. -/
def release (s : ScopeStore) (id : ScopeId) : ScopeStore := { s with held := s.held.erase id }

/-! ### Reading the store -/

/-- Whether a scope is alive. -/
def alive (s : ScopeStore) (id : ScopeId) : Bool :=
  (id :: (s.scope id).enclosing).any fun e => s.held.contains e

/-- What lives of a chain of scopes, each opened inside the next: all up to the last one held. -/
def living (s : ScopeStore) : List ScopeId → List ScopeId
  | [] => []
  | id :: around =>
    match s.living around with
    | [] => if s.held.contains id then [id] else []
    | l => id :: l

/-- The living scopes around a scope, the innermost first. -/
def ancestors (s : ScopeStore) (id : ScopeId) : List ScopeId := s.living (s.scope id).enclosing

/-- The scope around a scope, while it is alive. -/
def parent? (s : ScopeStore) (id : ScopeId) : Option ScopeId := (s.ancestors id).head?

/-- How many living scopes there are around a scope. -/
def depth (s : ScopeStore) (id : ScopeId) : Nat := (s.ancestors id).length

/-- The scopes opened in a scope, in order. -/
def children (s : ScopeStore) (id : ScopeId) : List ScopeId := (s.scope id).children

/-- The names bound in a scope, in the order in which they were first bound. -/
def names (s : ScopeStore) (id : ScopeId) : List String := (s.scope id).bindings.keys

/-- The bindings of a scope, in the order of their names. -/
def bindings (s : ScopeStore) (id : ScopeId) : List (String × Binding) :=
  (s.scope id).bindings.entries

/-- What a name stands for in a scope itself. -/
def get? (s : ScopeStore) (id : ScopeId) (name : String) : Option Binding :=
  (s.scope id).bindings.get? name

/-- What a name stands for in a scope or in the nearest one around it that binds the name. -/
def lookup? (s : ScopeStore) (id : ScopeId) (name : String) : Option Binding :=
  (id :: s.ancestors id).findSome? fun e => s.get? e name

end ScopeStore

end TreeWalk
