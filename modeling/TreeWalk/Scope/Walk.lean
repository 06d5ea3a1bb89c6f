/-
Walks that keep track of scopes.

The state of such a walk is the current scope.  Three entries of the default table are
replaced: a function opens a scope for its body, a catch clause opens one for its own,
and a variable declaration binds its names in the current scope.  Blocks open no
scope.  The children that are walked, and their order, are those of the default table.
-/
import TreeWalk.Scope.Store
import TreeWalk.Walk.Drivers

namespace TreeWalk

namespace ScopeWalk

open Script

variable {α : Type}

/-- Opens a scope inside another. -/
def openScope (parent : ScopeId) (kind : ScopeKind) : Script (ScopeStore × α) ScopeId ScopeId :=
  modifyGet fun (s, a) =>
    match s.openChild parent kind with
    | (id, s) => (id, (s, a))

/-- Binds the name of an identifier in a scope; `role` says what it is expected to be. -/
def bindName (scope : ScopeId) (n : Node) (kind : BindingKind) (role : String) :
    Script (ScopeStore × α) ScopeId Unit :=
  match n.name? with
  | some name => modify fun (s, a) => (s.declare scope name ⟨kind, n⟩, a)
  | none => malformed role n

/-- Opens a scope, binds the parameters there in order and then the function's name: that of a
declaration around the function, that of an expression inside.  The body is walked inside. -/
def function : Procedure (ScopeStore × α) ScopeId := fun c scope =>
  match c.node.shape with
  | .function form id params body => do
    let inner ← openScope scope .function
    params.forM fun p => bindName inner p .argument "parameter identifier"
    match id, form with
    | some id, .declaration => bindName scope id .function "function name"
    | some id, .expression => bindName inner id .functionName "function name"
    | none, _ => pure ()
    go (c.down [.field .body] body) inner (some .scopeBody)
  | _ => malformed "function" c.node

/-- Walks the block, then each catch clause with its parameter bound in a scope of its own, then
the finalizer. -/
def tryStatement : Procedure (ScopeStore × α) ScopeId := fun c scope =>
  match c.node.shape with
  | .tryStatement block handler handlers finalizer => do
    go (c.down [.field .block] block) scope (some .statement)
    (Shape.clauses handler handlers).zipIdx.forM fun (clause, i) => do
      let inner ← openScope scope .catchClause
      bindName inner clause.param .catchParameter "catch parameter"
      go (c.down (.field .body :: Default.clauseSteps handlers i) clause.body) inner
        (some .scopeBody)
    goIfSome (finalizer.map (c.down [.field .finalizer])) scope (some .statement)
  | _ => malformed "try statement" c.node

/-- Binds the name of each declarator before its initial value is walked. -/
def variableDeclaration : Procedure (ScopeStore × α) ScopeId := fun c scope =>
  match c.node.shape with
  | .variableDeclaration declarations _ =>
    declarations.zipIdx.forM fun (d, i) => do
      bindName scope d.id .variable "declarator identifier"
      goIfSome (d.init.map (c.down [.field .init, .item i, .field .declarations])) scope
        (some .expression)
  | _ => malformed "variable declaration" c.node

/-- What replaces entries of the default table. -/
def procedures : List (String × Procedure (ScopeStore × α) ScopeId) := [
  ("Function", function),
  ("TryStatement", tryStatement),
  ("VariableDeclaration", variableDeclaration)]

/-- The table of scope walks, its handlers identified by the numbers from `first` on. -/
def table (first : Nat) : Table (ScopeStore × α) ScopeId :=
  let base := Default.table first
  Table.layer (Table.ofProcedures (first + base.size) procedures) base

/-- Walks a tree from a scope. -/
def run (tree : Node) (root : ScopeId) (s : ScopeStore) : Option (Outcome × ScopeStore) :=
  (Walk.recursive tree.walkFuel tree root .empty (some (table 0)) (s, ())).map
    fun (r, s, _) => (r, s)

end ScopeWalk

/-- The number of the outermost scope of a scope tree. -/
def globalScope : ScopeId := ScopeStore.empty.openGlobal.1

/-- The scopes of a tree, inside a new outermost scope that is held. -/
def scopeTree (tree : Node) : Option (Except WalkError ScopeStore) :=
  (ScopeWalk.run tree globalScope (ScopeStore.empty.openGlobal.2.hold globalScope)).map
    fun (r, s) => r.map fun _ => s

end TreeWalk
