/-
Nodes of syntax trees.

A node is a shape over nodes, with the offsets of its source text where the producer
of the tree recorded them.  `Node.fold` is recursion over a tree, once and for all: it
combines the results of the children, standing in the node's own shape, with the node
itself.
-/
import TreeWalk.Syntax.Shape
import TreeWalk.Syntax.Span

namespace TreeWalk

/-- A node of a syntax tree. -/
structure Node where
  shape : Shape Node
  start : Option Offset
  stop : Option Offset

namespace Node

/-! ### Recursion -/

section Fold

variable {α : Type} (f : Node → Shape α → α)

mutual
/-- Computes a result for a tree from the results for its subtrees. -/
def fold : Node → α
  | n@⟨shape, _, _⟩ => f n (foldShape shape)
/-- The shape with every child replaced by its result. -/
def foldShape : Shape Node → Shape α
  | .program body => .program (foldList body)
  | .emptyStatement => .emptyStatement
  | .blockStatement body => .blockStatement (foldList body)
  | .expressionStatement expression => .expressionStatement (fold expression)
  | .ifStatement test consequent alternate =>
    .ifStatement (fold test) (fold consequent) (foldOption alternate)
  | .labeledStatement label body => .labeledStatement (fold label) (fold body)
  | .jump form label => .jump form (foldOption label)
  | .withStatement object body => .withStatement (fold object) (fold body)
  | .switchStatement discriminant cases =>
    .switchStatement (fold discriminant) (foldCases cases)
  | .returnStatement argument => .returnStatement (foldOption argument)
  | .throwStatement argument => .throwStatement (fold argument)
  | .tryStatement block handler handlers finalizer =>
    .tryStatement (fold block) (foldHandler handler) (foldClauses handlers)
      (foldOption finalizer)
  | .loop form test body => .loop form (fold test) (fold body)
  | .forStatement init test update body =>
    .forStatement (foldOption init) (foldOption test) (foldOption update) (fold body)
  | .forInStatement left right body => .forInStatement (fold left) (fold right) (fold body)
  | .debuggerStatement => .debuggerStatement
  | .function form id params body =>
    .function form (foldOption id) (foldList params) (fold body)
  | .variableDeclaration declarations kind =>
    .variableDeclaration (foldDeclarators declarations) kind
  | .thisExpression => .thisExpression
  | .arrayExpression elements => .arrayExpression (foldElements elements)
  | .objectExpression properties => .objectExpression (foldProperties properties)
  | .sequenceExpression expressions => .sequenceExpression (foldList expressions)
  | .unary form operator prefixed argument => .unary form operator prefixed (fold argument)
  | .binary form operator left right => .binary form operator (fold left) (fold right)
  | .conditionalExpression test consequent alternate =>
    .conditionalExpression (fold test) (fold consequent) (fold alternate)
  | .call form callee arguments => .call form (fold callee) (foldList arguments)
  | .memberExpression object property computed =>
    .memberExpression (fold object) (fold property) computed
  | .identifier name => .identifier name
  | .literal value raw => .literal value raw
/-- Folds the nodes of a list. -/
def foldList : List Node → List α
  | [] => []
  | n :: rest => fold n :: foldList rest
/-- Folds a node that may be absent. -/
def foldOption : Option Node → Option α
  | none => none
  | some n => some (fold n)
/-- Folds the elements of an array literal, holes included. -/
def foldElements : List (Option Node) → List (Option α)
  | [] => []
  | n :: rest => foldOption n :: foldElements rest
/-- Folds the clauses of a `switch`. -/
def foldCases : List (SwitchCase Node) → List (SwitchCase α)
  | [] => []
  | ⟨test, consequent⟩ :: rest => ⟨foldOption test, foldList consequent⟩ :: foldCases rest
/-- Folds the catch clauses of a `try`. -/
def foldClauses : List (CatchClause Node) → List (CatchClause α)
  | [] => []
  | ⟨param, body⟩ :: rest => ⟨fold param, fold body⟩ :: foldClauses rest
/-- Folds the single catch clause of a `try`. -/
def foldHandler : Option (CatchClause Node) → Option (CatchClause α)
  | none => none
  | some ⟨param, body⟩ => some ⟨fold param, fold body⟩
/-- Folds the declarators of a variable declaration. -/
def foldDeclarators : List (Declarator Node) → List (Declarator α)
  | [] => []
  | ⟨id, init⟩ :: rest => ⟨fold id, foldOption init⟩ :: foldDeclarators rest
/-- Folds the properties of an object literal. -/
def foldProperties : List (Property Node) → List (Property α)
  | [] => []
  | ⟨key, value, kind⟩ :: rest => ⟨fold key, fold value, kind⟩ :: foldProperties rest
end

/-! ### What a fold does to a layer

Folding the parts of a shape is replacing each child, so a fold is computed layer by
layer.
-/

theorem foldList_eq (ns : List Node) : foldList f ns = ns.map (fold f) := by
  induction ns with
  | nil => rfl
  | cons n rest ih => simp [foldList, ih]

theorem foldOption_eq (n : Option Node) : foldOption f n = n.map (fold f) := by
  cases n <;> rfl

theorem foldElements_eq (ns : List (Option Node)) :
    foldElements f ns = ns.map (Option.map (fold f)) := by
  induction ns with
  | nil => rfl
  | cons n rest ih => simp [foldElements, ih, foldOption_eq]

theorem foldCases_eq (cs : List (SwitchCase Node)) :
    foldCases f cs = cs.map fun c => ⟨c.test.map (fold f), c.consequent.map (fold f)⟩ := by
  induction cs with
  | nil => rfl
  | cons c rest ih => cases c; simp [foldCases, ih, foldOption_eq, foldList_eq]

theorem foldClauses_eq (cs : List (CatchClause Node)) :
    foldClauses f cs = cs.map fun c => ⟨fold f c.param, fold f c.body⟩ := by
  induction cs with
  | nil => rfl
  | cons c rest ih => cases c; simp [foldClauses, ih]

theorem foldHandler_eq (c : Option (CatchClause Node)) :
    foldHandler f c = c.map fun c => ⟨fold f c.param, fold f c.body⟩ := by
  cases c <;> rfl

theorem foldDeclarators_eq (ds : List (Declarator Node)) :
    foldDeclarators f ds = ds.map fun d => ⟨fold f d.id, d.init.map (fold f)⟩ := by
  induction ds with
  | nil => rfl
  | cons d rest ih => cases d; simp [foldDeclarators, ih, foldOption_eq]

theorem foldProperties_eq (ps : List (Property Node)) :
    foldProperties f ps = ps.map fun p => ⟨fold f p.key, fold f p.value, p.kind⟩ := by
  induction ps with
  | nil => rfl
  | cons p rest ih => cases p; simp [foldProperties, ih]

theorem foldShape_eq (s : Shape Node) : foldShape f s = s.map (fold f) := by
  cases s <;> simp [foldShape, Shape.map, foldList_eq, foldOption_eq, foldElements_eq,
    foldCases_eq, foldClauses_eq, foldHandler_eq, foldDeclarators_eq, foldProperties_eq]

/-- **A fold combines a node with the results for its children.** -/
theorem fold_eq (n : Node) : fold f n = f n (n.shape.map (fold f)) := by
  cases n; rw [fold, foldShape_eq]

end Fold

/-! ### Measures -/

/-- The number of nodes on the longest way from the node down to a leaf. -/
def height (n : Node) : Nat := n.fold fun _ s => 1 + s.children.foldr max 0

/-! ### What a node is -/

/-- The type of a node. -/
def type (n : Node) : NodeType := n.shape.type

/-- The spelling of a node's type. -/
def typeName (n : Node) : String := n.type.name

/-- A node of a shape, without offsets. -/
def ofShape (shape : Shape Node) : Node := ⟨shape, none, none⟩

/-- The node with both offsets set, in whatever order they are. -/
def withOffsets (n : Node) (start stop : Offset) : Node :=
  { n with start := some start, stop := some stop }

/-- The source range of a node, where both offsets are recorded and in order. -/
def span? (n : Node) : Option Span :=
  match n.start, n.stop with
  | some start, some stop => if start ≤ stop then some ⟨start, stop⟩ else none
  | _, _ => none

/-- The name of an identifier. -/
def name? (n : Node) : Option String :=
  match n.shape with
  | .identifier name => some name
  | _ => none

/-- Whether the node declares variables. -/
def isVariableDeclaration (n : Node) : Bool :=
  match n.shape with
  | .variableDeclaration .. => true
  | _ => false

end Node

end TreeWalk
