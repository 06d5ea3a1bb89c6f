/-
Equality of nodes.

Nodes are compared as a whole, offsets included.  Numbers in literals compare as
numbers of their kind, so this equality is coarser than identity in one place only:
`0.0` equals `-0.0`.  A fold compares a tree with another: each subtree becomes a test
of what stands in its place, and a node passes when its offsets agree and every child
passes the test in the same position.
-/
import TreeWalk.Syntax.Node

namespace TreeWalk

namespace Node

/-- Compares a shape whose children are tests with a shape of nodes. -/
def agrees : Shape (Node → Bool) → Shape Node → Bool
  | .program a, .program b => all₂ a b
  | .emptyStatement, .emptyStatement => true
  | .blockStatement a, .blockStatement b => all₂ a b
  | .expressionStatement a, .expressionStatement b => a b
  | .ifStatement a₁ a₂ a₃, .ifStatement b₁ b₂ b₃ => a₁ b₁ && a₂ b₂ && both a₃ b₃
  | .labeledStatement a₁ a₂, .labeledStatement b₁ b₂ => a₁ b₁ && a₂ b₂
  | .jump f a, .jump g b => f = g && both a b
  | .withStatement a₁ a₂, .withStatement b₁ b₂ => a₁ b₁ && a₂ b₂
  | .switchStatement a₁ a₂, .switchStatement b₁ b₂ =>
    a₁ b₁ && a₂.length = b₂.length &&
      (a₂.zip b₂).all fun (a, b) => both a.test b.test && all₂ a.consequent b.consequent
  | .returnStatement a, .returnStatement b => both a b
  | .throwStatement a, .throwStatement b => a b
  | .tryStatement a₁ a₂ a₃ a₄, .tryStatement b₁ b₂ b₃ b₄ =>
    a₁ b₁ && clauses a₂.toList b₂.toList && clauses a₃ b₃ && both a₄ b₄
  | .loop f a₁ a₂, .loop g b₁ b₂ => f = g && a₁ b₁ && a₂ b₂
  | .forStatement a₁ a₂ a₃ a₄, .forStatement b₁ b₂ b₃ b₄ =>
    both a₁ b₁ && both a₂ b₂ && both a₃ b₃ && a₄ b₄
  | .forInStatement a₁ a₂ a₃, .forInStatement b₁ b₂ b₃ => a₁ b₁ && a₂ b₂ && a₃ b₃
  | .debuggerStatement, .debuggerStatement => true
  | .function f a₁ a₂ a₃, .function g b₁ b₂ b₃ =>
    f = g && both a₁ b₁ && all₂ a₂ b₂ && a₃ b₃
  | .variableDeclaration a k, .variableDeclaration b l =>
    k = l && a.length = b.length && (a.zip b).all fun (a, b) => a.id b.id && both a.init b.init
  | .thisExpression, .thisExpression => true
  | .arrayExpression a, .arrayExpression b =>
    a.length = b.length && (a.zip b).all fun (a, b) => both a b
  | .objectExpression a, .objectExpression b =>
    a.length = b.length &&
      (a.zip b).all fun (a, b) => a.kind = b.kind && a.key b.key && a.value b.value
  | .sequenceExpression a, .sequenceExpression b => all₂ a b
  | .unary f o p a, .unary g q r b => f = g && o = q && p = r && a b
  | .binary f o a₁ a₂, .binary g q b₁ b₂ => f = g && o = q && a₁ b₁ && a₂ b₂
  | .conditionalExpression a₁ a₂ a₃, .conditionalExpression b₁ b₂ b₃ => a₁ b₁ && a₂ b₂ && a₃ b₃
  | .call f a₁ a₂, .call g b₁ b₂ => f = g && a₁ b₁ && all₂ a₂ b₂
  | .memberExpression a₁ a₂ c, .memberExpression b₁ b₂ d => c = d && a₁ b₁ && a₂ b₂
  | .identifier a, .identifier b => a = b
  | .literal v r, .literal w s => v.same w && r = s
  | _, _ => false
where
  /-- Test by test along a list of equal length. -/
  all₂ (a : List (Node → Bool)) (b : List Node) : Bool :=
    a.length = b.length && (a.zip b).all fun (f, n) => f n
  /-- Both absent, or the test passes. -/
  both : Option (Node → Bool) → Option Node → Bool
    | none, none => true
    | some f, some n => f n
    | _, _ => false
  /-- Clause by clause along a list of equal length. -/
  clauses (a : List (CatchClause (Node → Bool))) (b : List (CatchClause Node)) : Bool :=
    a.length = b.length && (a.zip b).all fun (a, b) => a.param b.param && a.body b.body

/-- Whether two nodes are equal, offsets included. -/
def same (a b : Node) : Bool :=
  a.fold (fun n s other => n.start = other.start && n.stop = other.stop && agrees s other.shape) b

instance : BEq Node := ⟨same⟩

end Node

end TreeWalk
