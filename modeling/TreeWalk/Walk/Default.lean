/-
The standard way to walk every node.

The default table has an entry for every type and every category.  A type's entry
walks the children of its shape that are code, in source order and each through the
category of its role; names are not walked: labels, parameters, the names of functions
and declared variables, property keys, and the property of a dotted member access.
The entries of categories send a node on, to its own type in the end.
-/
import TreeWalk.Walk.Walker

namespace TreeWalk

namespace Default

open Script

variable {ω σ : Type}

/-! ### Categories -/

/-- Walks the node under its own type. -/
def ownType : Procedure ω σ := fun c st => go c st none

/-- Does nothing. -/
def leaf : Procedure ω σ := fun _ _ => pure ()

/-- A declaration keeps its own type; anything else is an expression. -/
def forInit : Procedure ω σ := fun c st =>
  if c.node.isVariableDeclaration then go c st none else go c st (some .expression)

/-- A function's body, and nothing else of it, is walked. -/
def function : Procedure ω σ := fun c st =>
  match c.node.shape with
  | .function _ _ _ body => go (c.down [.field .body] body) st (some .scopeBody)
  | _ => malformed "function" c.node

/-- A body is a statement. -/
def scopeBody : Procedure ω σ := fun c st => go c st (some .statement)

/-! ### Statements -/

/-- The statements of a program or block. -/
def statementList : Procedure ω σ := fun c st =>
  match c.node.shape with
  | .program body | .blockStatement body =>
    goAll (c.downAll [.field .body] body) st (some .statement)
  | _ => malformed "program or block" c.node

/-- The expression of an expression statement. -/
def expressionStatement : Procedure ω σ := fun c st =>
  match c.node.shape with
  | .expressionStatement expression =>
    go (c.down [.field .expression] expression) st (some .expression)
  | _ => malformed "expression statement" c.node

/-- The test and both branches of an `if`. -/
def ifStatement : Procedure ω σ := fun c st =>
  match c.node.shape with
  | .ifStatement test consequent alternate => do
    go (c.down [.field .test] test) st (some .expression)
    go (c.down [.field .consequent] consequent) st (some .statement)
    goIfSome (alternate.map (c.down [.field .alternate])) st (some .statement)
  | _ => malformed "if statement" c.node

/-- The statement under a label. -/
def labeledStatement : Procedure ω σ := fun c st =>
  match c.node.shape with
  | .labeledStatement _ body => go (c.down [.field .body] body) st (some .statement)
  | _ => malformed "labeled statement" c.node

/-- The object and the body of a `with`. -/
def withStatement : Procedure ω σ := fun c st =>
  match c.node.shape with
  | .withStatement object body => do
    go (c.down [.field .object] object) st (some .expression)
    go (c.down [.field .body] body) st (some .statement)
  | _ => malformed "with statement" c.node

/-- The value switched on, then each clause: its test, if any, and its statements. -/
def switchStatement : Procedure ω σ := fun c st =>
  match c.node.shape with
  | .switchStatement discriminant cases => do
    go (c.down [.field .discriminant] discriminant) st (some .expression)
    cases.zipIdx.forM fun (clause, i) => do
      goIfSome (clause.test.map (c.down [.field .test, .item i, .field .cases])) st
        (some .expression)
      goAll (c.downAll [.field .consequent, .item i, .field .cases] clause.consequent) st
        (some .statement)
  | _ => malformed "switch statement" c.node

/-- The value of a `return`, if any. -/
def returnStatement : Procedure ω σ := fun c st =>
  match c.node.shape with
  | .returnStatement argument =>
    goIfSome (argument.map (c.down [.field .argument])) st (some .expression)
  | _ => malformed "return statement" c.node

/-- The value of a `throw`. -/
def throwStatement : Procedure ω σ := fun c st =>
  match c.node.shape with
  | .throwStatement argument => go (c.down [.field .argument] argument) st (some .expression)
  | _ => malformed "throw statement" c.node

/-- The steps that lead to each catch clause of a `try`, the last one first. -/
def clauseSteps (handlers : List (CatchClause Node)) (i : Nat) : Trail :=
  if handlers.isEmpty then [.field .handler] else [.item i, .field .handlers]

/-- The block, the body of each catch clause, and the finalizer, if any. -/
def tryStatement : Procedure ω σ := fun c st =>
  match c.node.shape with
  | .tryStatement block handler handlers finalizer => do
    go (c.down [.field .block] block) st (some .statement)
    (Shape.clauses handler handlers).zipIdx.forM fun (clause, i) =>
      go (c.down (.field .body :: clauseSteps handlers i) clause.body) st (some .scopeBody)
    goIfSome (finalizer.map (c.down [.field .finalizer])) st (some .statement)
  | _ => malformed "try statement" c.node

/-- The test, then the body, also where the body runs first. -/
def loop : Procedure ω σ := fun c st =>
  match c.node.shape with
  | .loop _ test body => do
    go (c.down [.field .test] test) st (some .expression)
    go (c.down [.field .body] body) st (some .statement)
  | _ => malformed "loop statement" c.node

/-- The parts of a `for` that are there, in order. -/
def forStatement : Procedure ω σ := fun c st =>
  match c.node.shape with
  | .forStatement init test update body => do
    goIfSome (init.map (c.down [.field .init])) st (some .forInit)
    goIfSome (test.map (c.down [.field .test])) st (some .expression)
    goIfSome (update.map (c.down [.field .update])) st (some .expression)
    go (c.down [.field .body] body) st (some .statement)
  | _ => malformed "for statement" c.node

/-- What is assigned, what is iterated over, and the body. -/
def forInStatement : Procedure ω σ := fun c st =>
  match c.node.shape with
  | .forInStatement left right body => do
    go (c.down [.field .left] left) st (some .forInit)
    go (c.down [.field .right] right) st (some .expression)
    go (c.down [.field .body] body) st (some .statement)
  | _ => malformed "for-in statement" c.node

/-! ### Declarations -/

/-- A function of either form goes through the category of functions. -/
def asFunction : Procedure ω σ := fun c st => go c st (some .function)

/-- The initial value of each declarator that has one. -/
def variableDeclaration : Procedure ω σ := fun c st =>
  match c.node.shape with
  | .variableDeclaration declarations _ =>
    declarations.zipIdx.forM fun (d, i) =>
      goIfSome (d.init.map (c.down [.field .init, .item i, .field .declarations])) st
        (some .expression)
  | _ => malformed "variable declaration" c.node

/-! ### Expressions -/

/-- The elements of an array literal; holes are skipped. -/
def arrayExpression : Procedure ω σ := fun c st =>
  match c.node.shape with
  | .arrayExpression elements =>
    elements.zipIdx.forM fun (element, i) =>
      goIfSome (element.map (c.down [.item i, .field .elements])) st (some .expression)
  | _ => malformed "array expression" c.node

/-- The value of each property of an object literal. -/
def objectExpression : Procedure ω σ := fun c st =>
  match c.node.shape with
  | .objectExpression properties =>
    properties.zipIdx.forM fun (p, i) =>
      go (c.down [.field .value, .item i, .field .properties] p.value) st (some .expression)
  | _ => malformed "object expression" c.node

/-- The expressions of a sequence. -/
def sequenceExpression : Procedure ω σ := fun c st =>
  match c.node.shape with
  | .sequenceExpression expressions =>
    goAll (c.downAll [.field .expressions] expressions) st (some .expression)
  | _ => malformed "sequence expression" c.node

/-- The operand. -/
def unary : Procedure ω σ := fun c st =>
  match c.node.shape with
  | .unary _ _ _ argument => go (c.down [.field .argument] argument) st (some .expression)
  | _ => malformed "unary expression" c.node

/-- Both operands. -/
def binary : Procedure ω σ := fun c st =>
  match c.node.shape with
  | .binary _ _ left right => do
    go (c.down [.field .left] left) st (some .expression)
    go (c.down [.field .right] right) st (some .expression)
  | _ => malformed "binary expression" c.node

/-- The test and both choices. -/
def conditionalExpression : Procedure ω σ := fun c st =>
  match c.node.shape with
  | .conditionalExpression test consequent alternate => do
    go (c.down [.field .test] test) st (some .expression)
    go (c.down [.field .consequent] consequent) st (some .expression)
    go (c.down [.field .alternate] alternate) st (some .expression)
  | _ => malformed "conditional expression" c.node

/-- What is called, and the arguments. -/
def call : Procedure ω σ := fun c st =>
  match c.node.shape with
  | .call _ callee arguments => do
    go (c.down [.field .callee] callee) st (some .expression)
    goAll (c.downAll [.field .arguments] arguments) st (some .expression)
  | _ => malformed "call expression" c.node

/-- The object, and the property where it is computed: the property of `a.b` is a name, that of
`a[b]` an expression. -/
def memberExpression : Procedure ω σ := fun c st =>
  match c.node.shape with
  | .memberExpression object property computed => do
    go (c.down [.field .object] object) st (some .expression)
    if computed then go (c.down [.field .property] property) st (some .expression)
  | _ => malformed "member expression" c.node

/-! ### The table -/

/-- What the default table does under each of its keys. -/
def procedures : List (String × Procedure ω σ) := [
  ("Program", statementList),
  ("BlockStatement", statementList),
  ("Statement", ownType),
  ("EmptyStatement", leaf),
  ("ExpressionStatement", expressionStatement),
  ("IfStatement", ifStatement),
  ("LabeledStatement", labeledStatement),
  ("BreakStatement", leaf),
  ("ContinueStatement", leaf),
  ("WithStatement", withStatement),
  ("SwitchStatement", switchStatement),
  ("ReturnStatement", returnStatement),
  ("ThrowStatement", throwStatement),
  ("TryStatement", tryStatement),
  ("WhileStatement", loop),
  ("DoWhileStatement", loop),
  ("ForStatement", forStatement),
  ("ForInStatement", forInStatement),
  ("ForInit", forInit),
  ("DebuggerStatement", leaf),
  ("FunctionDeclaration", asFunction),
  ("VariableDeclaration", variableDeclaration),
  ("Function", function),
  ("ScopeBody", scopeBody),
  ("Expression", ownType),
  ("ThisExpression", leaf),
  ("ArrayExpression", arrayExpression),
  ("ObjectExpression", objectExpression),
  ("FunctionExpression", asFunction),
  ("SequenceExpression", sequenceExpression),
  ("UnaryExpression", unary),
  ("UpdateExpression", unary),
  ("BinaryExpression", binary),
  ("AssignmentExpression", binary),
  ("LogicalExpression", binary),
  ("ConditionalExpression", conditionalExpression),
  ("NewExpression", call),
  ("CallExpression", call),
  ("MemberExpression", memberExpression),
  ("Identifier", leaf),
  ("Literal", leaf)]

/-- The default table, its handlers identified by the numbers from `first` on. -/
def table (first : Nat) : Table ω σ := Table.ofProcedures first procedures

end Default

end TreeWalk
