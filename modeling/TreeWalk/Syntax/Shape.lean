/-
The shapes of nodes.

A shape is one layer of a syntax tree: what a node of some type holds, with `α` in
every place where a child stands.  Types that hold the same things share a shape and
differ in a form only.  Because the children are a parameter, whatever speaks of one
layer (its type, its children in order) is said once, and recursion over trees is a
matter of nodes alone.

Switch cases, catch clauses, declarators and object properties are records: they
belong to the node that lists them and are no nodes themselves.
-/
import TreeWalk.Json.Value
import TreeWalk.Syntax.NodeType

namespace TreeWalk

/-! ### Records -/

/-- A clause of a `switch`; without a test it is the default clause. -/
structure SwitchCase (α : Type) where
  test : Option α
  consequent : List α

/-- A `catch` clause. -/
structure CatchClause (α : Type) where
  param : α
  body : α

/-- One name, or pattern, that a variable declaration declares. -/
structure Declarator (α : Type) where
  id : α
  init : Option α

/-- How a property of an object literal is given. -/
inductive PropertyKind where
  | init
  | get
  | set
deriving DecidableEq, Inhabited

/-- A property of an object literal. -/
structure Property (α : Type) where
  key : α
  value : α
  kind : PropertyKind

/-! ### Forms -/

/-- The keyword of a variable declaration. -/
inductive DeclarationKind where
  | var
  | let_
  | const
deriving DecidableEq, Inhabited

/-- The two statements that leave a statement early. -/
inductive JumpForm where
  | break_
  | continue_
deriving DecidableEq, Inhabited

/-- The type of the nodes of this form. -/
def JumpForm.type : JumpForm → NodeType
  | break_ => .breakStatement
  | continue_ => .continueStatement

/-- The two loops with a test alone. -/
inductive LoopForm where
  | while_
  | doWhile
deriving DecidableEq, Inhabited

/-- The type of the nodes of this form. -/
def LoopForm.type : LoopForm → NodeType
  | while_ => .whileStatement
  | doWhile => .doWhileStatement

/-- Whether a function stands as a statement or as an expression. -/
inductive FunctionForm where
  | declaration
  | expression
deriving DecidableEq, Inhabited

/-- The type of the nodes of this form. -/
def FunctionForm.type : FunctionForm → NodeType
  | declaration => .functionDeclaration
  | expression => .functionExpression

/-- The two kinds of expression with an operator and one operand. -/
inductive UnaryForm where
  | unary
  | update
deriving DecidableEq, Inhabited

/-- The type of the nodes of this form. -/
def UnaryForm.type : UnaryForm → NodeType
  | unary => .unaryExpression
  | update => .updateExpression

/-- The three kinds of expression with an operator between two operands. -/
inductive BinaryForm where
  | binary
  | assignment
  | logical
deriving DecidableEq, Inhabited

/-- The type of the nodes of this form. -/
def BinaryForm.type : BinaryForm → NodeType
  | binary => .binaryExpression
  | assignment => .assignmentExpression
  | logical => .logicalExpression

/-- Whether a call constructs an object. -/
inductive CallForm where
  | call
  | construct
deriving DecidableEq, Inhabited

/-- The type of the nodes of this form. -/
def CallForm.type : CallForm → NodeType
  | call => .callExpression
  | construct => .newExpression

/-! ### One layer of a tree -/

/-- What a node holds, with `α` for its children. -/
inductive Shape (α : Type) where
  | program (body : List α)
  | emptyStatement
  | blockStatement (body : List α)
  | expressionStatement (expression : α)
  | ifStatement (test consequent : α) (alternate : Option α)
  | labeledStatement (label body : α)
  | jump (form : JumpForm) (label : Option α)
  | withStatement (object body : α)
  | switchStatement (discriminant : α) (cases : List (SwitchCase α))
  | returnStatement (argument : Option α)
  | throwStatement (argument : α)
  | tryStatement (block : α) (handler : Option (CatchClause α)) (handlers : List (CatchClause α))
      (finalizer : Option α)
  | loop (form : LoopForm) (test body : α)
  | forStatement (init test update : Option α) (body : α)
  | forInStatement (left right body : α)
  | debuggerStatement
  | function (form : FunctionForm) (id : Option α) (params : List α) (body : α)
  | variableDeclaration (declarations : List (Declarator α)) (kind : DeclarationKind)
  | thisExpression
  | arrayExpression (elements : List (Option α))
  | objectExpression (properties : List (Property α))
  | sequenceExpression (expressions : List α)
  | unary (form : UnaryForm) (operator : String) (prefixed : Bool) (argument : α)
  | binary (form : BinaryForm) (operator : String) (left right : α)
  | conditionalExpression (test consequent alternate : α)
  | call (form : CallForm) (callee : α) (arguments : List α)
  | memberExpression (object property : α) (computed : Bool)
  | identifier (name : String)
  | literal (value : Json) (raw : Option String)

namespace Shape

variable {α : Type}

/-- The type that a node of this shape has. -/
def type : Shape α → NodeType
  | program _ => .program
  | emptyStatement => .emptyStatement
  | blockStatement _ => .blockStatement
  | expressionStatement _ => .expressionStatement
  | ifStatement .. => .ifStatement
  | labeledStatement .. => .labeledStatement
  | jump form _ => form.type
  | withStatement .. => .withStatement
  | switchStatement .. => .switchStatement
  | returnStatement _ => .returnStatement
  | throwStatement _ => .throwStatement
  | tryStatement .. => .tryStatement
  | loop form .. => form.type
  | forStatement .. => .forStatement
  | forInStatement .. => .forInStatement
  | debuggerStatement => .debuggerStatement
  | function form .. => form.type
  | variableDeclaration .. => .variableDeclaration
  | thisExpression => .thisExpression
  | arrayExpression _ => .arrayExpression
  | objectExpression _ => .objectExpression
  | sequenceExpression _ => .sequenceExpression
  | unary form .. => form.type
  | binary form .. => form.type
  | conditionalExpression .. => .conditionalExpression
  | call form .. => form.type
  | memberExpression .. => .memberExpression
  | identifier _ => .identifier
  | literal .. => .literal

/-- The catch clauses of a `try`: the list of them where it has any, else the single one. -/
def clauses (handler : Option (CatchClause α)) (handlers : List (CatchClause α)) :
    List (CatchClause α) :=
  if handlers.isEmpty then handler.toList else handlers

/-- The shape with `f` done to every child. -/
def map {β : Type} (f : α → β) : Shape α → Shape β
  | program body => program (body.map f)
  | emptyStatement => emptyStatement
  | blockStatement body => blockStatement (body.map f)
  | expressionStatement expression => expressionStatement (f expression)
  | ifStatement test consequent alternate =>
    ifStatement (f test) (f consequent) (alternate.map f)
  | labeledStatement label body => labeledStatement (f label) (f body)
  | jump form label => jump form (label.map f)
  | withStatement object body => withStatement (f object) (f body)
  | switchStatement discriminant cases =>
    switchStatement (f discriminant) (cases.map fun c => ⟨c.test.map f, c.consequent.map f⟩)
  | returnStatement argument => returnStatement (argument.map f)
  | throwStatement argument => throwStatement (f argument)
  | tryStatement block handler handlers finalizer =>
    tryStatement (f block) (handler.map fun c => ⟨f c.param, f c.body⟩)
      (handlers.map fun c => ⟨f c.param, f c.body⟩) (finalizer.map f)
  | loop form test body => loop form (f test) (f body)
  | forStatement init test update body =>
    forStatement (init.map f) (test.map f) (update.map f) (f body)
  | forInStatement left right body => forInStatement (f left) (f right) (f body)
  | debuggerStatement => debuggerStatement
  | function form id params body => function form (id.map f) (params.map f) (f body)
  | variableDeclaration declarations kind =>
    variableDeclaration (declarations.map fun d => ⟨f d.id, d.init.map f⟩) kind
  | thisExpression => thisExpression
  | arrayExpression elements => arrayExpression (elements.map (Option.map f))
  | objectExpression properties =>
    objectExpression (properties.map fun p => ⟨f p.key, f p.value, p.kind⟩)
  | sequenceExpression expressions => sequenceExpression (expressions.map f)
  | unary form operator prefixed argument => unary form operator prefixed (f argument)
  | binary form operator left right => binary form operator (f left) (f right)
  | conditionalExpression test consequent alternate =>
    conditionalExpression (f test) (f consequent) (f alternate)
  | call form callee arguments => call form (f callee) (arguments.map f)
  | memberExpression object property computed =>
    memberExpression (f object) (f property) computed
  | identifier name => identifier name
  | literal value raw => literal value raw

/-- Every child, in the order of the fields. -/
def children : Shape α → List α
  | program body => body
  | emptyStatement => []
  | blockStatement body => body
  | expressionStatement expression => [expression]
  | ifStatement test consequent alternate => test :: consequent :: alternate.toList
  | labeledStatement label body => [label, body]
  | jump _ label => label.toList
  | withStatement object body => [object, body]
  | switchStatement discriminant cases =>
    discriminant :: cases.flatMap fun c => c.test.toList ++ c.consequent
  | returnStatement argument => argument.toList
  | throwStatement argument => [argument]
  | tryStatement block handler handlers finalizer =>
    block :: (handler.toList ++ handlers).flatMap (fun c => [c.param, c.body]) ++
      finalizer.toList
  | loop _ test body => [test, body]
  | forStatement init test update body =>
    init.toList ++ test.toList ++ update.toList ++ [body]
  | forInStatement left right body => [left, right, body]
  | debuggerStatement => []
  | function _ id params body => id.toList ++ params ++ [body]
  | variableDeclaration declarations _ =>
    declarations.flatMap fun d => d.id :: d.init.toList
  | thisExpression => []
  | arrayExpression elements => elements.flatMap Option.toList
  | objectExpression properties => properties.flatMap fun p => [p.key, p.value]
  | sequenceExpression expressions => expressions
  | unary _ _ _ argument => [argument]
  | binary _ _ left right => [left, right]
  | conditionalExpression test consequent alternate => [test, consequent, alternate]
  | call _ callee arguments => callee :: arguments
  | memberExpression object property _ => [object, property]
  | identifier _ => []
  | literal .. => []

/-- A shape keeps its type whatever its children are replaced by. -/
@[simp] theorem type_map {β : Type} (f : α → β) (s : Shape α) : (s.map f).type = s.type := by
  cases s <;> rfl

end Shape

end TreeWalk
