/-
The types of syntax tree nodes.

An ESTree document names each node's type in its `type` member.  `NodeType.all`
lists the supported ones in the order a document may also count them by, and
`NodeType.name` gives the spelling; the two make `ofName?` the inverse of `name`.
-/

namespace TreeWalk

/-- The type of a node. -/
inductive NodeType where
  | program
  | emptyStatement
  | blockStatement
  | expressionStatement
  | ifStatement
  | labeledStatement
  | breakStatement
  | continueStatement
  | withStatement
  | switchStatement
  | returnStatement
  | throwStatement
  | tryStatement
  | whileStatement
  | doWhileStatement
  | forStatement
  | forInStatement
  | debuggerStatement
  | functionDeclaration
  | variableDeclaration
  | thisExpression
  | arrayExpression
  | objectExpression
  | functionExpression
  | sequenceExpression
  | unaryExpression
  | updateExpression
  | binaryExpression
  | assignmentExpression
  | logicalExpression
  | conditionalExpression
  | newExpression
  | callExpression
  | memberExpression
  | identifier
  | literal
deriving DecidableEq, Inhabited

namespace NodeType

/-- Every type, in its fixed order. -/
def all : List NodeType := [
  program, emptyStatement, blockStatement, expressionStatement, ifStatement, labeledStatement,
  breakStatement, continueStatement, withStatement, switchStatement, returnStatement,
  throwStatement, tryStatement, whileStatement, doWhileStatement, forStatement, forInStatement,
  debuggerStatement, functionDeclaration, variableDeclaration, thisExpression, arrayExpression,
  objectExpression, functionExpression, sequenceExpression, unaryExpression, updateExpression,
  binaryExpression, assignmentExpression, logicalExpression, conditionalExpression, newExpression,
  callExpression, memberExpression, identifier, literal]

/-- The spelling of a type in a document. -/
def name : NodeType → String
  | program => "Program"
  | emptyStatement => "EmptyStatement"
  | blockStatement => "BlockStatement"
  | expressionStatement => "ExpressionStatement"
  | ifStatement => "IfStatement"
  | labeledStatement => "LabeledStatement"
  | breakStatement => "BreakStatement"
  | continueStatement => "ContinueStatement"
  | withStatement => "WithStatement"
  | switchStatement => "SwitchStatement"
  | returnStatement => "ReturnStatement"
  | throwStatement => "ThrowStatement"
  | tryStatement => "TryStatement"
  | whileStatement => "WhileStatement"
  | doWhileStatement => "DoWhileStatement"
  | forStatement => "ForStatement"
  | forInStatement => "ForInStatement"
  | debuggerStatement => "DebuggerStatement"
  | functionDeclaration => "FunctionDeclaration"
  | variableDeclaration => "VariableDeclaration"
  | thisExpression => "ThisExpression"
  | arrayExpression => "ArrayExpression"
  | objectExpression => "ObjectExpression"
  | functionExpression => "FunctionExpression"
  | sequenceExpression => "SequenceExpression"
  | unaryExpression => "UnaryExpression"
  | updateExpression => "UpdateExpression"
  | binaryExpression => "BinaryExpression"
  | assignmentExpression => "AssignmentExpression"
  | logicalExpression => "LogicalExpression"
  | conditionalExpression => "ConditionalExpression"
  | newExpression => "NewExpression"
  | callExpression => "CallExpression"
  | memberExpression => "MemberExpression"
  | identifier => "Identifier"
  | literal => "Literal"

/-- The type of a given spelling. -/
def ofName? (s : String) : Option NodeType := all.find? (·.name == s)

/-- Every type is listed. -/
theorem mem_all (t : NodeType) : t ∈ all := by cases t <;> decide

/-- A spelling leads back to its type. -/
theorem ofName?_name (t : NodeType) : ofName? t.name = some t := by cases t <;> decide

/-- No two types share a spelling. -/
theorem name_injective {s t : NodeType} (h : s.name = t.name) : s = t := by
  have := ofName?_name s
  rw [h, ofName?_name t] at this
  exact (Option.some.inj this).symm

end NodeType

end TreeWalk
