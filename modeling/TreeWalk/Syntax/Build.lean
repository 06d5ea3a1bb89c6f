/-
Trees built in code.

Each function makes a node of one type from its parts.  Names become identifiers and
lists of statements become blocks, so a tree built here is well formed wherever a
name is bound.  The nodes carry no offsets.
-/
import TreeWalk.Syntax.Node

namespace TreeWalk.Build

/-! ### Identifiers and literals -/

/-- An identifier. -/
def ident (name : String) : Node := .ofShape (.identifier name)

/-- A literal of a value, without its source text. -/
def literal (value : Json) : Node := .ofShape (.literal value none)

/-- A number; what is no finite number becomes the null literal. -/
def num (value : Float) : Node :=
  literal (if value.isFinite then .num (.float value) else .null)

/-- A string. -/
def string (value : String) : Node := literal (.str value)

/-- A truth value. -/
def boolean (value : Bool) : Node := literal (.bool value)

/-- The null literal. -/
def null : Node := literal .null

/-! ### Program and statements -/

/-- A program. -/
def program (body : List Node) : Node := .ofShape (.program body)

/-- A block. -/
def block (body : List Node) : Node := .ofShape (.blockStatement body)

/-- An empty statement. -/
def empty : Node := .ofShape .emptyStatement

/-- An expression as a statement. -/
def exprStmt (expression : Node) : Node := .ofShape (.expressionStatement expression)

/-- An `if`, with or without an `else`. -/
def ifStmt (test consequent : Node) (alternate : Option Node) : Node :=
  .ofShape (.ifStatement test consequent alternate)

/-- A labeled statement. -/
def labeled (label : String) (body : Node) : Node :=
  .ofShape (.labeledStatement (ident label) body)

/-- A `break`. -/
def breakStmt (label : Option String) : Node := .ofShape (.jump .break_ (label.map ident))

/-- A `continue`. -/
def continueStmt (label : Option String) : Node := .ofShape (.jump .continue_ (label.map ident))

/-- A `with`. -/
def withStmt (object body : Node) : Node := .ofShape (.withStatement object body)

/-- A `switch`. -/
def switchStmt (discriminant : Node) (cases : List (SwitchCase Node)) : Node :=
  .ofShape (.switchStatement discriminant cases)

/-- A clause of a `switch`; without a test, the default clause. -/
def case (test : Option Node) (consequent : List Node) : SwitchCase Node := ⟨test, consequent⟩

/-- A `return`. -/
def returnStmt (argument : Option Node) : Node := .ofShape (.returnStatement argument)

/-- A `throw`. -/
def throwStmt (argument : Node) : Node := .ofShape (.throwStatement argument)

/-- A `try` with a list of catch clauses; its block and its finalizer are given as statements. -/
def tryStmt (body : List Node) (handlers : List (CatchClause Node))
    (finalizer : Option (List Node)) : Node :=
  .ofShape (.tryStatement (block body) none handlers (finalizer.map block))

/-- A `catch` clause. -/
def catchClause (param : String) (body : List Node) : CatchClause Node := ⟨ident param, block body⟩

/-- A `while` loop. -/
def whileStmt (test body : Node) : Node := .ofShape (.loop .while_ test body)

/-- A `do`-`while` loop. -/
def doWhile (body test : Node) : Node := .ofShape (.loop .doWhile test body)

/-- A `for` loop. -/
def forStmt (init test update : Option Node) (body : Node) : Node :=
  .ofShape (.forStatement init test update body)

/-- A `for`-`in` loop. -/
def forIn (left right body : Node) : Node := .ofShape (.forInStatement left right body)

/-- A `debugger` statement. -/
def debugger : Node := .ofShape .debuggerStatement

/-! ### Declarations -/

/-- A function of either form. -/
def function (form : FunctionForm) (name : Option String) (params : List String)
    (body : List Node) : Node :=
  .ofShape (.function form (name.map ident) (params.map ident) (block body))

/-- A function declaration. -/
def funcDecl (name : String) (params : List String) (body : List Node) : Node :=
  function .declaration (some name) params body

/-- A function expression. -/
def funcExpr (name : Option String) (params : List String) (body : List Node) : Node :=
  function .expression name params body

/-- A name with or without an initial value. -/
def declarator (name : String) (init : Option Node) : Declarator Node := ⟨ident name, init⟩

/-- A `var` declaration. -/
def varDecl (declarations : List (Declarator Node)) : Node :=
  .ofShape (.variableDeclaration declarations .var)

/-- A `var` declaration of one name. -/
def var (name : String) (init : Option Node) : Node := varDecl [declarator name init]

/-! ### Expressions -/

/-- The expression `this`. -/
def this : Node := .ofShape .thisExpression

/-- An array literal; absent elements are holes. -/
def array (elements : List (Option Node)) : Node := .ofShape (.arrayExpression elements)

/-- An object literal with plain properties under identifiers. -/
def object (properties : List (String × Node)) : Node :=
  .ofShape (.objectExpression (properties.map fun (key, value) => ⟨ident key, value, .init⟩))

/-- Expressions separated by commas. -/
def sequence (expressions : List Node) : Node := .ofShape (.sequenceExpression expressions)

/-- An operator before its operand. -/
def unary (operator : String) (argument : Node) : Node :=
  .ofShape (.unary .unary operator true argument)

/-- An operator that changes its operand, before or after it. -/
def update (operator : String) (prefixed : Bool) (argument : Node) : Node :=
  .ofShape (.unary .update operator prefixed argument)

/-- An operator between operands. -/
def binary (operator : String) (left right : Node) : Node :=
  .ofShape (.binary .binary operator left right)

/-- An assignment. -/
def assign (operator : String) (left right : Node) : Node :=
  .ofShape (.binary .assignment operator left right)

/-- A logical operator between operands. -/
def logical (operator : String) (left right : Node) : Node :=
  .ofShape (.binary .logical operator left right)

/-- A choice between two expressions. -/
def conditional (test consequent alternate : Node) : Node :=
  .ofShape (.conditionalExpression test consequent alternate)

/-- A call. -/
def call (callee : Node) (arguments : List Node) : Node :=
  .ofShape (.call .call callee arguments)

/-- A call that constructs an object. -/
def construct (callee : Node) (arguments : List Node) : Node :=
  .ofShape (.call .construct callee arguments)

/-- A member by name, `object.name`. -/
def member (object : Node) (name : String) : Node :=
  .ofShape (.memberExpression object (ident name) false)

/-- A member by value, `object[property]`. -/
def index (object property : Node) : Node :=
  .ofShape (.memberExpression object property true)

end TreeWalk.Build
