/-
The roles that nodes play.

A category names the part a child plays in its parent rather than the child's type.
A walk sends a child through the table entry of its category, so that one entry sees
every node in that role.
-/
import TreeWalk.Syntax.NodeType

namespace TreeWalk

/-- The role of a node in its parent. -/
inductive Category where
  /-- A node in statement position. -/
  | statement
  /-- A node in expression position. -/
  | expression
  /-- The body of a function or catch clause, where a new scope starts. -/
  | scopeBody
  /-- What a `for` starts with or a `for`-`in` assigns to: a declaration or an expression. -/
  | forInit
  /-- Function declarations and expressions alike. -/
  | function
deriving DecidableEq, Inhabited

namespace Category

/-- Every category, in its fixed order. -/
def all : List Category := [statement, expression, scopeBody, forInit, function]

/-- The table key of a category. -/
def name : Category → String
  | statement => "Statement"
  | expression => "Expression"
  | scopeBody => "ScopeBody"
  | forInit => "ForInit"
  | function => "Function"

/-- The category of a given spelling. -/
def ofName? (s : String) : Option Category := all.find? (·.name == s)

/-- A spelling leads back to its category. -/
theorem ofName?_name (c : Category) : ofName? c.name = some c := by cases c <;> decide

/-- No category is spelled like a type. -/
theorem name_ne_typeName (c : Category) (t : NodeType) : c.name ≠ t.name := by
  cases c <;> cases t <;> decide

end Category

end TreeWalk
