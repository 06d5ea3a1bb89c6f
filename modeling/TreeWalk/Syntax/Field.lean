/-
Names of the fields that nodes and their records hold.

A field says by its name what its content is to the node around it.  The place of a
node inside a tree is then a list of steps, each into a field or to an item of the
list there: the same trail that a reader of the document would follow.
-/

namespace TreeWalk

/-- A field of a node, or of a record inside a node. -/
inductive Field where
  | alternate
  | argument
  | arguments
  | block
  | body
  | callee
  | cases
  | computed
  | consequent
  | declarations
  | discriminant
  | elements
  | expression
  | expressions
  | finalizer
  | handler
  | handlers
  | id
  | init
  | key
  | kind
  | label
  | left
  | name
  | object
  | operator
  | param
  | params
  | prefixed
  | properties
  | property
  | raw
  | right
  | test
  | update
  | value
deriving DecidableEq, Inhabited

namespace Field

/-- The spelling of a field in a document. -/
def spelling : Field → String
  | alternate => "alternate"
  | argument => "argument"
  | arguments => "arguments"
  | block => "block"
  | body => "body"
  | callee => "callee"
  | cases => "cases"
  | computed => "computed"
  | consequent => "consequent"
  | declarations => "declarations"
  | discriminant => "discriminant"
  | elements => "elements"
  | expression => "expression"
  | expressions => "expressions"
  | finalizer => "finalizer"
  | handler => "handler"
  | handlers => "handlers"
  | id => "id"
  | init => "init"
  | key => "key"
  | kind => "kind"
  | label => "label"
  | left => "left"
  | name => "name"
  | object => "object"
  | operator => "operator"
  | param => "param"
  | params => "params"
  | prefixed => "prefix"
  | properties => "properties"
  | property => "property"
  | raw => "raw"
  | right => "right"
  | test => "test"
  | update => "update"
  | value => "value"

end Field

/-- One step down a tree: into a field, or to an item of the list in a field. -/
inductive Step where
  | field (of : Field)
  | item (index : Nat)
deriving DecidableEq, Inhabited

/-- The steps from the root of a tree to a place in it, the last one first. -/
abbrev Trail := List Step

end TreeWalk
