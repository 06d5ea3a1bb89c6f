/-
What a document says about each kind of node.

The schema of a type lists its fields in their fixed order, each with the kind of
content it takes and with what its absence means.  Switch cases, catch clauses,
declarators and properties have schemas of their own.  The content of a node is then
a tuple over the schema of its type, which `Shape.ofValues` and `Shape.values`
exchange for a shape without anything lost on the way.
-/
import TreeWalk.Syntax.Field
import TreeWalk.Syntax.Shape

namespace TreeWalk

/-! ### Records -/

/-- The records that nodes list. -/
inductive RecordType where
  | switchCase
  | catchClause
  | declarator
  | property
deriving DecidableEq, Inhabited

namespace RecordType

/-- The spelling of a record's type in messages. -/
def name : RecordType → String
  | switchCase => "SwitchCase"
  | catchClause => "CatchClause"
  | declarator => "VariableDeclarator"
  | property => "Property"

/-- A record of the given type, with `α` for the nodes in it. -/
@[reducible] def Value (α : Type) : RecordType → Type
  | switchCase => SwitchCase α
  | catchClause => CatchClause α
  | declarator => Declarator α
  | property => Property α

end RecordType

/-! ### Fields -/

/-- What a field may hold. -/
inductive FieldKind where
  | node
  | optionalNode
  | nodes
  /-- Nodes with holes between them. -/
  | elements
  | records (of : RecordType)
  | optionalRecord (of : RecordType)
  | text
  | optionalText
  /-- A truth value, with what it is when nothing is said. -/
  | flag (default : Bool)
  /-- Any value. -/
  | json
  | declarationKind
  | propertyKind

/-- The content of a field, with `α` for the nodes in it. -/
@[reducible] def FieldKind.Value (α : Type) : FieldKind → Type
  | node => α
  | optionalNode => Option α
  | nodes => List α
  | elements => List (Option α)
  | records r => List (r.Value α)
  | optionalRecord r => Option (r.Value α)
  | text => String
  | optionalText => Option String
  | flag _ => Bool
  | json => Json
  | declarationKind => DeclarationKind
  | propertyKind => PropertyKind

/-- The content of a field about which nothing is said, for the kinds that have one. -/
def FieldKind.unsaid {α : Type} : (k : FieldKind) → Option (k.Value α)
  | node => Option.none
  | optionalNode => some Option.none
  | nodes => some []
  | elements => some []
  | records _ => some []
  | optionalRecord _ => some Option.none
  | text => Option.none
  | optionalText => some Option.none
  | flag default => some default
  | json => some Json.null
  | declarationKind => some DeclarationKind.var
  | propertyKind => some PropertyKind.init

/-- What it means that a field is absent. -/
inductive Presence where
  | required
  /-- The field is empty, which a document may also say by `null`. -/
  | optional
  /-- The field has a default, which `null` is not. -/
  | defaulted
deriving DecidableEq

/-- A field, its content, and what its absence means. -/
structure FieldSpec where
  field : Field
  kind : FieldKind
  presence : Presence

namespace FieldSpec

/-- A field that has to be there. -/
def required (field : Field) (kind : FieldKind) : FieldSpec := ⟨field, kind, .required⟩

/-- A field that may be absent or null. -/
def optional (field : Field) (kind : FieldKind) : FieldSpec := ⟨field, kind, .optional⟩

/-- A field that may be absent, but not null. -/
def defaulted (field : Field) (kind : FieldKind) : FieldSpec := ⟨field, kind, .defaulted⟩

/-- What the field holds when it is absent, if it may be. -/
def absent {α : Type} (spec : FieldSpec) : Option (spec.kind.Value α) :=
  if spec.presence = .required then Option.none else spec.kind.unsaid

end FieldSpec

open FieldSpec in
/-- The fields of a record. -/
def RecordType.schema : RecordType → List FieldSpec
  | switchCase => [optional .test .optionalNode, required .consequent .nodes]
  | catchClause => [required .param .node, required .body .node]
  | declarator => [required .id .node, optional .init .optionalNode]
  | property =>
    [required .key .node, required .value .node, defaulted .kind .propertyKind]

open FieldSpec in
/-- The fields of the nodes of a type. -/
def NodeType.schema : NodeType → List FieldSpec
  | program | blockStatement => [required .body .nodes]
  | emptyStatement | debuggerStatement | thisExpression => []
  | expressionStatement => [required .expression .node]
  | ifStatement =>
    [required .test .node, required .consequent .node, optional .alternate .optionalNode]
  | labeledStatement => [required .label .node, required .body .node]
  | breakStatement | continueStatement => [optional .label .optionalNode]
  | withStatement => [required .object .node, required .body .node]
  | switchStatement => [required .discriminant .node, required .cases (.records .switchCase)]
  | returnStatement => [optional .argument .optionalNode]
  | throwStatement => [required .argument .node]
  | tryStatement => [
      required .block .node,
      optional .handler (.optionalRecord .catchClause),
      defaulted .handlers (.records .catchClause),
      optional .finalizer .optionalNode]
  | whileStatement | doWhileStatement => [required .test .node, required .body .node]
  | forStatement =>
    [optional .init .optionalNode, optional .test .optionalNode, optional .update .optionalNode,
      required .body .node]
  | forInStatement => [required .left .node, required .right .node, required .body .node]
  | functionDeclaration | functionExpression =>
    [optional .id .optionalNode, defaulted .params .nodes, required .body .node]
  | variableDeclaration =>
    [required .declarations (.records .declarator), defaulted .kind .declarationKind]
  | arrayExpression => [required .elements .elements]
  | objectExpression => [required .properties (.records .property)]
  | sequenceExpression => [required .expressions .nodes]
  | unaryExpression | updateExpression =>
    [required .operator .text, defaulted .prefixed (.flag true), required .argument .node]
  | binaryExpression | assignmentExpression | logicalExpression =>
    [required .operator .text, required .left .node, required .right .node]
  | conditionalExpression =>
    [required .test .node, required .consequent .node, required .alternate .node]
  | newExpression | callExpression => [required .callee .node, defaulted .arguments .nodes]
  | memberExpression =>
    [required .object .node, required .property .node, defaulted .computed (.flag false)]
  | identifier => [required .name .text]
  | literal => [defaulted .value .json, optional .raw .optionalText]

/-! ### Tuples over a schema -/

/-- The contents of all fields of a schema. -/
@[reducible] def Values (α : Type) : List FieldSpec → Type
  | [] => Unit
  | spec :: rest => spec.kind.Value α × Values α rest

/-- The contents of some fields of a schema. -/
@[reducible] def Slots (α : Type) : List FieldSpec → Type
  | [] => Unit
  | spec :: rest => Option (spec.kind.Value α) × Slots α rest

/-- No contents yet. -/
def Slots.none {α : Type} : (specs : List FieldSpec) → Slots α specs
  | [] => ()
  | _ :: rest => (Option.none, Slots.none rest)

/-- The record with the given contents. -/
def RecordType.ofValues {α : Type} : (r : RecordType) → Values α r.schema → r.Value α
  | switchCase, (test, consequent, ()) => ⟨test, consequent⟩
  | catchClause, (param, body, ()) => ⟨param, body⟩
  | declarator, (id, init, ()) => ⟨id, init⟩
  | property, (key, value, kind, ()) => ⟨key, value, kind⟩

/-- The contents of a record. -/
def RecordType.values {α : Type} : (r : RecordType) → r.Value α → Values α r.schema
  | switchCase, ⟨test, consequent⟩ => (test, consequent, ())
  | catchClause, ⟨param, body⟩ => (param, body, ())
  | declarator, ⟨id, init⟩ => (id, init, ())
  | property, ⟨key, value, kind⟩ => (key, value, kind, ())

/-- The shape of the given type with the given contents. -/
def Shape.ofValues {α : Type} : (t : NodeType) → Values α t.schema → Shape α
  | .program, (body, ()) => .program body
  | .emptyStatement, () => .emptyStatement
  | .blockStatement, (body, ()) => .blockStatement body
  | .expressionStatement, (expression, ()) => .expressionStatement expression
  | .ifStatement, (test, consequent, alternate, ()) => .ifStatement test consequent alternate
  | .labeledStatement, (label, body, ()) => .labeledStatement label body
  | .breakStatement, (label, ()) => .jump .break_ label
  | .continueStatement, (label, ()) => .jump .continue_ label
  | .withStatement, (object, body, ()) => .withStatement object body
  | .switchStatement, (discriminant, cases, ()) => .switchStatement discriminant cases
  | .returnStatement, (argument, ()) => .returnStatement argument
  | .throwStatement, (argument, ()) => .throwStatement argument
  | .tryStatement, (block, handler, handlers, finalizer, ()) =>
    .tryStatement block handler handlers finalizer
  | .whileStatement, (test, body, ()) => .loop .while_ test body
  | .doWhileStatement, (test, body, ()) => .loop .doWhile test body
  | .forStatement, (init, test, update, body, ()) => .forStatement init test update body
  | .forInStatement, (left, right, body, ()) => .forInStatement left right body
  | .debuggerStatement, () => .debuggerStatement
  | .functionDeclaration, (id, params, body, ()) => .function .declaration id params body
  | .variableDeclaration, (declarations, kind, ()) => .variableDeclaration declarations kind
  | .thisExpression, () => .thisExpression
  | .arrayExpression, (elements, ()) => .arrayExpression elements
  | .objectExpression, (properties, ()) => .objectExpression properties
  | .functionExpression, (id, params, body, ()) => .function .expression id params body
  | .sequenceExpression, (expressions, ()) => .sequenceExpression expressions
  | .unaryExpression, (operator, prefixed, argument, ()) =>
    .unary .unary operator prefixed argument
  | .updateExpression, (operator, prefixed, argument, ()) =>
    .unary .update operator prefixed argument
  | .binaryExpression, (operator, left, right, ()) => .binary .binary operator left right
  | .assignmentExpression, (operator, left, right, ()) => .binary .assignment operator left right
  | .logicalExpression, (operator, left, right, ()) => .binary .logical operator left right
  | .conditionalExpression, (test, consequent, alternate, ()) =>
    .conditionalExpression test consequent alternate
  | .newExpression, (callee, arguments, ()) => .call .construct callee arguments
  | .callExpression, (callee, arguments, ()) => .call .call callee arguments
  | .memberExpression, (object, property, computed, ()) =>
    .memberExpression object property computed
  | .identifier, (name, ()) => .identifier name
  | .literal, (value, raw, ()) => .literal value raw

/-- The contents of a shape. -/
def Shape.values {α : Type} : (s : Shape α) → Values α s.type.schema
  | .program body => (body, ())
  | .emptyStatement => ()
  | .blockStatement body => (body, ())
  | .expressionStatement expression => (expression, ())
  | .ifStatement test consequent alternate => (test, consequent, alternate, ())
  | .labeledStatement label body => (label, body, ())
  | .jump .break_ label => (label, ())
  | .jump .continue_ label => (label, ())
  | .withStatement object body => (object, body, ())
  | .switchStatement discriminant cases => (discriminant, cases, ())
  | .returnStatement argument => (argument, ())
  | .throwStatement argument => (argument, ())
  | .tryStatement block handler handlers finalizer => (block, handler, handlers, finalizer, ())
  | .loop .while_ test body => (test, body, ())
  | .loop .doWhile test body => (test, body, ())
  | .forStatement init test update body => (init, test, update, body, ())
  | .forInStatement left right body => (left, right, body, ())
  | .debuggerStatement => ()
  | .function .declaration id params body => (id, params, body, ())
  | .function .expression id params body => (id, params, body, ())
  | .variableDeclaration declarations kind => (declarations, kind, ())
  | .thisExpression => ()
  | .arrayExpression elements => (elements, ())
  | .objectExpression properties => (properties, ())
  | .sequenceExpression expressions => (expressions, ())
  | .unary .unary operator prefixed argument => (operator, prefixed, argument, ())
  | .unary .update operator prefixed argument => (operator, prefixed, argument, ())
  | .binary .binary operator left right => (operator, left, right, ())
  | .binary .assignment operator left right => (operator, left, right, ())
  | .binary .logical operator left right => (operator, left, right, ())
  | .conditionalExpression test consequent alternate => (test, consequent, alternate, ())
  | .call .call callee arguments => (callee, arguments, ())
  | .call .construct callee arguments => (callee, arguments, ())
  | .memberExpression object property computed => (object, property, computed, ())
  | .identifier name => (name, ())
  | .literal value raw => (value, raw, ())

/-- A shape has the type that its contents were given for. -/
theorem Shape.type_ofValues {α : Type} (t : NodeType) (vs : Values α t.schema) :
    (Shape.ofValues t vs).type = t := by
  cases t <;> rfl

/-- A shape is what its contents say. -/
theorem Shape.ofValues_values {α : Type} (s : Shape α) : Shape.ofValues s.type s.values = s := by
  cases s with
  | jump form => cases form <;> rfl
  | loop form => cases form <;> rfl
  | function form => cases form <;> rfl
  | unary form => cases form <;> rfl
  | binary form => cases form <;> rfl
  | call form => cases form <;> rfl
  | _ => rfl

end TreeWalk
