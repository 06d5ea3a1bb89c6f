/-
The document of a tree.

Each node becomes one object: its type, its fields under the names that documents give
them, and its offsets.  What is absent is null, a record is an object inside the list or
the field it stands in, and a keyword is a string.  The fields are written down shape by
shape here, apart from the schemas that say how a document is decoded.

A literal holds a value of its own, which the document takes over as it is.  The literals
of a tree are therefore all that is not known about the values in its document:
`plain_toJson`.
-/
import TreeWalk.Json.Printer
import TreeWalk.Proofs.Json.ReadBack
import TreeWalk.Proofs.Tree.Parts

namespace TreeWalk

/-! ### What may be absent -/

namespace Json

/-- The value, or null where there is none. -/
def orNull (v : Option Json) : Json := v.getD .null

/-- An offset, or null where none is recorded. -/
def ofOffset (offset : Option Offset) : Json := orNull (offset.map fun o => .num (.int o.toNat))

/-- A text, or null where there is none. -/
def ofText (text : Option String) : Json := orNull (text.map .str)

end Json

/-! ### Keywords and records -/

/-- The keyword of a declaration. -/
def DeclarationKind.keyword : DeclarationKind → String
  | var => "var"
  | let_ => "let"
  | const => "const"

/-- The keyword of a property. -/
def PropertyKind.keyword : PropertyKind → String
  | init => "init"
  | get => "get"
  | set => "set"

/-- A clause of a `switch` in a document. -/
def SwitchCase.toJson (c : SwitchCase Json) : Json :=
  .obj [("test", .orNull c.test), ("consequent", .arr c.consequent)]

/-- A catch clause in a document. -/
def CatchClause.toJson (c : CatchClause Json) : Json :=
  .obj [("param", c.param), ("body", c.body)]

/-- A declarator in a document. -/
def Declarator.toJson (d : Declarator Json) : Json :=
  .obj [("id", d.id), ("init", .orNull d.init)]

/-- A property in a document. -/
def Property.toJson (p : Property Json) : Json :=
  .obj [("key", p.key), ("value", p.value), ("kind", .str p.kind.keyword)]

/-! ### Nodes -/

/-- The fields of a node whose children are written already. -/
def Shape.members : Shape Json → List (String × Json)
  | .program body => [("body", .arr body)]
  | .emptyStatement => []
  | .blockStatement body => [("body", .arr body)]
  | .expressionStatement expression => [("expression", expression)]
  | .ifStatement test consequent alternate =>
    [("test", test), ("consequent", consequent), ("alternate", .orNull alternate)]
  | .labeledStatement label body => [("label", label), ("body", body)]
  | .jump _ label => [("label", .orNull label)]
  | .withStatement object body => [("object", object), ("body", body)]
  | .switchStatement discriminant cases =>
    [("discriminant", discriminant), ("cases", .arr (cases.map SwitchCase.toJson))]
  | .returnStatement argument => [("argument", .orNull argument)]
  | .throwStatement argument => [("argument", argument)]
  | .tryStatement block handler handlers finalizer =>
    [("block", block), ("handler", .orNull (handler.map CatchClause.toJson)),
      ("handlers", .arr (handlers.map CatchClause.toJson)), ("finalizer", .orNull finalizer)]
  | .loop _ test body => [("test", test), ("body", body)]
  | .forStatement init test update body =>
    [("init", .orNull init), ("test", .orNull test), ("update", .orNull update), ("body", body)]
  | .forInStatement left right body => [("left", left), ("right", right), ("body", body)]
  | .debuggerStatement => []
  | .function _ id params body =>
    [("id", .orNull id), ("params", .arr params), ("body", body)]
  | .variableDeclaration declarations kind =>
    [("declarations", .arr (declarations.map Declarator.toJson)), ("kind", .str kind.keyword)]
  | .thisExpression => []
  | .arrayExpression elements => [("elements", .arr (elements.map Json.orNull))]
  | .objectExpression properties => [("properties", .arr (properties.map Property.toJson))]
  | .sequenceExpression expressions => [("expressions", .arr expressions)]
  | .unary _ operator prefixed argument =>
    [("operator", .str operator), ("prefix", .bool prefixed), ("argument", argument)]
  | .binary _ operator left right =>
    [("operator", .str operator), ("left", left), ("right", right)]
  | .conditionalExpression test consequent alternate =>
    [("test", test), ("consequent", consequent), ("alternate", alternate)]
  | .call _ callee arguments => [("callee", callee), ("arguments", .arr arguments)]
  | .memberExpression object property computed =>
    [("object", object), ("property", property), ("computed", .bool computed)]
  | .identifier name => [("name", .str name)]
  | .literal value raw => [("value", value), ("raw", .ofText raw)]

namespace Node

/-- The members of a node of which its type, its fields and its offsets are known. -/
def membersOf (typeName : String) (fields : List (String × Json)) (start stop : Option Offset) :
    List (String × Json) :=
  ("type", .str typeName) :: (fields ++ [("start", .ofOffset start), ("end", .ofOffset stop)])

/-- The document of a tree, as a value. -/
def toJson (n : Node) : Json :=
  n.fold fun n s => .obj (membersOf n.typeName s.members n.start n.stop)

theorem toJson_eq (n : Node) :
    n.toJson =
      .obj (membersOf n.typeName (n.shape.map toJson).members n.start n.stop) := by
  rw [toJson, fold_eq]
  rfl

end Node

/-! ### Literals -/

namespace Shape

variable {α β : Type}

/-- The value that a literal holds. -/
def literal? : Shape α → Option Json
  | .literal value _ => some value
  | _ => none

/-- The shape with `f` done to the value that it holds if it is a literal. -/
def mapLiteral (f : Json → Json) : Shape α → Shape α
  | .literal value raw => .literal (f value) raw
  | s => s

theorem literal?_map (f : α → β) (s : Shape α) : (s.map f).literal? = s.literal? := by
  cases s <;> rfl

theorem mapLiteral_of_fixed {f : Json → Json} {s : Shape α} (h : ∀ v ∈ s.literal?, f v = v) :
    s.mapLiteral f = s := by
  cases s with
  | literal value raw => rw [mapLiteral, h value rfl]
  | _ => rfl

end Shape

namespace Node

/-- The values of all literals of a tree. -/
def literals (n : Node) : List Json := n.fold fun _ s => s.literal?.toList ++ s.children.flatten

/-- The tree with `f` done to the value of every literal. -/
def mapLiterals (f : Json → Json) (n : Node) : Node :=
  n.fold fun n s => ⟨s.mapLiteral f, n.start, n.stop⟩

theorem literals_eq (n : Node) :
    n.literals = n.shape.literal?.toList ++ n.shape.children.flatMap literals := by
  rw [literals, fold_eq, Shape.literal?_map, Shape.children_map]
  rfl

theorem mapLiterals_eq (f : Json → Json) (n : Node) :
    n.mapLiterals f = ⟨(n.shape.map (mapLiterals f)).mapLiteral f, n.start, n.stop⟩ := by
  rw [mapLiterals, fold_eq]
  rfl

theorem mem_literals_of_child {m n : Node} (hm : m ∈ n.shape.children) {v : Json}
    (hv : v ∈ m.literals) : v ∈ n.literals := by
  rw [literals_eq]
  exact List.mem_append_right _ (List.mem_flatMap.2 ⟨m, hm, hv⟩)

theorem mem_literals_of_literal? {n : Node} {v : Json} (hv : v ∈ n.shape.literal?) :
    v ∈ n.literals := by
  rw [literals_eq]
  exact List.mem_append_left _ (Option.mem_toList.2 hv)

/-- A tree is as it was if every value in it is. -/
theorem mapLiterals_of_fixed {f : Json → Json} {n : Node} (h : ∀ v ∈ n.literals, f v = v) :
    n.mapLiterals f = n := by
  induction n using children_induction with
  | step n ih =>
    have hchildren : n.shape.map (mapLiterals f) = n.shape.map id :=
      Shape.map_congr fun m hm => ih m hm fun v hv => h v (mem_literals_of_child hm hv)
    have hliteral : n.shape.mapLiteral f = n.shape :=
      Shape.mapLiteral_of_fixed fun v hv => h v (mem_literals_of_literal? hv)
    rw [mapLiterals_eq, hchildren, Shape.map_id, hliteral]
    cases n
    rfl

end Node

/-! ### Documents are plain

What is written around the values of a tree is plain, whatever lists of names an object
may have.
-/

/-- Any list of names. -/
def Json.AnyNames (_ : List String) : Prop := True

namespace Json

@[simp] theorem plain_null : Json.null.Plain AnyNames := .null

@[simp] theorem plain_str (s : String) : (Json.str s).Plain AnyNames := .str s

@[simp] theorem plain_bool (b : Bool) : (Json.bool b).Plain AnyNames := .bool b

@[simp] theorem plain_int {v : Int} : (Json.num (.int v)).Plain AnyNames ↔ Number.fits v := by
  constructor
  · rintro ⟨⟩
    assumption
  · exact .int

@[simp] theorem plain_arr {items : List Json} :
    (Json.arr items).Plain AnyNames ↔ ∀ v ∈ items, v.Plain AnyNames := by
  constructor
  · rintro ⟨⟩
    assumption
  · exact .arr

@[simp] theorem plain_obj {members : List (String × Json)} :
    (Json.obj members).Plain AnyNames ↔ ∀ m ∈ members, m.2.Plain AnyNames := by
  constructor
  · rintro ⟨⟩
    assumption
  · exact .obj trivial

@[simp] theorem plain_orNull {v : Option Json} :
    (orNull v).Plain AnyNames ↔ ∀ w ∈ v.toList, w.Plain AnyNames := by
  cases v with
  | none => simp [orNull]
  | some w => simp [orNull]

@[simp] theorem plain_ofText (text : Option String) : (ofText text).Plain AnyNames := by
  cases text with
  | none => exact .null
  | some s => exact .str s

theorem plain_ofOffset (offset : Option Offset) : (ofOffset offset).Plain AnyNames := by
  cases offset with
  | none => exact .null
  | some o =>
    have hlt := o.toNat_lt
    exact .int ⟨by omega, by omega⟩

/-! Records stand in lists or by themselves, each with some parts. -/

section Records

variable {α : Type} {e : α → Json} {parts : α → List Json}
  (he : ∀ a, (∀ v ∈ parts a, v.Plain AnyNames) → (e a).Plain AnyNames)

include he

/-- Records are plain if what stands in them is. -/
theorem plain_records {as : List α} (h : ∀ v ∈ as.flatMap parts, v.Plain AnyNames) :
    (Json.arr (as.map e)).Plain AnyNames := by
  rw [plain_arr]
  intro w hw
  obtain ⟨a, ha, rfl⟩ := List.mem_map.1 hw
  exact he a fun v hv => h v (List.mem_flatMap.2 ⟨a, ha, hv⟩)

theorem plain_optionalRecord {a : Option α} (h : ∀ v ∈ a.toList.flatMap parts, v.Plain AnyNames) :
    (orNull (a.map e)).Plain AnyNames := by
  cases a with
  | none => exact .null
  | some a => exact he a fun v hv => h v (List.mem_append_left _ hv)

end Records

theorem plain_switchCase (c : SwitchCase Json)
    (h : ∀ v ∈ c.test.toList ++ c.consequent, v.Plain AnyNames) : c.toJson.Plain AnyNames := by
  simp_all [SwitchCase.toJson, or_imp, forall_and]

theorem plain_catchClause (c : CatchClause Json)
    (h : ∀ v ∈ [c.param, c.body], v.Plain AnyNames) : c.toJson.Plain AnyNames := by
  simp_all [CatchClause.toJson]

theorem plain_declarator (d : Declarator Json)
    (h : ∀ v ∈ d.id :: d.init.toList, v.Plain AnyNames) : d.toJson.Plain AnyNames := by
  simp_all [Declarator.toJson]

theorem plain_property (p : Property Json)
    (h : ∀ v ∈ [p.key, p.value], v.Plain AnyNames) : p.toJson.Plain AnyNames := by
  simp_all [Property.toJson]

end Json

open Json in
/-- The fields of a node are plain if its children are, and the value that it holds. -/
theorem Shape.plain_members {s : Shape Json} (h : ∀ v ∈ s.children, v.Plain AnyNames)
    (hliteral : ∀ v ∈ s.literal?, v.Plain AnyNames) : ∀ m ∈ s.members, m.2.Plain AnyNames := by
  cases s with
    simp only [children, members, List.forall_mem_cons, List.forall_mem_append] at h ⊢
  | switchStatement discriminant cases =>
    obtain ⟨hdiscriminant, hcases⟩ := h
    exact ⟨hdiscriminant, plain_records plain_switchCase hcases, List.forall_mem_nil _⟩
  | tryStatement block handler handlers finalizer =>
    obtain ⟨⟨hblock, hclauses⟩, hfinalizer⟩ := h
    rw [List.flatMap_append, List.forall_mem_append] at hclauses
    exact ⟨hblock, plain_optionalRecord plain_catchClause hclauses.1,
      plain_records plain_catchClause hclauses.2, plain_orNull.2 hfinalizer, List.forall_mem_nil _⟩
  | variableDeclaration declarations kind =>
    exact ⟨plain_records plain_declarator h, plain_str _, List.forall_mem_nil _⟩
  | arrayExpression elements =>
    exact ⟨plain_records (fun _ => plain_orNull.2) h, List.forall_mem_nil _⟩
  | objectExpression properties => exact ⟨plain_records plain_property h, List.forall_mem_nil _⟩
  | _ => simp_all [literal?]

/-- **The document of a tree is plain if its literals are.** -/
theorem Node.plain_toJson {n : Node} (h : ∀ v ∈ n.literals, v.Plain Json.AnyNames) :
    n.toJson.Plain Json.AnyNames := by
  induction n using children_induction with
  | step n ih =>
    have hchildren : ∀ v ∈ (n.shape.map toJson).children, v.Plain Json.AnyNames := by
      rw [Shape.children_map]
      intro v hv
      obtain ⟨m, hm, rfl⟩ := List.mem_map.1 hv
      exact ih m hm fun w hw => h w (mem_literals_of_child hm hw)
    have hliteral : ∀ v ∈ (n.shape.map toJson).literal?, v.Plain Json.AnyNames := by
      rw [Shape.literal?_map]
      intro v hv
      exact h v (mem_literals_of_literal? hv)
    have hfields := Shape.plain_members hchildren hliteral
    rw [toJson_eq, Json.plain_obj, membersOf]
    intro m hm
    simp only [List.mem_cons, List.mem_append, List.not_mem_nil, or_false] at hm
    rcases hm with rfl | hm | rfl | rfl
    · exact .str _
    · exact hfields m hm
    · exact Json.plain_ofOffset _
    · exact Json.plain_ofOffset _

end TreeWalk
