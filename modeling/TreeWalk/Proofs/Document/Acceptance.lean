/-
Which documents a tree is loaded from.

A tree is loaded from the texts whose value stands for it, at every level, and from no others:
`Node.load_iff_describes`.  So a document says everything that is in the tree, and what it leaves
out has its default.

It need not say it as trees are written.  `positional` gives the type by its index in the list of
types, the declarator as an array, and the kind as the member of an object, and is a document for
all that.
-/
import TreeWalk.Proofs.Document.Description
import TreeWalk.Proofs.Document.Loading
import TreeWalk.Syntax.Build

namespace TreeWalk

namespace Node

/-- **A tree is loaded from exactly those texts whose value stands for it.**

The text has to be JSON and no deeper than documents may be.  Its value is an object, and so is
the value of every node below, with one member that says the type, by name or by index, and the
fields of that type.  Each field is what the only member of its name stands for, or its default
if there is none, or nothing if it is optional. -/
theorem load_iff_describes (text : String) (n : Node) : load text = .ok n ↔
    ∃ v, Json.parse text = .ok v ∧ v.depth ≤ 2048 ∧ Describes .node v n := by
  rw [load_iff]
  exact exists_congr fun v => and_congr_right fun _ => and_congr_right fun _ => describes_iff.symm

/-- The members of a document that spells out less than a written tree does. -/
def positionalMembers : List (String × Json) :=
  [("type", .num (.int 19)),
    ("declarations", .arr [.arr [.obj [("type", .str "Identifier"), ("name", .str "x")], .null]]),
    ("kind", .obj [("let", .null)])]

/-- The same as a text. -/
def positional : String :=
  "\x7b\"type\":19,\"declarations\":[[\x7b\"type\":\"Identifier\",\"name\":\"x\"\x7d,null]]," ++
    "\"kind\":\x7b\"let\":null\x7d\x7d"

/-- The declaration of a variable `x` by `let`. -/
def declared : Node := .ofShape (.variableDeclaration [⟨Build.ident "x", none⟩] .let_)

theorem parse_positional : Json.parse positional = .ok (.obj positionalMembers) := by
  have hplain : (Json.obj positionalMembers).Plain Json.AnyNames := by
    simp [positionalMembers, Number.fits]
  have hwritten : (Json.obj positionalMembers).written = positional := by decide
  exact Json.parse_iff_writtenAs.2 (hwritten ▸ hplain.writtenAs_written)

/-- A declaration is loaded from a text that does not name its type, in which the declarator is an
array and the kind is no string. -/
theorem load_positional : load positional = .ok declared ∧
    Json.parse positional = .ok (.obj positionalMembers) ∧
      ("type", .str declared.typeName) ∉ positionalMembers ∧
      (∃ items, ("declarations", .arr [.arr items]) ∈ positionalMembers) ∧
      ∀ s, ("kind", .str s) ∉ positionalMembers := by
  refine ⟨load_iff.2 ⟨_, parse_positional, by decide, rfl⟩, parse_positional, ?_, ?_, ?_⟩
  · simp [positionalMembers]
  · exact ⟨_, List.mem_cons_of_mem _ (List.mem_cons_self ..)⟩
  · simp [positionalMembers]

end Node

end TreeWalk
