/-
Syntax trees from JSON values.

A node is decoded from an object in three rounds over its members: the offsets, the
type, and then the fields in the schema of that type.  Members that are in none of
the three are ignored; one that is modelled may not occur twice.  Each round reports
the first member that is wrong, and a field that is missing is reported when all
members have been seen.

A record may also be given as an array of its fields.
-/
import TreeWalk.Document.Error
import TreeWalk.Document.Schema
import TreeWalk.Syntax.Node

namespace TreeWalk

namespace Decode

/-- A decoded value, or why there is none. -/
abbrev Result (α : Type) := Except DataFault α

/-- The value is not what was expected. -/
def mismatch {α : Type} (v : Json) (expected : String) : Result α :=
  .error (.invalidType (.ofJson v) expected)

/-! ### Offsets -/

/-- Decodes an offset, which `null` says is not recorded. -/
def offset : Json → Result (Option Offset)
  | .null => .ok none
  | .num (.int v) =>
    if 0 ≤ v ∧ v ≤ 0xffffffff then .ok (some (.ofNat v.toNat))
    else .error (.invalidValue (.integer v) "u32")
  | v => mismatch v "u32"

/-- Decodes the offsets among the members, given what has been decoded already. -/
def offsets (start stop : Option (Option Offset)) :
    List (String × Json) → Result (Option Offset × Option Offset)
  | [] => .ok (start.getD none, stop.getD none)
  | (name, v) :: rest =>
    if name = "start" then
      if start.isSome then .error (.duplicateField "start")
      else do offsets (some (← offset v)) stop rest
    else if name = "end" then
      if stop.isSome then .error (.duplicateField "end")
      else do offsets start (some (← offset v)) rest
    else offsets start stop rest

/-! ### Types -/

/-- Decodes a type, given by its name or by its place in the list of types. -/
def nodeType : Json → Result NodeType
  | .str s =>
    match NodeType.ofName? s with
    | some t => .ok t
    | none => .error (.unknownVariant s (NodeType.all.map NodeType.name))
  | .num (.int v) =>
    if v < 0 then mismatch (.num (.int v)) "variant identifier"
    else
      match NodeType.all[v.toNat]? with
      | some t => .ok t
      | none => .error (.invalidValue (.integer v)
          ("variant index 0 <= i < " ++ toString NodeType.all.length))
  | v => mismatch v "variant identifier"

/-- Decodes the type among the members, given one that has been decoded already. -/
def memberType (seen : Option NodeType) : List (String × Json) → Result NodeType
  | [] =>
    match seen with
    | some t => .ok t
    | none => .error (.missingField "type")
  | (name, v) :: rest =>
    if name = "type" then
      if seen.isSome then .error (.duplicateField "type")
      else do memberType (some (← nodeType v)) rest
    else memberType seen rest

/-! ### Scalars -/

/-- Decodes one of several names.  A name may also be the only member of an object, without
content. -/
def variant {α : Type} (choices : List (String × α)) : Json → Result α
  | .str s => choose s
  | .obj [(s, v)] => do
    let choice ← choose s
    match v with
    | .null | .obj [] => .ok choice
    | v => mismatch v "unit"
  | .obj _ => .error (.invalidValue .map "map with a single key")
  | v => mismatch v "string or map"
where
  /-- The choice of a given name. -/
  choose (s : String) : Result α :=
    match choices.lookup s with
    | some choice => .ok choice
    | none => .error (.unknownVariant s (choices.map Prod.fst))

/-- The keywords of declarations. -/
def declarationKinds : List (String × DeclarationKind) :=
  [("var", .var), ("let", .let_), ("const", .const)]

/-- The kinds of properties. -/
def propertyKinds : List (String × PropertyKind) :=
  [("init", .init), ("get", .get), ("set", .set)]

/-! ### Collecting fields -/

/-- Fills the slot that a name is for, if the schema has one. -/
def fill (name : String) (decode : (k : FieldKind) → Result (k.Value Node)) :
    (specs : List FieldSpec) → Slots Node specs → Result (Slots Node specs)
  | [], () => .ok ()
  | spec :: rest, (slot, slots) =>
    if spec.field.spelling = name then
      if slot.isSome then .error (.duplicateField name)
      else (decode spec.kind).map fun v => (some v, slots)
    else (fill name decode rest slots).map fun slots => (slot, slots)

/-- Completes the slots: a field that is absent is empty, has its default, or is missed. -/
def complete : (specs : List FieldSpec) → Slots Node specs → Result (Values Node specs)
  | [], () => .ok ()
  | spec :: rest, (slot, slots) =>
    match slot <|> spec.absent with
    | some v => (complete rest slots).map fun vs => (v, vs)
    | none => .error (.missingField spec.field.spelling)

/-- How messages name a record and its fields. -/
def recordSize (r : RecordType) : String :=
  "struct " ++ r.name ++ " with " ++ toString r.schema.length ++ " elements"

/-- A node from its members, given how to decode the fields of a schema. -/
def nodeOf (members : List (String × Json))
    (fields : (specs : List FieldSpec) → Result (Slots Node specs)) : Result Node := do
  let (start, stop) ← offsets none none members
  let t ← memberType none members
  let slots ← fields t.schema
  let values ← complete t.schema slots
  .ok ⟨Shape.ofValues t values, start, stop⟩

/-- A record from its members, given how to decode the fields of a schema. -/
def recordOf (r : RecordType) (fields : (specs : List FieldSpec) → Result (Slots Node specs)) :
    Result (r.Value Node) := do
  let slots ← fields r.schema
  let values ← complete r.schema slots
  .ok (r.ofValues values)

/-- The fields that an array ends before, `count` of which came in it: those with a default take
it. -/
def missing (r : RecordType) (count : Nat) : (specs : List FieldSpec) → Result (Values Node specs)
  | [] => .ok ()
  | spec :: rest =>
    match (if spec.presence = .defaulted then spec.kind.unsaid else none) with
    | some v => (missing r count rest).map fun vs => (v, vs)
    | none => .error (.invalidLength count (recordSize r))

/-! ### Nodes and records -/

mutual
/-- Decodes the content of a field. -/
def value : (k : FieldKind) → Json → Result (k.Value Node)
  | .node, .obj ms => nodeOf ms fun specs => fields specs (Slots.none specs) ms
  | .node, v => mismatch v "struct Node"
  | .optionalNode, .null => .ok none
  | .optionalNode, .obj ms =>
    (nodeOf ms fun specs => fields specs (Slots.none specs) ms).map some
  | .optionalNode, v => mismatch v "struct Node"
  | .nodes, .arr items => nodes items
  | .nodes, v => mismatch v "a sequence"
  | .elements, .arr items => elements items
  | .elements, v => mismatch v "a sequence"
  | .records r, .arr items => records r items
  | .records _, v => mismatch v "a sequence"
  | .optionalRecord _, .null => .ok none
  | .optionalRecord r, .obj ms =>
    (recordOf r fun specs => fields specs (Slots.none specs) ms).map some
  | .optionalRecord r, .arr items =>
    (positional r r.schema 0 items).map fun vs => some (r.ofValues vs)
  | .optionalRecord r, v => mismatch v ("struct " ++ r.name)
  | .text, .str s => .ok s
  | .text, v => mismatch v "a string"
  | .optionalText, .null => .ok none
  | .optionalText, .str s => .ok (some s)
  | .optionalText, v => mismatch v "a string"
  | .flag _, .bool b => .ok b
  | .flag _, v => mismatch v "a boolean"
  | .json, v => .ok v.normalize
  | .declarationKind, v => variant declarationKinds v
  | .propertyKind, v => variant propertyKinds v
termination_by structural _ v => v
/-- Decodes the nodes of a list. -/
def nodes : List Json → Result (List Node)
  | [] => .ok []
  | v :: rest => do
    let n ← value .node v
    let ns ← nodes rest
    .ok (n :: ns)
termination_by structural vs => vs
/-- Decodes the elements of an array literal. -/
def elements : List Json → Result (List (Option Node))
  | [] => .ok []
  | v :: rest => do
    let n ← value .optionalNode v
    let ns ← elements rest
    .ok (n :: ns)
termination_by structural vs => vs
/-- Decodes the records of a list. -/
def records (r : RecordType) : List Json → Result (List (r.Value Node))
  | [] => .ok []
  | v :: rest => do
    let x ←
      match v with
      | .obj ms => recordOf r fun specs => fields specs (Slots.none specs) ms
      | .arr items => (positional r r.schema 0 items).map r.ofValues
      | v => mismatch v ("struct " ++ r.name)
    let xs ← records r rest
    .ok (x :: xs)
termination_by structural vs => vs
/-- Decodes the members that are fields of a schema, given those decoded already. -/
def fields (specs : List FieldSpec) (slots : Slots Node specs) :
    List (String × Json) → Result (Slots Node specs)
  | [] => .ok slots
  | (name, v) :: rest => do
    let slots ← fill name (fun k => value k v) specs slots
    fields specs slots rest
termination_by structural ms => ms
/-- Decodes the fields of a record from the items of an array, `count` of which came before. -/
def positional (r : RecordType) :
    (specs : List FieldSpec) → Nat → List Json → Result (Values Node specs)
  | specs, count, [] => missing r count specs
  | [], count, items =>
    .error (.invalidLength (count + items.length) (toString count ++ " elements in sequence"))
  | spec :: specs, count, v :: items => do
    let x ← value spec.kind v
    let xs ← positional r specs (count + 1) items
    .ok (x, xs)
termination_by structural _ _ vs => vs
end

end Decode

/-- Decodes a syntax tree. -/
def Node.ofJson (v : Json) : Except DataFault Node := Decode.value .node v

end TreeWalk
