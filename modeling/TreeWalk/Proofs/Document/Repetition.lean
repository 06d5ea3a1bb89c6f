/-
Names that are given twice.

Which names of an object mean anything depends on where it sits.  `Sits` leads from a value to
the values that are decoded in it: the fields of a node, as the types that its members give have
them, the items of its lists, and the fields of records, which may be objects or arrays.  An
object that sits where a node is decoded may say its type, its offsets and the fields of its
type, and one that sits where a record is decoded the fields of the record; those are the names
that are `Modelled` there.

What a document describes, the values that sit in it describe as well, `Describes.of_sits`, and
what an object describes it says under names that are given once, `count_le_one`.  So a document
is not decoded if a modelled name is given twice anywhere in it, even by members that agree.
-/
import TreeWalk.Proofs.Document.Edits

namespace TreeWalk

/-! ### Where values sit -/

/-- The second value sits in the first one, and is decoded as the content of a kind of field when
that is. -/
inductive Sits : FieldKind → Json → FieldKind → Json → Prop where
  | here (k : FieldKind) (v : Json) : Sits k v k v
  | nodeField {ms : List (String × Json)} {type v w : Json} {t : NodeType} {spec : FieldSpec}
    {k : FieldKind} (htype : ("type", type) ∈ ms) (ht : DescribesType type t)
    (hspec : spec ∈ t.schema) (hv : (spec.field.spelling, v) ∈ ms) (h : Sits spec.kind v k w) :
    Sits .node (.obj ms) k w
  | optionalNode {ms : List (String × Json)} {k : FieldKind} {w : Json}
    (h : Sits .node (.obj ms) k w) : Sits .optionalNode (.obj ms) k w
  | nodes {vs : List Json} {v w : Json} {k : FieldKind} (hv : v ∈ vs) (h : Sits .node v k w) :
    Sits .nodes (.arr vs) k w
  | elements {vs : List Json} {v w : Json} {k : FieldKind} (hv : v ∈ vs)
    (h : Sits .optionalNode v k w) : Sits .elements (.arr vs) k w
  | records {r : RecordType} {vs : List Json} {v w : Json} {k : FieldKind} (hv : v ∈ vs)
    (h : Sits (.optionalRecord r) v k w) : Sits (.records r) (.arr vs) k w
  | recordField {r : RecordType} {ms : List (String × Json)} {v w : Json} {spec : FieldSpec}
    {k : FieldKind} (hspec : spec ∈ r.schema) (hv : (spec.field.spelling, v) ∈ ms)
    (h : Sits spec.kind v k w) : Sits (.optionalRecord r) (.obj ms) k w
  | recordItem {r : RecordType} {vs : List Json} {v w : Json} {i : Nat} {spec : FieldSpec}
    {k : FieldKind} (hspec : r.schema[i]? = some spec) (hv : vs[i]? = some v)
    (h : Sits spec.kind v k w) : Sits (.optionalRecord r) (.arr vs) k w

/-- The names that mean something for an object that sits where a node or a record is decoded. -/
inductive Modelled (ms : List (String × Json)) : FieldKind → String → Prop where
  | node {name : String} (hname : name = "type" ∨ name = "start" ∨ name = "end") :
    Modelled ms .node name
  | nodeField {type : Json} {t : NodeType} {spec : FieldSpec} (htype : ("type", type) ∈ ms)
    (ht : DescribesType type t) (hspec : spec ∈ t.schema) : Modelled ms .node spec.field.spelling
  | recordField {r : RecordType} {spec : FieldSpec} (hspec : spec ∈ r.schema) :
    Modelled ms (.optionalRecord r) spec.field.spelling

/-- Somewhere in the value an object that is decoded as a node or a record has two members of a
name that is modelled there. -/
def Json.Repeats (v : Json) : Prop :=
  ∃ k ms name, Sits .node v k (.obj ms) ∧ Modelled ms k name ∧ 1 < (ms.map Prod.fst).count name

/-! ### What sits in what is described -/

section Members

variable {ms : List (String × Json)} {name : String} {v w : Json}

theorem count_le_one_of_not_mem (h : name ∉ ms.map Prod.fst) :
    (ms.map Prod.fst).count name ≤ 1 := by
  rw [List.count_eq_zero_of_not_mem h]
  exact Nat.zero_le 1

theorem DescribesOffset.count_le_one {o : Option Offset} (h : DescribesOffset ms name o) :
    (ms.map Prod.fst).count name ≤ 1 := by
  cases h with
  | absent habsent => exact count_le_one_of_not_mem habsent
  | given hgiven => exact hgiven.count_le_one

end Members

section Fields

variable {D : Reading} {specs : List FieldSpec} {spec : FieldSpec}

/-- The members give each field once at most. -/
theorem DescribesFields.count_le_one {ms : List (String × Json)} {xs : Values Node specs}
    (h : DescribesFields D specs ms xs) (hspec : spec ∈ specs) :
    (ms.map Prod.fst).count spec.field.spelling ≤ 1 := by
  induction h with
  | nil => cases hspec
  | given hv _ _ ih =>
    rcases List.mem_cons.1 hspec with rfl | hspec
    · exact hv.count_le_one
    · exact ih hspec
  | absent hv _ _ ih =>
    rcases List.mem_cons.1 hspec with rfl | hspec
    · exact count_le_one_of_not_mem hv
    · exact ih hspec

/-- Whatever a field is given as stands for something. -/
theorem DescribesFields.of_mem {ms : List (String × Json)} {xs : Values Node specs}
    (h : DescribesFields D specs ms xs) (hspec : spec ∈ specs) {v : Json}
    (hv : (spec.field.spelling, v) ∈ ms) : ∃ x, D spec.kind v x := by
  induction h with
  | nil => cases hspec
  | given hw hx _ ih =>
    rcases List.mem_cons.1 hspec with rfl | hspec
    · exact ⟨_, hw.eq_of_mem hv ▸ hx⟩
    · exact ih hspec hv
  | absent hw _ _ ih =>
    rcases List.mem_cons.1 hspec with rfl | hspec
    · exact absurd (List.mem_map_of_mem hv) hw
    · exact ih hspec hv

/-- Whatever stands at the place of a field stands for something. -/
theorem DescribesPlaces.of_getElem? {vs : List Json} {xs : Values Node specs}
    (h : DescribesPlaces D specs vs xs) {i : Nat} (hspec : specs[i]? = some spec) {v : Json}
    (hv : vs[i]? = some v) : ∃ x, D spec.kind v x := by
  induction h generalizing i with
  | nil => cases hspec
  | given hx _ ih =>
    cases i with
    | zero =>
      obtain rfl := Option.some.inj hspec
      obtain rfl := Option.some.inj hv
      exact ⟨_, hx⟩
    | succ i => exact ih hspec hv
  | missing => cases hv

theorem DescribesItems.of_mem {k : FieldKind} {vs : List Json} {xs : List (k.Value Node)}
    (h : DescribesItems D vs k xs) {v : Json} (hv : v ∈ vs) : ∃ x, D k v x := by
  induction h with
  | nil => cases hv
  | cons hx _ ih =>
    rcases List.mem_cons.1 hv with rfl | hv
    · exact ⟨_, hx⟩
    · exact ih hv

end Fields

/-- **What sits in a value that stands for something stands for something.** -/
theorem Sits.describes {k l : FieldKind} {v w : Json} (h : Sits k v l w) :
    ∀ x, Describes k v x → ∃ y, Describes l w y := by
  induction h with
  | here => exact fun x hx => ⟨x, hx⟩
  | nodeField htype ht hspec hv _ ih =>
    rintro n ⟨⟨hn⟩⟩
    cases hn with
    | mk htype' ht' _ _ hfields =>
      obtain rfl := htype'.eq_of_mem htype
      obtain rfl := ht.unique ht'
      obtain ⟨x, hx⟩ := hfields.of_mem hspec hv
      exact ih x hx
  | optionalNode _ ih =>
    rintro x ⟨hx⟩
    cases hx with
    | someNode hn => exact ih _ (.mk (.node hn))
  | nodes hv _ ih =>
    rintro x ⟨hx⟩
    cases hx with
    | nodes h =>
      obtain ⟨n, hn⟩ := h.of_mem hv
      exact ih n hn
  | elements hv _ ih =>
    rintro x ⟨hx⟩
    cases hx with
    | elements h =>
      obtain ⟨e, he⟩ := h.of_mem hv
      exact ih e he
  | records hv _ ih =>
    rintro x ⟨hx⟩
    cases hx with
    | records h =>
      obtain ⟨y, hy⟩ := h.of_mem hv
      exact ih y hy
  | recordField hspec hv _ ih =>
    rintro x ⟨hx⟩
    cases hx with
    | someRecord hx =>
      cases hx with
      | object hfields =>
        obtain ⟨y, hy⟩ := hfields.of_mem hspec hv
        exact ih y hy
  | recordItem hspec hv _ ih =>
    rintro x ⟨hx⟩
    cases hx with
    | someRecord hx =>
      cases hx with
      | array hplaces =>
        obtain ⟨y, hy⟩ := hplaces.of_getElem? hspec hv
        exact ih y hy

/-- **An object that stands for something gives each modelled name once at most.** -/
theorem Modelled.count_le_one {ms : List (String × Json)} {k : FieldKind} {name : String}
    (h : Modelled ms k name) {x : k.Value Node} (hx : Describes k (.obj ms) x) :
    (ms.map Prod.fst).count name ≤ 1 := by
  cases h with
  | node hname =>
    obtain ⟨⟨hn⟩⟩ := hx
    cases hn with
    | mk htype _ hstart hstop _ =>
      rcases hname with rfl | rfl | rfl
      · exact htype.count_le_one
      · exact hstart.count_le_one
      · exact hstop.count_le_one
  | nodeField htype ht hspec =>
    obtain ⟨⟨hn⟩⟩ := hx
    cases hn with
    | mk htype' ht' _ _ hfields =>
      obtain rfl := htype'.eq_of_mem htype
      obtain rfl := ht.unique ht'
      exact hfields.count_le_one hspec
  | recordField hspec =>
    obtain ⟨hx⟩ := hx
    cases hx with
    | someRecord hx =>
      cases hx with
      | object hfields => exact hfields.count_le_one hspec

/-- A value in which a modelled name is given twice stands for no node. -/
theorem Json.Repeats.not_describes {v : Json} (h : v.Repeats) (n : Node) :
    ¬ Describes .node v n := by
  intro hn
  obtain ⟨k, ms, name, hsits, hmodelled, hcount⟩ := h
  obtain ⟨x, hx⟩ := hsits.describes n hn
  exact absurd (hmodelled.count_le_one hx) (Nat.not_le.2 hcount)

/-! ### Documents -/

namespace Node

/-- **A document that gives a modelled name twice is refused.**

Take a JSON document of at most 2048 levels.  If in its value, at any depth, an object that sits
where a node or a record is decoded has two members with a name that is modelled there, whatever
they hold, then loading it fails with a fault of the text or its data.  The text need not have a
value, since a number in it may be out of range or half a character escaped; it fails likewise. -/
theorem load_repeating {text : String} {d : Nat} (htext : Json.Grammar.IsDocument text.toList d)
    (hd : d ≤ 2048) (hrepeats : ∀ v, Json.parse text = .ok v → v.Repeats) :
    ∃ fault line column, load text = .error (.invalid fault line column) := by
  have hdepth : nestingDepth text.toList ≤ 2048 := by
    rw [htext.nestingDepth_eq]
    exact hd
  rw [load_eq_decode hdepth]
  cases hdecode : Document.decode text.toList with
  | error failure => exact ⟨failure.1, _, _, rfl⟩
  | ok n =>
    obtain ⟨v, hv, hn⟩ := Document.decode_eq_ok.1 hdecode
    exact absurd (describes_iff.2 hn) ((hrepeats v hv).not_describes n)

/-- A declaration in which the name that is declared is given twice. -/
def twiceNamed : Json :=
  .obj [("type", .str "VariableDeclaration"),
    ("declarations", .arr [.obj [
      ("id", .obj [("name", .str "x"), ("type", .str "Identifier"), ("name", .str "x")])]])]

theorem load_repeating_twiceNamed :
    Json.Grammar.IsDocument twiceNamed.written.toList 4 ∧
      (∀ v, Json.parse twiceNamed.written = .ok v → v.Repeats) ∧
      ∃ fault line column, load twiceNamed.written = .error (.invalid fault line column) := by
  have hplain : twiceNamed.Plain Json.AnyNames := by
    simp [twiceNamed]
  have hparse : Json.parse twiceNamed.written = .ok twiceNamed :=
    Json.parse_iff_writtenAs.2 hplain.writtenAs_written
  have htext : Json.Grammar.IsDocument twiceNamed.written.toList 4 := Json.isDocument_of_parse hparse
  have hrepeats : ∀ v, Json.parse twiceNamed.written = .ok v → v.Repeats := by
    intro v hv
    obtain rfl : twiceNamed = v := Except.ok.inj (hparse.symm.trans hv)
    have hid : Sits .node twiceNamed .node
        (.obj [("name", .str "x"), ("type", .str "Identifier"), ("name", .str "x")]) := by
      refine .nodeField (List.mem_cons_self ..) (.name .variableDeclaration)
        (List.mem_cons_self ..) (List.mem_cons_of_mem _ (List.mem_cons_self ..)) ?_
      refine .records (List.mem_cons_self ..) ?_
      exact .recordField (List.mem_cons_self ..) (List.mem_cons_self ..) (.here ..)
    have hname : Modelled [("name", .str "x"), ("type", .str "Identifier"), ("name", .str "x")] .node
        (FieldSpec.required .name .text).field.spelling :=
      .nodeField (List.mem_cons_of_mem _ (List.mem_cons_self ..)) (.name .identifier)
        (List.mem_cons_self ..)
    exact ⟨_, _, _, hid, hname, by decide⟩
  exact ⟨htext, hrepeats, load_repeating htext (by decide) hrepeats⟩

end Node

end TreeWalk
