/-
Changes to a document that the tree does not show.

An object of a document is about a node or about a record.  Its members may stand in any order,
members under names that are not modelled may be put in, and a member that says what its absence
would may be left out.  `MembersEdit` is one such change of one object, and `Edit` is one at any
depth.

After a change the members still say what they said under the names that are modelled, `Keeps`.
So the object stands for the same node or record, and then so does everything around it:
`Edit.describes`.  A text that is rewritten by such changes loads as the same tree,
`Node.load_rewritten`, and may have other blanks as well.
-/
import Mathlib.Data.List.Nodup
import Mathlib.Logic.Relation
import TreeWalk.Proofs.Document.Description
import TreeWalk.Proofs.Document.Loading
import TreeWalk.Syntax.Build

namespace TreeWalk

/-! ### Edits -/

/-- What an object of a document is about. -/
inductive Subject where
  | node (type : NodeType)
  | record (type : RecordType)

namespace Subject

/-- The fields of the subject. -/
def schema : Subject → List FieldSpec
  | node t => t.schema
  | record r => r.schema

/-- The names under which something is said about the subject. -/
def modelled : Subject → List String
  | node t => "type" :: "start" :: "end" :: spellings t.schema
  | record r => spellings r.schema

end Subject

/-- A member that says what its absence would: that there is no offset, or what the default of a
field is. -/
inductive Dispensable : Subject → String → Json → Prop where
  | offset (t : NodeType) {name : String} (hname : name = "start" ∨ name = "end") :
    Dispensable (.node t) name .null
  | field {s : Subject} (spec : FieldSpec) {v : Json} {x : spec.kind.Value Node}
    (hspec : spec ∈ s.schema) (hx : spec.absent = some x) (hv : Describes spec.kind v x) :
    Dispensable s spec.field.spelling v

/-- One change of the members of an object. -/
inductive MembersEdit (s : Subject) : List (String × Json) → List (String × Json) → Prop where
  | reorder {ms ms' : List (String × Json)} (h : ms.Perm ms') : MembersEdit s ms ms'
  | insert (before after : List (String × Json)) {name : String} (hname : name ∉ s.modelled)
    (v : Json) : MembersEdit s (before ++ after) (before ++ (name, v) :: after)
  | remove (before after : List (String × Json)) {name : String} {v : Json}
    (h : Dispensable s name v) : MembersEdit s (before ++ (name, v) :: after) (before ++ after)

/-- One change of a value that is the content of a field: of the object that it is, or of a value
inside it. -/
inductive Edit : FieldKind → Json → Json → Prop where
  | node {ms ms' : List (String × Json)} {type : Json} {t : NodeType}
    (htype : Only ms "type" type) (ht : DescribesType type t)
    (h : MembersEdit (.node t) ms ms') : Edit .node (.obj ms) (.obj ms')
  | nodeField (before after : List (String × Json)) (spec : FieldSpec) {type v v' : Json}
    {t : NodeType} (htype : Only (before ++ (spec.field.spelling, v) :: after) "type" type)
    (ht : DescribesType type t) (hspec : spec ∈ t.schema) (h : Edit spec.kind v v') :
    Edit .node (.obj (before ++ (spec.field.spelling, v) :: after))
      (.obj (before ++ (spec.field.spelling, v') :: after))
  | record {r : RecordType} {ms ms' : List (String × Json)} (h : MembersEdit (.record r) ms ms') :
    Edit (.optionalRecord r) (.obj ms) (.obj ms')
  | recordField (before after : List (String × Json)) (spec : FieldSpec) {v v' : Json}
    {r : RecordType} (hspec : spec ∈ r.schema) (h : Edit spec.kind v v') :
    Edit (.optionalRecord r) (.obj (before ++ (spec.field.spelling, v) :: after))
      (.obj (before ++ (spec.field.spelling, v') :: after))
  | recordItem (before after : List Json) (spec : FieldSpec) {v v' : Json} {r : RecordType}
    (hspec : r.schema[before.length]? = some spec) (h : Edit spec.kind v v') :
    Edit (.optionalRecord r) (.arr (before ++ v :: after)) (.arr (before ++ v' :: after))
  | optionalNode {v v' : Json} (h : Edit .node v v') : Edit .optionalNode v v'
  | nodes (before after : List Json) {v v' : Json} (h : Edit .node v v') :
    Edit .nodes (.arr (before ++ v :: after)) (.arr (before ++ v' :: after))
  | elements (before after : List Json) {v v' : Json} (h : Edit .optionalNode v v') :
    Edit .elements (.arr (before ++ v :: after)) (.arr (before ++ v' :: after))
  | records (before after : List Json) {r : RecordType} {v v' : Json}
    (h : Edit (.optionalRecord r) v v') :
    Edit (.records r) (.arr (before ++ v :: after)) (.arr (before ++ v' :: after))

/-- The second text is written for what the first one becomes by any number of edits. -/
def Rewrites (text text' : String) : Prop :=
  ∃ v v' : Json, v.WrittenAs text ∧ Relation.ReflTransGen (Edit .node) v v' ∧ v'.WrittenAs text'

/-! ### Members in another order -/

section Members

variable {ms ms' before after : List (String × Json)} {name other : String} {v w : Json}

theorem Only.perm (h : Only ms name v) (hperm : ms.Perm ms') : Only ms' name v := by
  have hfilter := hperm.filter (·.1 == name)
  rw [h] at hfilter
  exact List.perm_singleton.1 hfilter.symm

theorem not_mem_names_perm (h : name ∉ ms.map Prod.fst) (hperm : ms.Perm ms') :
    name ∉ ms'.map Prod.fst :=
  fun hmem => h ((hperm.map Prod.fst).mem_iff.2 hmem)

theorem only_middle_self : Only (before ++ (name, w) :: after) name v ↔
    w = v ∧ name ∉ (before ++ after).map Prod.fst := by
  rw [← only_cons_self]
  exact ⟨fun h => h.perm List.perm_middle, fun h => h.perm List.perm_middle.symm⟩

theorem only_middle_of_ne (hne : other ≠ name) :
    Only (before ++ (other, w) :: after) name v ↔ Only (before ++ after) name v := by
  have hcons : Only ((other, w) :: (before ++ after)) name v ↔ Only (before ++ after) name v :=
    only_cons_of_ne hne
  rw [← hcons]
  exact ⟨fun h => h.perm List.perm_middle, fun h => h.perm List.perm_middle.symm⟩

theorem mem_names_middle : name ∈ (before ++ (other, w) :: after).map Prod.fst ↔
    name = other ∨ name ∈ (before ++ after).map Prod.fst := by
  rw [(List.perm_middle.map Prod.fst).mem_iff, List.map_cons, List.mem_cons]

end Members

/-! ### What members say -/

/-- The members say the content of the field, or leave it out. -/
inductive SaysField (ms : List (String × Json)) (spec : FieldSpec) :
    spec.kind.Value Node → Prop where
  | given {v : Json} {x : spec.kind.Value Node} (hv : Only ms spec.field.spelling v)
    (hx : Describes spec.kind v x) : SaysField ms spec x
  | absent {x : spec.kind.Value Node} (hv : spec.field.spelling ∉ ms.map Prod.fst)
    (hx : spec.absent = some x) : SaysField ms spec x

theorem DescribesFields.transfer {specs : List FieldSpec} {ms ms' : List (String × Json)}
    {xs : Values Node specs} (h : DescribesFields Describes specs ms xs)
    (hms : ∀ spec ∈ specs, ∀ x, SaysField ms spec x → SaysField ms' spec x) :
    DescribesFields Describes specs ms' xs := by
  induction h with
  | nil ms => exact .nil ms'
  | given hv hx _ ih =>
    obtain ⟨hspec, hspecs⟩ := List.forall_mem_cons.1 hms
    cases hspec _ (.given hv hx) with
    | given hv' hx' => exact .given hv' hx' (ih hspecs)
    | absent hv' hx' => exact .absent hv' hx' (ih hspecs)
  | absent hv hx _ ih =>
    obtain ⟨hspec, hspecs⟩ := List.forall_mem_cons.1 hms
    cases hspec _ (.absent hv hx) with
    | given hv' hx' => exact .given hv' hx' (ih hspecs)
    | absent hv' hx' => exact .absent hv' hx' (ih hspecs)

/-- Whatever the first members say about the subject, the second say too. -/
structure Keeps (s : Subject) (ms ms' : List (String × Json)) : Prop where
  type {t : NodeType} (hs : s = .node t) {v : Json} (h : Only ms "type" v) : Only ms' "type" v
  offset {t : NodeType} (hs : s = .node t) {name : String} (hname : name = "start" ∨ name = "end")
    {o : Option Offset} (h : DescribesOffset ms name o) : DescribesOffset ms' name o
  field {spec : FieldSpec} (hspec : spec ∈ s.schema) {x : spec.kind.Value Node}
    (h : SaysField ms spec x) : SaysField ms' spec x

/-! ### What is kept -/

theorem DescribesType.unique {v : Json} {t t' : NodeType} (h : DescribesType v t)
    (h' : DescribesType v t') : t = t' :=
  Except.ok.inj ((Decode.nodeType_eq_ok.2 h).symm.trans (Decode.nodeType_eq_ok.2 h'))

theorem Describes.unique {k : FieldKind} {v : Json} {x y : k.Value Node} (hx : Describes k v x)
    (hy : Describes k v y) : x = y :=
  Except.ok.inj ((describes_iff.1 hx).symm.trans (describes_iff.1 hy))

theorem Only.unique {ms : List (String × Json)} {name : String} {v w : Json} (hv : Only ms name v)
    (hw : Only ms name w) : v = w :=
  hw.eq_of_mem hv.mem

section Keeping

variable {ms ms' : List (String × Json)}

/-- Members that say as much stand for the same node. -/
theorem Keeps.node {t : NodeType} (h : Keeps (.node t) ms ms') {type : Json}
    (htype : Only ms "type" type) (ht : DescribesType type t) {n : Node}
    (hn : DescribesNode Describes (.obj ms) n) : DescribesNode Describes (.obj ms') n := by
  cases hn with
  | mk htype' ht' hstart hstop hfields =>
    obtain rfl := htype.unique htype'
    obtain rfl := ht.unique ht'
    exact .mk (h.type rfl htype) ht (h.offset rfl (.inl rfl) hstart) (h.offset rfl (.inr rfl) hstop)
      (hfields.transfer fun _ hspec _ => h.field hspec)

/-- Members that say as much stand for the same record. -/
theorem Keeps.record {r : RecordType} (h : Keeps (.record r) ms ms') {x : r.Value Node}
    (hx : DescribesRecord Describes (.obj ms) r x) : DescribesRecord Describes (.obj ms') r x := by
  cases hx with
  | object hfields => exact .object (hfields.transfer fun _ hspec _ => h.field hspec)

/-! ### Fields of a subject -/

theorem Subject.nodup_schema (s : Subject) : (spellings s.schema).Nodup := by
  cases s with
  | node t => exact Decode.nodup_nodeSchema t
  | record r => exact Decode.nodup_recordSchema r

/-- A name is that of one field only. -/
theorem Subject.field_unique {s : Subject} {spec spec' : FieldSpec} (hspec : spec ∈ s.schema)
    (hspec' : spec' ∈ s.schema) (h : spec.field.spelling = spec'.field.spelling) : spec = spec' :=
  List.inj_on_of_nodup_map s.nodup_schema hspec hspec' h

theorem Subject.spelling_mem {s : Subject} {spec : FieldSpec} (h : spec ∈ s.schema) :
    spec.field.spelling ∈ spellings s.schema :=
  List.mem_map_of_mem (f := fun spec : FieldSpec => spec.field.spelling) h

theorem Subject.spellings_subset (s : Subject) : spellings s.schema ⊆ s.modelled := by
  intro name hname
  cases s with
  | node t => exact List.mem_cons_of_mem _ (List.mem_cons_of_mem _ (List.mem_cons_of_mem _ hname))
  | record r => exact hname

/-- A member that is no field is dispensable only as a null offset. -/
theorem Dispensable.of_not_field {t : NodeType} {name : String} {v : Json}
    (h : Dispensable (.node t) name v) (hname : name ∈ ["type", "start", "end"]) :
    (name = "start" ∨ name = "end") ∧ v = .null := by
  cases h with
  | offset t hoffset => exact ⟨hoffset, rfl⟩
  | field spec hspec =>
    exact absurd (Subject.spelling_mem hspec) (Decode.not_mem_nodeSchema t _ hname)

/-- A field is dispensable only if it holds what its absence means. -/
theorem Dispensable.of_field {s : Subject} {spec : FieldSpec} {v : Json}
    (h : Dispensable s spec.field.spelling v) (hspec : spec ∈ s.schema) :
    ∃ x, spec.absent = some x ∧ Describes spec.kind v x := by
  generalize hname : spec.field.spelling = name at h
  cases h with
  | offset t hoffset =>
    have hfixed : name ∈ ["type", "start", "end"] := by
      simp only [List.mem_cons]
      exact .inr (hoffset.imp_right .inl)
    exact absurd (hname ▸ Subject.spelling_mem hspec) (Decode.not_mem_nodeSchema t name hfixed)
  | field spec' hspec' hx hv =>
    obtain rfl := Subject.field_unique hspec hspec' hname
    exact ⟨_, hx, hv⟩

/-- What an optional field may hold. -/
theorem Subject.kind_of_optional {s : Subject} {spec : FieldSpec} (hspec : spec ∈ s.schema)
    (hoptional : spec.presence = .optional) : spec.kind = .optionalNode ∨
      spec.kind = .optionalText ∨ spec.kind = .optionalRecord .catchClause := by
  cases s with
  | node t =>
    cases t <;> simp only [schema, NodeType.schema, List.mem_cons, List.not_mem_nil] at hspec <;>
      grind [FieldSpec.optional, FieldSpec.required, FieldSpec.defaulted]
  | record r =>
    cases r <;> simp only [schema, RecordType.schema, List.mem_cons, List.not_mem_nil] at hspec <;>
      grind [FieldSpec.optional, FieldSpec.required, FieldSpec.defaulted]

/-- Null on an optional field is dispensable. -/
theorem Dispensable.null {s : Subject} (spec : FieldSpec) (hspec : spec ∈ s.schema)
    (hoptional : spec.presence = .optional) : Dispensable s spec.field.spelling .null := by
  have hkind := Subject.kind_of_optional hspec hoptional
  obtain ⟨field, kind, presence⟩ := spec
  obtain rfl : presence = .optional := hoptional
  rcases hkind with rfl | rfl | rfl
  · exact .field _ hspec rfl (.mk .noNode)
  · exact .field _ hspec rfl (.mk .noText)
  · exact .field _ hspec rfl (.mk (.noRecord .catchClause))

/-! ### Changes of the members -/

/-- What the first members say under the name, the second say too, or it was dispensable and is
left out. -/
structure Retains (s : Subject) (ms ms' : List (String × Json)) (name : String) : Prop where
  given {v : Json} (h : Only ms name v) :
    Only ms' name v ∨ Dispensable s name v ∧ name ∉ ms'.map Prod.fst
  absent (h : name ∉ ms.map Prod.fst) : name ∉ ms'.map Prod.fst

/-- A change of the members retains what they say under the names that are modelled. -/
theorem MembersEdit.retains {s : Subject} (h : MembersEdit s ms ms') {name : String}
    (hname : name ∈ s.modelled) : Retains s ms ms' name := by
  cases h with
  | reorder hperm => exact ⟨fun h => .inl (h.perm hperm), fun h => not_mem_names_perm h hperm⟩
  | @insert before after other hother v =>
    have hne : other ≠ name := fun heq => hother (heq ▸ hname)
    refine ⟨fun h => .inl ((only_middle_of_ne hne).2 h), fun h => ?_⟩
    rw [mem_names_middle, not_or]
    exact ⟨hne.symm, h⟩
  | @remove before after other w hw =>
    refine ⟨fun h => ?_, fun h hmem => h (mem_names_middle.2 (.inr hmem))⟩
    by_cases hne : other = name
    · subst hne
      obtain ⟨rfl, habsent⟩ := only_middle_self.1 h
      exact .inr ⟨hw, habsent⟩
    · exact .inl ((only_middle_of_ne hne).1 h)

/-- **A change of the members keeps what they say.** -/
theorem MembersEdit.keeps {s : Subject} (h : MembersEdit s ms ms') : Keeps s ms ms' where
  type := by
    rintro t rfl v hv
    rcases (h.retains (List.mem_cons_self ..)).given hv with hv' | ⟨hdispensable, -⟩
    · exact hv'
    · obtain ⟨hname, -⟩ := hdispensable.of_not_field (List.mem_cons_self ..)
      exact absurd hname (by decide)
  offset := by
    rintro t rfl name hname o ho
    have hfixed : name ∈ ["type", "start", "end"] := by
      rcases hname with rfl | rfl <;> decide
    have hmodelled : name ∈ (Subject.node t).modelled := List.mem_append_left _ hfixed
    have hretains := h.retains hmodelled
    cases ho with
    | absent habsent => exact .absent (hretains.absent habsent)
    | given hv =>
      rcases hretains.given hv with hv' | ⟨hdispensable, habsent⟩
      · exact .given hv'
      · obtain ⟨-, hnull⟩ := hdispensable.of_not_field hfixed
        cases o with
        | none => exact .absent habsent
        | some o => cases hnull
  field := by
    intro spec hspec x hx
    have hretains := h.retains (s.spellings_subset (Subject.spelling_mem hspec))
    cases hx with
    | absent habsent hx => exact .absent (hretains.absent habsent) hx
    | given hv hx =>
      rcases hretains.given hv with hv' | ⟨hdispensable, habsent⟩
      · exact .given hv' hx
      · obtain ⟨y, hy, hvy⟩ := hdispensable.of_field hspec
        exact .absent habsent (hx.unique hvy ▸ hy)

/-- A field whose value is changed keeps the contents if the value does. -/
theorem Keeps.of_field {s : Subject} {spec : FieldSpec} (hspec : spec ∈ s.schema) {v v' : Json}
    (h : ∀ x, Describes spec.kind v x → Describes spec.kind v' x)
    (before after : List (String × Json)) :
    Keeps s (before ++ (spec.field.spelling, v) :: after)
      (before ++ (spec.field.spelling, v') :: after) := by
  have habsent {name : String}
      (hname : name ∉ (before ++ (spec.field.spelling, v) :: after).map Prod.fst) :
      name ∉ (before ++ (spec.field.spelling, v') :: after).map Prod.fst := by
    rwa [mem_names_middle] at hname ⊢
  have hgiven {name : String} (hne : spec.field.spelling ≠ name) {w : Json}
      (hw : Only (before ++ (spec.field.spelling, v) :: after) name w) :
      Only (before ++ (spec.field.spelling, v') :: after) name w :=
    (only_middle_of_ne hne).2 ((only_middle_of_ne hne).1 hw)
  have hfixed {t : NodeType} (hs : s = .node t) {name : String}
      (hname : name ∈ ["type", "start", "end"]) : spec.field.spelling ≠ name := by
    subst hs
    exact fun heq => Decode.not_mem_nodeSchema t name hname (heq ▸ Subject.spelling_mem hspec)
  constructor
  · intro t hs w hw
    exact hgiven (hfixed hs (List.mem_cons_self ..)) hw
  · intro t hs name hname o ho
    have hne : spec.field.spelling ≠ name := hfixed hs (by rcases hname with rfl | rfl <;> decide)
    cases ho with
    | absent hname => exact .absent (habsent hname)
    | given hw => exact .given (hgiven hne hw)
  · intro other hother x hx
    cases hx with
    | absent hname hx => exact .absent (habsent hname) hx
    | given hw hx =>
      by_cases heq : spec.field.spelling = other.field.spelling
      · obtain rfl := Subject.field_unique hspec hother heq
        obtain ⟨rfl, hname⟩ := only_middle_self.1 hw
        exact .given (only_middle_self.2 ⟨rfl, hname⟩) (h _ hx)
      · exact .given (hgiven heq hw) hx

end Keeping

/-! ### Changes at any depth -/

theorem DescribesItems.of_middle {k : FieldKind} {before after : List Json} {v v' : Json}
    {xs : List (k.Value Node)} (h : DescribesItems Describes (before ++ v :: after) k xs)
    (hv : ∀ x, Describes k v x → Describes k v' x) :
    DescribesItems Describes (before ++ v' :: after) k xs := by
  induction before generalizing xs with
  | nil =>
    cases h with
    | cons hx h => exact .cons (hv _ hx) h
  | cons w before ih =>
    cases h with
    | cons hx h => exact .cons hx (ih h)

theorem DescribesPlaces.of_middle {specs : List FieldSpec} {before after : List Json} {v v' : Json}
    {xs : Values Node specs} (h : DescribesPlaces Describes specs (before ++ v :: after) xs)
    {spec : FieldSpec} (hspec : specs[before.length]? = some spec)
    (hv : ∀ x, Describes spec.kind v x → Describes spec.kind v' x) :
    DescribesPlaces Describes specs (before ++ v' :: after) xs := by
  induction before generalizing specs xs with
  | nil =>
    cases h with
    | given hx h =>
      obtain rfl := Option.some.inj hspec
      exact .given (hv _ hx) h
  | cons w before ih =>
    cases h with
    | given hx h => exact .given hx (ih h hspec)

/-- **An edit keeps what the value stands for.** -/
theorem Edit.describes {k : FieldKind} {v v' : Json} (h : Edit k v v') :
    ∀ x, Describes k v x → Describes k v' x := by
  induction h with
  | node htype ht h =>
    rintro n ⟨⟨hn⟩⟩
    exact .mk (.node (h.keeps.node htype ht hn))
  | nodeField before after spec htype ht hspec _ ih =>
    rintro n ⟨⟨hn⟩⟩
    exact .mk (.node ((Keeps.of_field (s := .node _) hspec ih before after).node htype ht hn))
  | record h =>
    rintro x ⟨hx⟩
    cases hx with
    | someRecord hx => exact .mk (.someRecord (h.keeps.record hx))
  | recordField before after spec hspec _ ih =>
    rintro x ⟨hx⟩
    cases hx with
    | someRecord hx =>
      have hkeeps := Keeps.of_field (s := .record _) hspec ih before after
      exact .mk (.someRecord (hkeeps.record hx))
  | recordItem before after spec hspec _ ih =>
    rintro x ⟨hx⟩
    cases hx with
    | someRecord hx =>
      cases hx with
      | array h => exact .mk (.someRecord (.array (h.of_middle hspec ih)))
  | optionalNode h ih =>
    rintro x ⟨hx⟩
    cases hx with
    | noNode => cases h
    | someNode hn =>
      obtain ⟨⟨hn'⟩⟩ := ih _ (.mk (.node hn))
      exact .mk (.someNode hn')
  | nodes before after _ ih =>
    rintro x ⟨hx⟩
    cases hx with
    | nodes h => exact .mk (.nodes (h.of_middle ih))
  | elements before after _ ih =>
    rintro x ⟨hx⟩
    cases hx with
    | elements h => exact .mk (.elements (h.of_middle ih))
  | records before after _ ih =>
    rintro x ⟨hx⟩
    cases hx with
    | records h => exact .mk (.records (h.of_middle ih))

/-- So do any number of edits. -/
theorem describes_of_edits {k : FieldKind} {v v' : Json}
    (h : Relation.ReflTransGen (Edit k) v v') {x : k.Value Node} (hx : Describes k v x) :
    Describes k v' x := by
  induction h with
  | refl => exact hx
  | tail _ hedit ih => exact hedit.describes x ih

namespace Node

/-- **A rewritten document loads as the same tree.** -/
theorem load_rewritten {text text' : String} {n : Node} (h : load text = .ok n)
    (hrewrites : Rewrites text text') (hdepth : nestingDepth text'.toList ≤ maxDepth) :
    load text' = .ok n := by
  obtain ⟨v, v', hv, hedits, hv'⟩ := hrewrites
  obtain ⟨w, hw, -, hn⟩ := load_iff.1 h
  obtain rfl : w = v := Except.ok.inj (hw.symm.trans (Json.parse_iff_writtenAs.2 hv))
  have hdescribes := describes_of_edits hedits (describes_iff.2 hn)
  have hparse := Json.parse_iff_writtenAs.2 hv'
  rw [(Json.isDocument_of_parse hparse).nestingDepth_eq] at hdepth
  exact load_iff.2 ⟨v', hparse, hdepth, describes_iff.1 hdescribes⟩

/-- A declaration that says what it could leave out. -/
def openDeclaration : Json :=
  .obj [("type", .str "VariableDeclaration"),
    ("declarations", .arr [.obj [
      ("id", .obj [("type", .str "Identifier"), ("name", .str "x"), ("start", .null)]),
      ("init", .null)]]),
    ("kind", .str "var")]

/-- The same without that, and with more said about the declarator. -/
def annotatedDeclaration : Json :=
  .obj [("declarations", .arr [.obj [
      ("type", .num (.int 7)), ("type", .arr []),
      ("id", .obj [("type", .str "Identifier"), ("name", .str "x")])]]),
    ("type", .str "VariableDeclaration")]

theorem edits_annotatedDeclaration :
    Relation.ReflTransGen (Edit .node) openDeclaration annotatedDeclaration := by
  have htype : DescribesType (.str "VariableDeclaration") .variableDeclaration :=
    .name .variableDeclaration
  have hident : DescribesType (.str "Identifier") .identifier := .name .identifier
  -- The declarator is changed when the members around it are in their places.
  have hinside {d d' : Json} (h : Edit (.optionalRecord .declarator) d d') :
      Edit .node (.obj [("declarations", .arr [d]), ("type", .str "VariableDeclaration")])
        (.obj [("declarations", .arr [d']), ("type", .str "VariableDeclaration")]) :=
    .nodeField [] [_] (.required .declarations (.records .declarator)) rfl htype
      (List.mem_cons_self ..) (.records [] [] h)
  have hkind : Dispensable (.node .variableDeclaration) "kind" (.str "var") :=
    .field (.defaulted .kind .declarationKind) (List.mem_cons_of_mem _ (List.mem_cons_self ..)) rfl
      (.mk (.declarationKind (.name rfl)))
  have hinit : Dispensable (.record .declarator) "init" .null :=
    .null (.optional .init .optionalNode) (List.mem_cons_of_mem _ (List.mem_cons_self ..)) rfl
  have hother : "type" ∉ (Subject.record .declarator).modelled := by decide
  refine .head (.node rfl htype (.remove [_, _] [] hkind)) ?_
  refine .head (.node rfl htype (.reorder (List.Perm.swap ..))) ?_
  refine .head (hinside (.record (.remove [_] [] hinit))) ?_
  refine .head (hinside (.record (.insert [] _ hother (.arr [])))) ?_
  refine .head (hinside (.record (.insert [] _ hother (.num (.int 7))))) ?_
  refine .head (hinside (.recordField [_, _] [] (.required .id .node) (List.mem_cons_self ..)
    (.node rfl hident (.remove [_, _] [] (.offset .identifier (.inl rfl)))))) ?_
  exact .refl

theorem load_rewritten_annotated :
    load openDeclaration.written = .ok (Build.var "x" none) ∧
      Rewrites openDeclaration.written ("\n" ++ annotatedDeclaration.written) ∧
      nestingDepth ("\n" ++ annotatedDeclaration.written).toList ≤ maxDepth ∧
      load ("\n" ++ annotatedDeclaration.written) = .ok (Build.var "x" none) := by
  have hplain : openDeclaration.Plain Json.AnyNames := by
    simp [openDeclaration]
  have hplain' : annotatedDeclaration.Plain Json.AnyNames := by
    simp [annotatedDeclaration, Number.fits]
  have hload : load openDeclaration.written = .ok (Build.var "x" none) :=
    load_iff.2 ⟨_, Json.parse_iff_writtenAs.2 hplain.writtenAs_written, by decide, rfl⟩
  have hannotated : annotatedDeclaration.WrittenAs ("\n" ++ annotatedDeclaration.written) := by
    rw [Json.WrittenAs, String.toList_append]
    exact hplain'.writtenAs_written.behind_blanks (by decide)
  have hrewrites : Rewrites openDeclaration.written ("\n" ++ annotatedDeclaration.written) :=
    ⟨_, _, hplain.writtenAs_written, edits_annotatedDeclaration, hannotated⟩
  have hdepth : nestingDepth ("\n" ++ annotatedDeclaration.written).toList ≤ maxDepth := by
    rw [(Json.isDocument_of_parse (Json.parse_iff_writtenAs.2 hannotated)).nestingDepth_eq]
    decide
  exact ⟨hload, hrewrites, hdepth, load_rewritten hload hrewrites hdepth⟩

end Node

end TreeWalk
