/-
A tree is decoded from its document.

`Reads` says of members that they are the fields of a schema, one after another, and that
each is decoded to the content it is for.  Such members fill the slots of the schema in
turn, whatever else stands in front of them or behind them, and a node or a record comes
out with the contents: `nodeOf_reads` and `recordOf_reads`.  That the fields of a document
are read in this sense is a matter of each shape: `reads_members`.

The value in a literal is normalized as it is decoded.
-/
import TreeWalk.Document.Decode
import TreeWalk.Proofs.Document.Encoding

namespace TreeWalk

/-- The names that the fields of a schema have in a document. -/
def spellings (specs : List FieldSpec) : List String := specs.map (·.field.spelling)

/-- The slots that are all filled. -/
def Slots.full {α : Type} : (specs : List FieldSpec) → Values α specs → Slots α specs
  | [], () => ()
  | _ :: rest, (x, xs) => (some x, Slots.full rest xs)

namespace Decode

theorem ok_bind {α β : Type} (a : α) (f : α → Result β) : (.ok a >>= f) = f a := rfl

/-! ### Schemas -/

/-- A schema does not name a field twice. -/
theorem nodup_nodeSchema (t : NodeType) : (spellings t.schema).Nodup := by
  cases t <;> decide

theorem nodup_recordSchema (r : RecordType) : (spellings r.schema).Nodup := by
  cases r <;> decide

/-- No field is named as the type or an offset is. -/
theorem not_mem_nodeSchema (t : NodeType) :
    ∀ name ∈ ["type", "start", "end"], name ∉ spellings t.schema := by
  cases t <;> decide

/-! ### Filling slots -/

theorem fill_of_not_mem {name : String} (decode : (k : FieldKind) → Result (k.Value Node))
    {specs : List FieldSpec} (h : name ∉ spellings specs) (slots : Slots Node specs) :
    fill name decode specs slots = .ok slots := by
  induction specs with
  | nil => rfl
  | cons spec rest ih =>
    obtain ⟨slot, slots⟩ := slots
    have hne : spec.field.spelling ≠ name := (List.ne_of_not_mem_cons h).symm
    rw [fill, if_neg hne, ih (List.not_mem_of_not_mem_cons h)]
    rfl

/-- Members that no field is named like fill nothing. -/
theorem fields_of_not_mem {specs : List FieldSpec} {ms : List (String × Json)}
    (h : ∀ name ∈ ms.map Prod.fst, name ∉ spellings specs) (slots : Slots Node specs) :
    fields specs slots ms = .ok slots := by
  induction ms with
  | nil => rfl
  | cons m ms ih =>
    obtain ⟨name, v⟩ := m
    rw [fields, fill_of_not_mem _ (h name (List.mem_cons_self ..))]
    exact ih fun name hname => h name (List.mem_cons_of_mem _ hname)

/-- A slot stays as it is where no member is for it. -/
theorem fields_cons {spec : FieldSpec} {rest : List FieldSpec} {ms : List (String × Json)}
    (h : spec.field.spelling ∉ ms.map Prod.fst) (slot : Option (spec.kind.Value Node))
    (slots : Slots Node rest) :
    fields (spec :: rest) (slot, slots) ms =
      (fields rest slots ms).map fun slots => (slot, slots) := by
  induction ms generalizing slots with
  | nil => rfl
  | cons m ms ih =>
    obtain ⟨name, v⟩ := m
    have hne : spec.field.spelling ≠ name := List.ne_of_not_mem_cons h
    rw [fields, fields, fill, if_neg hne]
    cases hfill : fill name (fun k => value k v) rest slots with
    | error fault => rfl
    | ok slots' => exact ih (List.not_mem_of_not_mem_cons h) slots'

/-- The members are the fields of a schema in their order, each decoded to its content. -/
inductive Reads : (specs : List FieldSpec) → List (String × Json) → Values Node specs → Prop where
  | nil : Reads [] [] ()
  | cons {spec : FieldSpec} {rest : List FieldSpec} {v : Json} {x : spec.kind.Value Node}
    {ms : List (String × Json)} {xs : Values Node rest} (hv : value spec.kind v = .ok x)
    (h : Reads rest ms xs) : Reads (spec :: rest) ((spec.field.spelling, v) :: ms) (x, xs)

theorem Reads.names {specs : List FieldSpec} {ms : List (String × Json)} {xs : Values Node specs}
    (h : Reads specs ms xs) : ms.map Prod.fst = spellings specs := by
  induction h with
  | nil => rfl
  | cons _ _ ih => rw [List.map_cons, ih]; rfl

/-- The fields of a schema fill all its slots. -/
theorem Reads.fields_eq {specs : List FieldSpec} {ms : List (String × Json)}
    {xs : Values Node specs} (h : Reads specs ms xs) (hnodup : (spellings specs).Nodup)
    (tail : List (String × Json)) (htail : ∀ name ∈ tail.map Prod.fst, name ∉ spellings specs) :
    fields specs (Slots.none specs) (ms ++ tail) = .ok (Slots.full specs xs) := by
  induction h with
  | nil => exact fields_of_not_mem (fun _ _ => List.not_mem_nil) _
  | @cons spec rest v x ms xs hv h ih =>
    -- The first member fills the first slot, and none behind it is for that slot again.
    obtain ⟨hfresh, hnodup⟩ := List.nodup_cons.1 hnodup
    have hbehind : spec.field.spelling ∉ (ms ++ tail).map Prod.fst := by
      rw [List.map_append, h.names, List.mem_append, not_or]
      exact ⟨hfresh, fun hmem => htail _ hmem (List.mem_cons_self ..)⟩
    have hrest := ih hnodup fun name hname => List.not_mem_of_not_mem_cons (htail name hname)
    have hfill : fill spec.field.spelling (fun k => value k v) (spec :: rest)
        (Slots.none (spec :: rest)) = .ok (some x, Slots.none rest) := by
      rw [Slots.none, fill, if_pos rfl, hv]
      rfl
    rw [List.cons_append, fields, hfill]
    show fields (spec :: rest) (some x, Slots.none rest) (ms ++ tail) = _
    rw [fields_cons hbehind, hrest]
    rfl

theorem complete_full {specs : List FieldSpec} (xs : Values Node specs) :
    complete specs (Slots.full specs xs) = .ok xs := by
  induction specs with
  | nil => rfl
  | cons spec rest ih =>
    obtain ⟨x, xs⟩ := xs
    show (complete rest (Slots.full rest xs)).map (fun vs => (x, vs)) = .ok (x, xs)
    rw [ih]
    rfl

/-! ### Nodes and records -/

theorem offset_ofOffset (o : Option Offset) : offset (.ofOffset o) = .ok o := by
  cases o with
  | none => rfl
  | some o =>
    have hlt := o.toNat_lt
    have hfits : (0 : Int) ≤ o.toNat ∧ (o.toNat : Int) ≤ 0xffffffff := by omega
    show (if (0 : Int) ≤ o.toNat ∧ (o.toNat : Int) ≤ 0xffffffff then
      (.ok (some (.ofNat (o.toNat : Int).toNat)) : Result (Option Offset)) else _) = _
    rw [if_pos hfits, Int.toNat_natCast, UInt32.ofNat_toNat]

theorem offsets_append {ms : List (String × Json)}
    (h : ∀ name ∈ ms.map Prod.fst, name ≠ "start" ∧ name ≠ "end")
    (start stop : Option (Option Offset)) (tail : List (String × Json)) :
    offsets start stop (ms ++ tail) = offsets start stop tail := by
  induction ms with
  | nil => rfl
  | cons m ms ih =>
    obtain ⟨name, v⟩ := m
    obtain ⟨hstart, hend⟩ := h name (List.mem_cons_self ..)
    rw [List.cons_append, offsets, if_neg hstart, if_neg hend]
    exact ih fun name hname => h name (List.mem_cons_of_mem _ hname)

theorem memberType_of_not_mem {ms : List (String × Json)} (h : "type" ∉ ms.map Prod.fst)
    (seen : Option NodeType) : memberType seen ms = memberType seen [] := by
  induction ms with
  | nil => rfl
  | cons m ms ih =>
    obtain ⟨name, v⟩ := m
    have hne : name ≠ "type" := (List.ne_of_not_mem_cons h).symm
    rw [memberType, if_neg hne]
    exact ih (List.not_mem_of_not_mem_cons h)

/-- **A node is decoded from its members.** -/
theorem nodeOf_reads {t : NodeType} {ms : List (String × Json)} {xs : Values Node t.schema}
    (h : Reads t.schema ms xs) (start stop : Option Offset) :
    value .node (.obj (Node.membersOf t.name ms start stop)) =
      .ok ⟨Shape.ofValues t xs, start, stop⟩ := by
  -- Each of the three rounds passes over the members of the other two.
  have hnames (name : String) (hname : name ∈ ["type", "start", "end"]) :
      name ∉ ms.map Prod.fst := by
    rw [h.names]
    exact not_mem_nodeSchema t name hname
  have hoffsets : offsets none none (Node.membersOf t.name ms start stop) =
      .ok (start, stop) := by
    have hms : ∀ name ∈ ms.map Prod.fst, name ≠ "start" ∧ name ≠ "end" := by
      intro name hname
      constructor
      · rintro rfl
        exact hnames "start" (by decide) hname
      · rintro rfl
        exact hnames "end" (by decide) hname
    show offsets none none (ms ++ [("start", .ofOffset start), ("end", .ofOffset stop)]) = _
    rw [offsets_append hms]
    have hne : "end" ≠ "start" := by decide
    simp only [offsets, if_true, if_neg hne, Option.isSome_none, Bool.false_eq_true, if_false,
      offset_ofOffset, ok_bind, Option.getD_some]
  have htype : memberType none (Node.membersOf t.name ms start stop) = .ok t := by
    have hbehind : "type" ∉
        (ms ++ [("start", Json.ofOffset start), ("end", .ofOffset stop)]).map Prod.fst := by
      rw [List.map_append, List.mem_append, not_or]
      exact ⟨hnames "type" (by decide), by simp⟩
    have hname : nodeType (.str t.name) = .ok t := by
      rw [nodeType, NodeType.ofName?_name]
    rw [Node.membersOf, memberType, if_pos rfl, hname]
    exact memberType_of_not_mem hbehind (some t)
  have hfields : fields t.schema (Slots.none t.schema) (Node.membersOf t.name ms start stop) =
      .ok (Slots.full t.schema xs) := by
    have hskip := fill_of_not_mem (fun k => value k (.str t.name))
      (not_mem_nodeSchema t "type" (by decide)) (Slots.none t.schema)
    rw [Node.membersOf, fields, hskip]
    refine h.fields_eq (nodup_nodeSchema t) _ ?_
    intro name hname
    refine not_mem_nodeSchema t name (List.mem_cons_of_mem _ hname)
  simp only [value, nodeOf, hoffsets, htype, hfields, complete_full, ok_bind]

/-- The value is a record as an object, whose fields are decoded to what the record holds. -/
def ReadsRecord (r : RecordType) (v : Json) (x : r.Value Node) : Prop :=
  ∃ ms xs, v = .obj ms ∧ Reads r.schema ms xs ∧ r.ofValues xs = x

/-- **A record is decoded from its members.** -/
theorem recordOf_reads {r : RecordType} {ms : List (String × Json)} {xs : Values Node r.schema}
    (h : Reads r.schema ms xs) :
    recordOf r (fun specs => fields specs (Slots.none specs) ms) = .ok (r.ofValues xs) := by
  have hfields : fields r.schema (Slots.none r.schema) ms = .ok (Slots.full r.schema xs) := by
    have hfull := h.fields_eq (nodup_recordSchema r) [] fun _ hname =>
      absurd hname List.not_mem_nil
    rwa [List.append_nil] at hfull
  simp only [recordOf, hfields, complete_full, ok_bind]

/-! ### Contents of fields -/

section Contents

variable {f : Node → Node}

/-- The tree is decoded from its document, and comes out with `f` done to it. -/
def Returns (f : Node → Node) (n : Node) : Prop := value .node n.toJson = .ok (f n)

theorem value_optional_of_node {v : Json} {n : Node} (h : value .node v = .ok n) :
    value .optionalNode v = .ok (some n) := by
  cases v with
  | obj ms =>
    have hsome : value .optionalNode (.obj ms) = (value .node (.obj ms)).map some := by
      simp only [value]
    rw [hsome, h]
    rfl
  | _ => cases h

theorem value_optionalNode {o : Option Node} (h : ∀ n ∈ o.toList, Returns f n) :
    value .optionalNode (.orNull (o.map Node.toJson)) = .ok (o.map f) := by
  cases o with
  | none => rfl
  | some n => exact value_optional_of_node (h n (List.mem_cons_self ..))

theorem value_nodes {ns : List Node} (h : ∀ n ∈ ns, Returns f n) :
    value .nodes (.arr (ns.map Node.toJson)) = .ok (ns.map f) := by
  rw [value]
  induction ns with
  | nil => rfl
  | cons n ns ih =>
    have hn : value .node n.toJson = .ok (f n) := h n (List.mem_cons_self ..)
    have hns := ih fun m hm => h m (List.mem_cons_of_mem _ hm)
    simp only [List.map_cons, nodes, hn, hns, ok_bind]

theorem value_elements {es : List (Option Node)}
    (h : ∀ n ∈ es.flatMap Option.toList, Returns f n) :
    value .elements (.arr ((es.map (Option.map Node.toJson)).map Json.orNull)) =
      .ok (es.map (Option.map f)) := by
  rw [value]
  induction es with
  | nil => rfl
  | cons e es ih =>
    rw [List.flatMap_cons, List.forall_mem_append] at h
    have he := value_optionalNode h.1
    have hes := ih h.2
    simp only [List.map_cons, elements, he, hes, ok_bind]

section Records

variable {r : RecordType} {α β : Type} {g : α → β} {e : β → Json} {x : α → r.Value Node}

theorem value_records {as : List α} (h : ∀ a ∈ as, ReadsRecord r (e (g a)) (x a)) :
    value (.records r) (.arr ((as.map g).map e)) = .ok (as.map x) := by
  rw [value]
  induction as with
  | nil => rfl
  | cons a as ih =>
    obtain ⟨ms, xs, hv, hreads, hx⟩ := h a (List.mem_cons_self ..)
    have has := ih fun b hb => h b (List.mem_cons_of_mem _ hb)
    simp only [List.map_cons, hv, records, recordOf_reads hreads, has, hx, ok_bind]

theorem value_optionalRecord {a : Option α} (h : ∀ b ∈ a.toList, ReadsRecord r (e (g b)) (x b)) :
    value (.optionalRecord r) (.orNull ((a.map g).map e)) = .ok (a.map x) := by
  cases a with
  | none => rfl
  | some a =>
    obtain ⟨ms, xs, hv, hreads, hx⟩ := h a (List.mem_cons_self ..)
    show value (.optionalRecord r) (e (g a)) = .ok (some (x a))
    rw [hv, value, recordOf_reads hreads, hx]
    rfl

end Records

theorem value_json (v : Json) : value .json v = .ok v.normalize := by
  cases v <;> rfl

theorem value_ofText (text : Option String) : value .optionalText (.ofText text) = .ok text := by
  cases text <;> rfl

theorem value_declarationKeyword (kind : DeclarationKind) :
    value .declarationKind (.str kind.keyword) = .ok kind := by
  cases kind <;> rfl

theorem value_propertyKeyword (kind : PropertyKind) :
    value .propertyKind (.str kind.keyword) = .ok kind := by
  cases kind <;> rfl

/-! ### Shapes -/

theorem reads_switchCase {cases : List (SwitchCase Node)}
    (h : ∀ n ∈ cases.flatMap fun c => c.test.toList ++ c.consequent, Returns f n) :
    ∀ c ∈ cases, ReadsRecord .switchCase
      (SwitchCase.toJson ⟨c.test.map Node.toJson, c.consequent.map Node.toJson⟩)
      ⟨c.test.map f, c.consequent.map f⟩ := by
  intro c hc
  have htest : ∀ n ∈ c.test.toList, Returns f n := fun n hn =>
    h n (List.mem_flatMap.2 ⟨c, hc, List.mem_append_left _ hn⟩)
  have hconsequent : ∀ n ∈ c.consequent, Returns f n := fun n hn =>
    h n (List.mem_flatMap.2 ⟨c, hc, List.mem_append_right _ hn⟩)
  exact ⟨_, _, rfl, .cons (value_optionalNode htest) (.cons (value_nodes hconsequent) .nil), rfl⟩

theorem reads_catchClause {clauses : List (CatchClause Node)}
    (h : ∀ n ∈ clauses.flatMap fun c => [c.param, c.body], Returns f n) :
    ∀ c ∈ clauses, ReadsRecord .catchClause
      (CatchClause.toJson ⟨c.param.toJson, c.body.toJson⟩) ⟨f c.param, f c.body⟩ := by
  intro c hc
  have hparam : Returns f c.param := h _ (List.mem_flatMap.2 ⟨c, hc, by simp⟩)
  have hbody : Returns f c.body := h _ (List.mem_flatMap.2 ⟨c, hc, by simp⟩)
  exact ⟨_, _, rfl, .cons hparam (.cons hbody .nil), rfl⟩

theorem reads_declarator {declarations : List (Declarator Node)}
    (h : ∀ n ∈ declarations.flatMap fun d => d.id :: d.init.toList, Returns f n) :
    ∀ d ∈ declarations, ReadsRecord .declarator
      (Declarator.toJson ⟨d.id.toJson, d.init.map Node.toJson⟩) ⟨f d.id, d.init.map f⟩ := by
  intro d hd
  have hid : Returns f d.id := h _ (List.mem_flatMap.2 ⟨d, hd, List.mem_cons_self ..⟩)
  have hinit : ∀ n ∈ d.init.toList, Returns f n := fun n hn =>
    h n (List.mem_flatMap.2 ⟨d, hd, List.mem_cons_of_mem _ hn⟩)
  exact ⟨_, _, rfl, .cons hid (.cons (value_optionalNode hinit) .nil), rfl⟩

theorem reads_property {properties : List (Property Node)}
    (h : ∀ n ∈ properties.flatMap fun p => [p.key, p.value], Returns f n) :
    ∀ p ∈ properties, ReadsRecord .property
      (Property.toJson ⟨p.key.toJson, p.value.toJson, p.kind⟩) ⟨f p.key, f p.value, p.kind⟩ := by
  intro p hp
  have hkey : Returns f p.key := h _ (List.mem_flatMap.2 ⟨p, hp, by simp⟩)
  have hvalue : Returns f p.value := h _ (List.mem_flatMap.2 ⟨p, hp, by simp⟩)
  exact ⟨_, _, rfl, .cons hkey (.cons hvalue (.cons (value_propertyKeyword p.kind) .nil)), rfl⟩

/-- The fields of a shape are read where its children are. -/
theorem reads_members {s : Shape Node} (h : ∀ n ∈ s.children, Returns f n) :
    ∃ xs, Reads s.type.schema (s.map Node.toJson).members xs ∧
      Shape.ofValues s.type xs = (s.map f).mapLiteral Json.normalize := by
  cases s with simp only [Shape.children, List.forall_mem_cons, List.forall_mem_append] at h
  | program body => exact ⟨_, .cons (value_nodes h) .nil, rfl⟩
  | emptyStatement => exact ⟨_, .nil, rfl⟩
  | blockStatement body => exact ⟨_, .cons (value_nodes h) .nil, rfl⟩
  | expressionStatement expression =>
    obtain ⟨hexpression, -⟩ := h
    exact ⟨_, .cons hexpression .nil, rfl⟩
  | ifStatement test consequent alternate =>
    obtain ⟨htest, hconsequent, halternate⟩ := h
    exact ⟨_, .cons htest (.cons hconsequent (.cons (value_optionalNode halternate) .nil)), rfl⟩
  | labeledStatement label body =>
    obtain ⟨hlabel, hbody, -⟩ := h
    exact ⟨_, .cons hlabel (.cons hbody .nil), rfl⟩
  | jump form label => cases form <;> exact ⟨_, .cons (value_optionalNode h) .nil, rfl⟩
  | withStatement object body =>
    obtain ⟨hobject, hbody, -⟩ := h
    exact ⟨_, .cons hobject (.cons hbody .nil), rfl⟩
  | switchStatement discriminant cases =>
    obtain ⟨hdiscriminant, hcases⟩ := h
    have hcases := value_records (reads_switchCase hcases)
    exact ⟨_, .cons hdiscriminant (.cons hcases .nil), rfl⟩
  | returnStatement argument => exact ⟨_, .cons (value_optionalNode h) .nil, rfl⟩
  | throwStatement argument =>
    obtain ⟨hargument, -⟩ := h
    exact ⟨_, .cons hargument .nil, rfl⟩
  | tryStatement block handler handlers finalizer =>
    obtain ⟨⟨hblock, hclauses⟩, hfinalizer⟩ := h
    have hclause := reads_catchClause hclauses
    have hhandler := value_optionalRecord fun c hc => hclause c (List.mem_append_left _ hc)
    have hhandlers := value_records fun c hc => hclause c (List.mem_append_right _ hc)
    exact ⟨_, .cons hblock (.cons hhandler (.cons hhandlers
      (.cons (value_optionalNode hfinalizer) .nil))), rfl⟩
  | loop form test body =>
    obtain ⟨htest, hbody, -⟩ := h
    cases form <;> exact ⟨_, .cons htest (.cons hbody .nil), rfl⟩
  | forStatement init test update body =>
    obtain ⟨⟨⟨hinit, htest⟩, hupdate⟩, hbody, -⟩ := h
    exact ⟨_, .cons (value_optionalNode hinit) (.cons (value_optionalNode htest)
      (.cons (value_optionalNode hupdate) (.cons hbody .nil))), rfl⟩
  | forInStatement left right body =>
    obtain ⟨hleft, hright, hbody, -⟩ := h
    exact ⟨_, .cons hleft (.cons hright (.cons hbody .nil)), rfl⟩
  | debuggerStatement => exact ⟨_, .nil, rfl⟩
  | function form id params body =>
    obtain ⟨⟨hid, hparams⟩, hbody, -⟩ := h
    cases form <;> exact ⟨_, .cons (value_optionalNode hid)
      (.cons (value_nodes hparams) (.cons hbody .nil)), rfl⟩
  | variableDeclaration declarations kind =>
    have hdeclarations := value_records (reads_declarator h)
    exact ⟨_, .cons hdeclarations (.cons (value_declarationKeyword kind) .nil), rfl⟩
  | thisExpression => exact ⟨_, .nil, rfl⟩
  | arrayExpression elements => exact ⟨_, .cons (value_elements h) .nil, rfl⟩
  | objectExpression properties =>
    have hproperties := value_records (reads_property h)
    exact ⟨_, .cons hproperties .nil, rfl⟩
  | sequenceExpression expressions => exact ⟨_, .cons (value_nodes h) .nil, rfl⟩
  | unary form operator prefixed argument =>
    obtain ⟨hargument, -⟩ := h
    cases form <;> exact ⟨_, .cons rfl (.cons rfl (.cons hargument .nil)), rfl⟩
  | binary form operator left right =>
    obtain ⟨hleft, hright, -⟩ := h
    cases form <;> exact ⟨_, .cons rfl (.cons hleft (.cons hright .nil)), rfl⟩
  | conditionalExpression test consequent alternate =>
    obtain ⟨htest, hconsequent, halternate, -⟩ := h
    exact ⟨_, .cons htest (.cons hconsequent (.cons halternate .nil)), rfl⟩
  | call form callee arguments =>
    obtain ⟨hcallee, harguments⟩ := h
    cases form <;> exact ⟨_, .cons hcallee (.cons (value_nodes harguments) .nil), rfl⟩
  | memberExpression object property computed =>
    obtain ⟨hobject, hproperty, -⟩ := h
    exact ⟨_, .cons hobject (.cons hproperty (.cons rfl .nil)), rfl⟩
  | identifier name => exact ⟨_, .cons rfl .nil, rfl⟩
  | literal value raw => exact ⟨_, .cons (value_json value) (.cons (value_ofText raw) .nil), rfl⟩

end Contents

end Decode

/-- **A tree is decoded from its document, with the values in its literals normalized.** -/
theorem Node.ofJson_toJson (n : Node) : ofJson n.toJson = .ok (n.mapLiterals Json.normalize) := by
  induction n using children_induction with
  | step n ih =>
    obtain ⟨xs, hreads, hshape⟩ := Decode.reads_members ih
    rw [toJson_eq, mapLiterals_eq, ← hshape]
    exact Decode.nodeOf_reads hreads n.start n.stop

end TreeWalk
