/-
What values a tree is decoded from.

`DescribesBy` says of one level what a value has to be to stand for some content: an object
whose members say the type and the fields, an array, or a scalar.  What the values inside it
stand for is left to another relation, and `Describes` is the relation that says it of them
as well.

The decoder knows nothing but this.  At one level, what is decoded is what is described in
terms of decoding, `value_iff`; from there on down, what is decoded is what is described,
`describes_iff`.  The rounds that a node is decoded in all search the members for a name
that may occur once, and `Finds` accounts for any such search.

Some of what is described no tree is written as: a type may be given by its index, a record
as the array of its fields, and a kind as the only member of an object.
-/
import TreeWalk.Proofs.Document.Decoding

namespace TreeWalk

/-! ### Members -/

/-- The object has one member of the name, and that holds the value. -/
def Only (ms : List (String × Json)) (name : String) (v : Json) : Prop :=
  ms.filter (·.1 == name) = [(name, v)]

theorem only_cons_self {ms : List (String × Json)} {name : String} {v w : Json} :
    Only ((name, w) :: ms) name v ↔ w = v ∧ name ∉ ms.map Prod.fst := by
  have hnone : ms.filter (·.1 == name) = [] ↔ name ∉ ms.map Prod.fst := by
    rw [List.filter_eq_nil_iff, List.mem_map]
    constructor
    · rintro h ⟨m, hm, rfl⟩
      exact h m hm (beq_self_eq_true m.1)
    · intro h m hm hname
      exact h ⟨m, hm, eq_of_beq hname⟩
  rw [Only, List.filter_cons, if_pos (beq_self_eq_true name), List.cons.injEq, Prod.mk.injEq, hnone]
  exact ⟨fun ⟨⟨_, hw⟩, hms⟩ => ⟨hw, hms⟩, fun ⟨hw, hms⟩ => ⟨⟨rfl, hw⟩, hms⟩⟩

theorem only_cons_of_ne {ms : List (String × Json)} {name other : String} {v w : Json}
    (h : other ≠ name) : Only ((other, w) :: ms) name v ↔ Only ms name v := by
  have hneg : ¬ (other == name) = true := by simpa using h
  rw [Only, Only, List.filter_cons, if_neg hneg]

theorem Only.mem {ms : List (String × Json)} {name : String} {v : Json} (h : Only ms name v) :
    (name, v) ∈ ms := by
  have hmem : (name, v) ∈ ms.filter (·.1 == name) := by
    rw [h]
    exact List.mem_singleton_self _
  exact (List.mem_filter.1 hmem).1

/-- Whatever member of the name there is, it is the only one. -/
theorem Only.eq_of_mem {ms : List (String × Json)} {name : String} {v w : Json}
    (h : Only ms name v) (hw : (name, w) ∈ ms) : w = v := by
  have hmem : (name, w) ∈ ms.filter (·.1 == name) :=
    List.mem_filter.2 ⟨hw, beq_self_eq_true name⟩
  rw [h, List.mem_singleton] at hmem
  exact congrArg Prod.snd hmem

/-- A name that is given once is given by one member. -/
theorem Only.count_le_one {ms : List (String × Json)} {name : String} {v : Json}
    (h : Only ms name v) : (ms.map Prod.fst).count name ≤ 1 := by
  have hfilter : (ms.map Prod.fst).count name = (ms.filter (·.1 == name)).length := by
    rw [List.count, List.countP_map, List.countP_eq_length_filter]
    rfl
  rw [hfilter, h]
  exact Nat.le_refl 1

/-! ### Descriptions -/

/-- What values stand for which contents. -/
abbrev Reading := (k : FieldKind) → Json → k.Value Node → Prop

/-- The value stands for the type: it is the name, or the index in the list of types. -/
inductive DescribesType : Json → NodeType → Prop where
  | name (t : NodeType) : DescribesType (.str t.name) t
  | index {i : Nat} {t : NodeType} (h : NodeType.all[i]? = some t) :
    DescribesType (.num (.int i)) t

/-- The value stands for a choice: it is the name, or the name is its only member and that has no
content. -/
inductive DescribesChoice {α : Type} (choices : List (String × α)) : Json → α → Prop where
  | name {s : String} {x : α} (h : choices.lookup s = some x) : DescribesChoice choices (.str s) x
  | member {s : String} {x : α} {v : Json} (h : choices.lookup s = some x)
    (hv : v = .null ∨ v = .obj []) : DescribesChoice choices (.obj [(s, v)]) x

/-- The members say an offset under the name, or that there is none. -/
inductive DescribesOffset (ms : List (String × Json)) (name : String) : Option Offset → Prop where
  | absent (h : name ∉ ms.map Prod.fst) : DescribesOffset ms name none
  | given {o : Option Offset} (h : Only ms name (.ofOffset o)) : DescribesOffset ms name o

/-- The members stand for the fields: each field is the content that the only member of its name
stands for, or what the absence of such a member means. -/
inductive DescribesFields (D : Reading) :
    (specs : List FieldSpec) → List (String × Json) → Values Node specs → Prop where
  | nil (ms : List (String × Json)) : DescribesFields D [] ms ()
  | given {spec : FieldSpec} {specs : List FieldSpec} {ms : List (String × Json)} {v : Json}
    {x : spec.kind.Value Node} {xs : Values Node specs} (hv : Only ms spec.field.spelling v)
    (hx : D spec.kind v x) (h : DescribesFields D specs ms xs) :
    DescribesFields D (spec :: specs) ms (x, xs)
  | absent {spec : FieldSpec} {specs : List FieldSpec} {ms : List (String × Json)}
    {x : spec.kind.Value Node} {xs : Values Node specs}
    (hv : spec.field.spelling ∉ ms.map Prod.fst) (hx : spec.absent = some x)
    (h : DescribesFields D specs ms xs) : DescribesFields D (spec :: specs) ms (x, xs)

/-- The items of an array stand for the fields in their order.  The array may end before fields
that have a default. -/
inductive DescribesPlaces (D : Reading) :
    (specs : List FieldSpec) → List Json → Values Node specs → Prop where
  | nil : DescribesPlaces D [] [] ()
  | given {spec : FieldSpec} {specs : List FieldSpec} {v : Json} {vs : List Json}
    {x : spec.kind.Value Node} {xs : Values Node specs} (hx : D spec.kind v x)
    (h : DescribesPlaces D specs vs xs) : DescribesPlaces D (spec :: specs) (v :: vs) (x, xs)
  | missing {spec : FieldSpec} {specs : List FieldSpec} {x : spec.kind.Value Node}
    {xs : Values Node specs} (hspec : spec.presence = .defaulted)
    (hx : spec.kind.unsaid = some x) (h : DescribesPlaces D specs [] xs) :
    DescribesPlaces D (spec :: specs) [] (x, xs)

/-- The values stand for the contents one by one. -/
inductive DescribesItems (D : Reading) :
    List Json → (k : FieldKind) → List (k.Value Node) → Prop where
  | nil (k : FieldKind) : DescribesItems D [] k []
  | cons {k : FieldKind} {v : Json} {vs : List Json} {x : k.Value Node} {xs : List (k.Value Node)}
    (hx : D k v x) (h : DescribesItems D vs k xs) : DescribesItems D (v :: vs) k (x :: xs)

/-- The value stands for a node: an object that says its type once and its fields, and may say its
offsets. -/
inductive DescribesNode (D : Reading) : Json → Node → Prop where
  | mk {ms : List (String × Json)} {type : Json} {t : NodeType} {start stop : Option Offset}
    {xs : Values Node t.schema} (htype : Only ms "type" type) (ht : DescribesType type t)
    (hstart : DescribesOffset ms "start" start) (hstop : DescribesOffset ms "end" stop)
    (hfields : DescribesFields D t.schema ms xs) :
    DescribesNode D (.obj ms) ⟨Shape.ofValues t xs, start, stop⟩

/-- The value stands for a record: an object of its fields, or an array of them. -/
inductive DescribesRecord (D : Reading) : Json → (r : RecordType) → r.Value Node → Prop where
  | object {r : RecordType} {ms : List (String × Json)} {xs : Values Node r.schema}
    (h : DescribesFields D r.schema ms xs) : DescribesRecord D (.obj ms) r (r.ofValues xs)
  | array {r : RecordType} {vs : List Json} {xs : Values Node r.schema}
    (h : DescribesPlaces D r.schema vs xs) : DescribesRecord D (.arr vs) r (r.ofValues xs)

/-- The value stands for the content, given what the values inside it stand for. -/
inductive DescribesBy (D : Reading) : Reading where
  | node {v : Json} {n : Node} (h : DescribesNode D v n) : DescribesBy D .node v n
  | noNode : DescribesBy D .optionalNode .null none
  | someNode {v : Json} {n : Node} (h : DescribesNode D v n) :
    DescribesBy D .optionalNode v (some n)
  | nodes {vs : List Json} {ns : List Node} (h : DescribesItems D vs .node ns) :
    DescribesBy D .nodes (.arr vs) ns
  | elements {vs : List Json} {es : List (Option Node)}
    (h : DescribesItems D vs .optionalNode es) : DescribesBy D .elements (.arr vs) es
  | records {r : RecordType} {vs : List Json} {xs : List (r.Value Node)}
    (h : DescribesItems D vs (.optionalRecord r) (xs.map some)) :
    DescribesBy D (.records r) (.arr vs) xs
  | noRecord (r : RecordType) : DescribesBy D (.optionalRecord r) .null none
  | someRecord {r : RecordType} {v : Json} {x : r.Value Node} (h : DescribesRecord D v r x) :
    DescribesBy D (.optionalRecord r) v (some x)
  | text (s : String) : DescribesBy D .text (.str s) s
  | noText : DescribesBy D .optionalText .null none
  | someText (s : String) : DescribesBy D .optionalText (.str s) (some s)
  | flag (default b : Bool) : DescribesBy D (.flag default) (.bool b) b
  | json (v : Json) : DescribesBy D .json v v.normalize
  | declarationKind {v : Json} {kind : DeclarationKind}
    (h : DescribesChoice Decode.declarationKinds v kind) : DescribesBy D .declarationKind v kind
  | propertyKind {v : Json} {kind : PropertyKind}
    (h : DescribesChoice Decode.propertyKinds v kind) : DescribesBy D .propertyKind v kind

/-- The value stands for the content, and so do the values inside it for the contents inside. -/
inductive Describes : Reading where
  | mk {k : FieldKind} {v : Json} {x : k.Value Node} (h : DescribesBy Describes k v x) :
    Describes k v x

theorem describes_iff_by {k : FieldKind} {v : Json} {x : k.Value Node} :
    Describes k v x ↔ DescribesBy Describes k v x :=
  ⟨fun ⟨h⟩ => h, .mk⟩

/-! ### Searching the members -/

namespace Decode

variable {α : Type}

/-- A search of the members for a name comes to the content that was seen before, or to the one
that is decoded where the name is.  Nothing may be found twice. -/
def Finds (name : String) (decode : Json → Result α) :
    Option α → List (String × Json) → Option α → Prop
  | seen, [], found => found = seen
  | seen, (other, v) :: ms, found =>
    if other = name then
      seen = none ∧ ∃ x, decode v = .ok x ∧ Finds name decode (some x) ms found
    else Finds name decode seen ms found

variable {name : String} {decode : Json → Result α} {ms : List (String × Json)}

/-- Where something was seen before, the search finds nothing. -/
theorem finds_some_iff {x : α} {found : Option α} :
    Finds name decode (some x) ms found ↔ name ∉ ms.map Prod.fst ∧ found = some x := by
  induction ms with
  | nil => simp [Finds]
  | cons m ms ih =>
    obtain ⟨other, v⟩ := m
    rw [Finds, List.map_cons, List.mem_cons, not_or]
    by_cases h : other = name
    · subst h
      simp
    · rw [if_neg h, ih]
      exact ⟨fun ⟨hms, hx⟩ => ⟨⟨fun heq => h heq.symm, hms⟩, hx⟩, fun ⟨⟨_, hms⟩, hx⟩ => ⟨hms, hx⟩⟩

/-- A search that finds nothing comes past no member of the name. -/
theorem finds_none_iff : Finds name decode none ms none ↔ name ∉ ms.map Prod.fst := by
  induction ms with
  | nil => simp [Finds]
  | cons m ms ih =>
    obtain ⟨other, v⟩ := m
    rw [Finds, List.map_cons, List.mem_cons, not_or]
    by_cases h : other = name
    · subst h
      simp [finds_some_iff]
    · rw [if_neg h, ih]
      exact ⟨fun hms => ⟨fun heq => h heq.symm, hms⟩, fun ⟨_, hms⟩ => hms⟩

/-- A search that finds something comes past one member of the name. -/
theorem finds_iff_only {x : α} :
    Finds name decode none ms (some x) ↔ ∃ v, Only ms name v ∧ decode v = .ok x := by
  induction ms with
  | nil => simp [Finds, Only]
  | cons m ms ih =>
    obtain ⟨other, w⟩ := m
    rw [Finds]
    by_cases h : other = name
    · subst h
      simp only [if_true, true_and, finds_some_iff, only_cons_self, Option.some.injEq]
      constructor
      · rintro ⟨y, hy, hms, rfl⟩
        exact ⟨w, ⟨rfl, hms⟩, hy⟩
      · rintro ⟨v, ⟨rfl, hms⟩, hv⟩
        exact ⟨x, hv, hms, rfl⟩
    · simp only [if_neg h, only_cons_of_ne h, ih]

/-! ### Offsets and types -/

theorem bind_eq_ok {β : Type} {a : Result α} {f : α → Result β} {b : β} :
    (a >>= f) = .ok b ↔ ∃ x, a = .ok x ∧ f x = .ok b := by
  cases a with
  | error e => exact ⟨nofun, nofun⟩
  | ok x => exact ⟨fun h => ⟨x, rfl, h⟩, fun ⟨_, hx, h⟩ => Except.ok.inj hx ▸ h⟩

theorem map_eq_ok {β : Type} {a : Result α} {f : α → β} {b : β} :
    a.map f = .ok b ↔ ∃ x, a = .ok x ∧ f x = b := by
  cases a with
  | error e => exact ⟨nofun, nofun⟩
  | ok x => exact ⟨fun h => ⟨x, rfl, Except.ok.inj h⟩, fun ⟨_, hx, h⟩ => by cases hx; exact h ▸ rfl⟩

/-- An offset is decoded from what it is written as. -/
theorem offset_eq_ok {v : Json} {o : Option Offset} : offset v = .ok o ↔ v = .ofOffset o := by
  constructor
  · intro h
    unfold offset at h
    split at h
    · cases h
      rfl
    · rename_i i
      split at h
      · rename_i hi
        cases h
        have htoNat : (UInt32.ofNat i.toNat).toNat = i.toNat :=
          UInt32.toNat_ofNat_of_lt' (by have : UInt32.size = 4294967296 := rfl; omega)
        show Json.num (.int i) = .num (.int (UInt32.ofNat i.toNat).toNat)
        rw [htoNat, Int.toNat_of_nonneg hi.1]
      · cases h
    · cases h
  · rintro rfl
    exact offset_ofOffset o

/-- The offsets are found by a search for each. -/
theorem offsets_eq_ok {start stop : Option (Option Offset)} {a b : Option Offset} :
    offsets start stop ms = .ok (a, b) ↔
      ∃ x y, Finds "start" offset start ms x ∧ Finds "end" offset stop ms y ∧
        x.getD none = a ∧ y.getD none = b := by
  induction ms generalizing start stop with
  | nil =>
    simp only [offsets, Finds, Except.ok.injEq, Prod.mk.injEq]
    constructor
    · exact fun h => ⟨start, stop, rfl, rfl, h⟩
    · rintro ⟨x, y, rfl, rfl, h⟩
      exact h
  | cons m ms ih =>
    obtain ⟨name, v⟩ := m
    rw [offsets]
    by_cases hstart : name = "start"
    · subst hstart
      have hne : "start" ≠ "end" := by decide
      cases start with
      | some x => simp [Finds]
      | none =>
        simp only [if_true, Option.isSome_none, Bool.false_eq_true, if_false, bind_eq_ok, ih, Finds,
          if_neg hne, true_and]
        constructor
        · rintro ⟨o, ho, x, y, hx, hy, h⟩
          exact ⟨x, y, ⟨o, ho, hx⟩, hy, h⟩
        · rintro ⟨x, y, ⟨o, ho, hx⟩, hy, h⟩
          exact ⟨o, ho, x, y, hx, hy, h⟩
    · by_cases hend : name = "end"
      · subst hend
        cases stop with
        | some y => simp [Finds]
        | none =>
          simp only [if_neg hstart, if_true, Option.isSome_none, Bool.false_eq_true, if_false,
            bind_eq_ok, ih, Finds, true_and]
          constructor
          · rintro ⟨o, ho, x, y, hx, hy, h⟩
            exact ⟨x, y, hx, ⟨o, ho, hy⟩, h⟩
          · rintro ⟨x, y, hx, ⟨o, ho, hy⟩, h⟩
            exact ⟨o, ho, x, y, hx, hy, h⟩
      · simp only [if_neg hstart, if_neg hend, ih, Finds]

/-- An offset that is found is described. -/
theorem describesOffset_iff {name : String} {a : Option Offset} :
    DescribesOffset ms name a ↔ ∃ x, Finds name offset none ms x ∧ x.getD none = a := by
  constructor
  · rintro (habsent | hgiven)
    · exact ⟨none, finds_none_iff.2 habsent, rfl⟩
    · exact ⟨some a, finds_iff_only.2 ⟨_, hgiven, offset_ofOffset a⟩, rfl⟩
  · rintro ⟨_ | o, hx, rfl⟩
    · exact .absent (finds_none_iff.1 hx)
    · obtain ⟨v, hv, ho⟩ := finds_iff_only.1 hx
      exact .given (offset_eq_ok.1 ho ▸ hv)

theorem name_of_ofName? {s : String} {t : NodeType} (h : NodeType.ofName? s = some t) :
    t.name = s := by
  unfold NodeType.ofName? at h
  have hname := List.find?_some h
  exact eq_of_beq hname

/-- A type is decoded from what stands for it. -/
theorem nodeType_eq_ok {v : Json} {t : NodeType} : nodeType v = .ok t ↔ DescribesType v t := by
  constructor
  · intro h
    unfold nodeType at h
    split at h
    · rename_i s
      split at h
      · rename_i hs
        cases h
        exact name_of_ofName? hs ▸ .name _
      · cases h
    · rename_i i
      split at h
      · cases h
      · rename_i hi
        split at h
        · rename_i ht
          cases h
          have hcast : Json.num (.int i) = .num (.int (i.toNat : Nat)) := by
            rw [Int.toNat_of_nonneg (Int.not_lt.1 hi)]
          rw [hcast]
          exact .index ht
        · cases h
    · cases h
  · rintro (t | ht)
    · rw [nodeType, NodeType.ofName?_name]
    · rename_i i
      have hi : ¬ (i : Int) < 0 := Int.not_lt.2 (Int.natCast_nonneg i)
      rw [nodeType, if_neg hi, Int.toNat_natCast, ht]

/-- The type is found by a search. -/
theorem memberType_eq_ok {seen : Option NodeType} {t : NodeType} :
    memberType seen ms = .ok t ↔ Finds "type" nodeType seen ms (some t) := by
  induction ms generalizing seen with
  | nil => cases seen <;> simp [memberType, Finds, eq_comm]
  | cons m ms ih =>
    obtain ⟨name, v⟩ := m
    rw [memberType, Finds]
    by_cases hname : name = "type"
    · cases seen with
      | some t => simp [hname]
      | none =>
        simp only [hname, if_true, Option.isSome_none, Bool.false_eq_true, if_false, bind_eq_ok, ih,
          true_and]
    · simp only [if_neg hname, ih]

/-- A choice is decoded from what stands for it. -/
theorem variant_eq_ok {choices : List (String × α)} {v : Json} {x : α} :
    variant choices v = .ok x ↔ DescribesChoice choices v x := by
  have hchoose {s : String} : variant.choose choices s = .ok x ↔ choices.lookup s = some x := by
    unfold variant.choose
    cases choices.lookup s <;> simp
  constructor
  · intro h
    unfold variant at h
    split at h
    · exact .name (hchoose.1 h)
    · obtain ⟨y, hy, h⟩ := bind_eq_ok.1 h
      split at h
      · cases h
        exact .member (hchoose.1 hy) (.inl rfl)
      · cases h
        exact .member (hchoose.1 hy) (.inr rfl)
      · cases h
    · cases h
    · cases h
  · rintro (h | ⟨h, rfl | rfl⟩)
    · exact hchoose.2 h
    · exact bind_eq_ok.2 ⟨x, hchoose.2 h, rfl⟩
    · exact bind_eq_ok.2 ⟨x, hchoose.2 h, rfl⟩

/-! ### Fields -/

/-- Each slot is filled by a search for the name of its field. -/
def SlotsFind (ms : List (String × Json)) :
    (specs : List FieldSpec) → Slots Node specs → Slots Node specs → Prop
  | [], (), () => True
  | spec :: rest, (slot, slots), (slot', slots') =>
    Finds spec.field.spelling (value spec.kind) slot ms slot' ∧ SlotsFind ms rest slots slots'

theorem slotsFind_nil {specs : List FieldSpec} {slots slots' : Slots Node specs} :
    SlotsFind [] specs slots slots' ↔ slots = slots' := by
  induction specs with
  | nil => exact ⟨fun _ => rfl, fun _ => trivial⟩
  | cons spec rest ih =>
    obtain ⟨slot, slots⟩ := slots
    obtain ⟨slot', slots'⟩ := slots'
    rw [SlotsFind, ih, Finds, Prod.mk.injEq, eq_comm]

/-- A search passes over a member that no field is named like. -/
theorem slotsFind_cons_of_not_mem {name : String} {v : Json} {specs : List FieldSpec}
    (h : name ∉ spellings specs) {slots slots' : Slots Node specs} :
    SlotsFind ((name, v) :: ms) specs slots slots' ↔ SlotsFind ms specs slots slots' := by
  induction specs with
  | nil => exact Iff.rfl
  | cons spec rest ih =>
    obtain ⟨slot, slots⟩ := slots
    obtain ⟨slot', slots'⟩ := slots'
    have hne : name ≠ spec.field.spelling := List.ne_of_not_mem_cons h
    rw [SlotsFind, SlotsFind, Finds, if_neg hne, ih (List.not_mem_of_not_mem_cons h)]

/-- A member fills the slot of its name, and the search goes on behind it. -/
theorem exists_fill_iff {name : String} {v : Json} {specs : List FieldSpec}
    (hnodup : (spellings specs).Nodup) {slots slots' : Slots Node specs} :
    (∃ filled, fill name (fun k => value k v) specs slots = .ok filled ∧
      SlotsFind ms specs filled slots') ↔ SlotsFind ((name, v) :: ms) specs slots slots' := by
  induction specs with
  | nil => exact ⟨fun _ => trivial, fun _ => ⟨(), rfl, trivial⟩⟩
  | cons spec rest ih =>
    obtain ⟨slot, slots⟩ := slots
    obtain ⟨slot', slots'⟩ := slots'
    obtain ⟨hfresh, hnodup⟩ := List.nodup_cons.1 hnodup
    rw [fill, SlotsFind, Finds]
    by_cases hname : spec.field.spelling = name
    · subst hname
      rw [if_pos rfl, if_pos rfl, slotsFind_cons_of_not_mem hfresh]
      cases slot with
      | some x => simp
      | none =>
        simp only [Option.isSome_none, Bool.false_eq_true, if_false, map_eq_ok, true_and]
        constructor
        · rintro ⟨_, ⟨x, hx, rfl⟩, hslot, hslots⟩
          exact ⟨⟨x, hx, hslot⟩, hslots⟩
        · rintro ⟨⟨x, hx, hslot⟩, hslots⟩
          exact ⟨_, ⟨x, hx, rfl⟩, hslot, hslots⟩
    · rw [if_neg hname, if_neg (fun h => hname h.symm), ← ih hnodup]
      simp only [map_eq_ok]
      constructor
      · rintro ⟨_, ⟨filled, hfilled, rfl⟩, hslot, hslots⟩
        exact ⟨hslot, filled, hfilled, hslots⟩
      · rintro ⟨hslot, filled, hfilled, hslots⟩
        exact ⟨_, ⟨filled, hfilled, rfl⟩, hslot, hslots⟩

/-- The fields are found by a search for each. -/
theorem fields_eq_ok {specs : List FieldSpec} (hnodup : (spellings specs).Nodup)
    {slots slots' : Slots Node specs} :
    fields specs slots ms = .ok slots' ↔ SlotsFind ms specs slots slots' := by
  induction ms generalizing slots with
  | nil =>
    rw [fields, slotsFind_nil, Except.ok.injEq]
  | cons m ms ih =>
    obtain ⟨name, v⟩ := m
    rw [fields, bind_eq_ok, ← exists_fill_iff hnodup]
    exact exists_congr fun filled => and_congr_right fun _ => ih

/-- What is decoded. -/
def Decoded : Reading := fun k v x => value k v = .ok x

/-- The contents are complete where each field is found or may be absent. -/
theorem complete_eq_ok {specs : List FieldSpec} {xs : Values Node specs} :
    (∃ slots, SlotsFind ms specs (Slots.none specs) slots ∧ complete specs slots = .ok xs) ↔
      DescribesFields Decoded specs ms xs := by
  induction specs with
  | nil => exact ⟨fun _ => .nil ms, fun _ => ⟨(), trivial, rfl⟩⟩
  | cons spec rest ih =>
    obtain ⟨x, xs⟩ := xs
    constructor
    · rintro ⟨⟨slot, slots⟩, ⟨hslot, hslots⟩, hcomplete⟩
      rw [complete] at hcomplete
      cases slot with
      | some y =>
        obtain ⟨ys, hys, heq⟩ := map_eq_ok.1 hcomplete
        obtain ⟨rfl, rfl⟩ := Prod.mk.inj heq
        obtain ⟨v, hv, hx⟩ := finds_iff_only.1 hslot
        exact .given hv hx (ih.1 ⟨slots, hslots, hys⟩)
      | none =>
        have habsent := finds_none_iff.1 hslot
        cases hx : spec.absent (α := Node) with
        | none =>
          simp only [hx] at hcomplete
          cases hcomplete
        | some y =>
          simp only [hx] at hcomplete
          obtain ⟨ys, hys, heq⟩ := map_eq_ok.1 hcomplete
          obtain ⟨rfl, rfl⟩ := Prod.mk.inj heq
          exact .absent habsent hx (ih.1 ⟨slots, hslots, hys⟩)
    · intro h
      cases h with
      | given hv hx h =>
        obtain ⟨slots, hslots, hcomplete⟩ := ih.2 h
        refine ⟨(some x, slots), ⟨finds_iff_only.2 ⟨_, hv, hx⟩, hslots⟩, ?_⟩
        rw [complete]
        exact map_eq_ok.2 ⟨xs, hcomplete, rfl⟩
      | absent hv hx h =>
        obtain ⟨slots, hslots, hcomplete⟩ := ih.2 h
        refine ⟨(none, slots), ⟨finds_none_iff.2 hv, hslots⟩, ?_⟩
        rw [complete]
        simp only [hx]
        exact map_eq_ok.2 ⟨xs, hcomplete, rfl⟩

/-- A node is decoded from the members that describe it. -/
theorem nodeOf_eq_ok {n : Node} :
    nodeOf ms (fun specs => fields specs (Slots.none specs) ms) = .ok n ↔
      DescribesNode Decoded (.obj ms) n := by
  have hfields {t : NodeType} {xs : Values Node t.schema} :
      (∃ slots, fields t.schema (Slots.none t.schema) ms = .ok slots ∧
        complete t.schema slots = .ok xs) ↔ DescribesFields Decoded t.schema ms xs := by
    rw [← complete_eq_ok]
    exact exists_congr fun slots => and_congr_left fun _ => fields_eq_ok (nodup_nodeSchema t)
  rw [nodeOf, bind_eq_ok]
  constructor
  · rintro ⟨⟨start, stop⟩, hoffsets, h⟩
    obtain ⟨t, ht, h⟩ := bind_eq_ok.1 h
    obtain ⟨slots, hslots, h⟩ := bind_eq_ok.1 h
    obtain ⟨xs, hxs, h⟩ := bind_eq_ok.1 h
    cases h
    obtain ⟨type, htype, ht⟩ := finds_iff_only.1 (memberType_eq_ok.1 ht)
    obtain ⟨x, y, hx, hy, hstart, hstop⟩ := offsets_eq_ok.1 hoffsets
    exact .mk htype (nodeType_eq_ok.1 ht) (describesOffset_iff.2 ⟨x, hx, hstart⟩)
      (describesOffset_iff.2 ⟨y, hy, hstop⟩) (hfields.1 ⟨slots, hslots, hxs⟩)
  · rintro ⟨htype, ht, hstart, hstop, h⟩
    obtain ⟨slots, hslots, hxs⟩ := hfields.2 h
    obtain ⟨x, hx, hstart⟩ := describesOffset_iff.1 hstart
    obtain ⟨y, hy, hstop⟩ := describesOffset_iff.1 hstop
    have hfinds := finds_iff_only.2 ⟨_, htype, nodeType_eq_ok.2 ht⟩
    refine ⟨_, offsets_eq_ok.2 ⟨x, y, hx, hy, hstart, hstop⟩, ?_⟩
    refine bind_eq_ok.2 ⟨_, memberType_eq_ok.2 hfinds, ?_⟩
    refine bind_eq_ok.2 ⟨slots, hslots, ?_⟩
    exact bind_eq_ok.2 ⟨_, hxs, rfl⟩

/-! ### Records -/

/-- The fields that an array ends before have a default. -/
theorem missing_eq_ok (r : RecordType) (count : Nat) {specs : List FieldSpec}
    {xs : Values Node specs} :
    missing r count specs = .ok xs ↔ DescribesPlaces Decoded specs [] xs := by
  induction specs with
  | nil => exact ⟨fun _ => .nil, fun _ => rfl⟩
  | cons spec rest ih =>
    obtain ⟨x, xs⟩ := xs
    rw [missing]
    constructor
    · intro h
      split at h
      · rename_i y hy
        obtain ⟨ys, hys, heq⟩ := map_eq_ok.1 h
        obtain ⟨rfl, rfl⟩ := Prod.mk.inj heq
        split at hy
        · rename_i hspec
          exact .missing hspec hy (ih.1 hys)
        · cases hy
      · cases h
    · intro h
      cases h with
      | missing hspec hx h =>
        simp only [hspec, if_true, hx]
        exact map_eq_ok.2 ⟨xs, ih.2 h, rfl⟩

/-- The fields of a record are decoded from the items that describe them. -/
theorem positional_eq_ok {r : RecordType} {specs : List FieldSpec} {count : Nat} {vs : List Json}
    {xs : Values Node specs} :
    positional r specs count vs = .ok xs ↔ DescribesPlaces Decoded specs vs xs := by
  induction vs generalizing specs count with
  | nil =>
    rw [← missing_eq_ok r count]
    cases specs <;> rw [positional]
  | cons v vs ih =>
    cases specs with
    | nil =>
      rw [positional]
      · exact ⟨nofun, nofun⟩
      · nofun
    | cons spec rest =>
      obtain ⟨x, xs⟩ := xs
      rw [positional, bind_eq_ok]
      constructor
      · rintro ⟨y, hy, h⟩
        obtain ⟨ys, hys, h⟩ := bind_eq_ok.1 h
        obtain ⟨rfl, rfl⟩ := Prod.mk.inj (Except.ok.inj h)
        exact .given hy (ih.1 hys)
      · intro h
        cases h with
        | given hx h => exact ⟨x, hx, bind_eq_ok.2 ⟨xs, ih.2 h, rfl⟩⟩

/-- A record is decoded from the members that describe it. -/
theorem recordOf_eq_ok {r : RecordType} {x : r.Value Node} :
    recordOf r (fun specs => fields specs (Slots.none specs) ms) = .ok x ↔
      DescribesRecord Decoded (.obj ms) r x := by
  rw [recordOf, bind_eq_ok]
  constructor
  · rintro ⟨slots, hslots, h⟩
    obtain ⟨xs, hxs, h⟩ := bind_eq_ok.1 h
    cases h
    exact .object (complete_eq_ok.1
      ⟨slots, (fields_eq_ok (nodup_recordSchema r)).1 hslots, hxs⟩)
  · intro h
    cases h with
    | object h =>
      obtain ⟨slots, hslots, hxs⟩ := complete_eq_ok.2 h
      exact ⟨slots, (fields_eq_ok (nodup_recordSchema r)).2 hslots, bind_eq_ok.2 ⟨_, hxs, rfl⟩⟩

/-! ### Values -/

/-- A record is decoded from a value in a list as it is from an optional one that is there. -/
theorem optionalRecord_eq_ok {r : RecordType} {v : Json} {x : r.Value Node} :
    value (.optionalRecord r) v = .ok (some x) ↔ DescribesRecord Decoded v r x := by
  cases v with
  | obj ms =>
    rw [value, map_eq_ok, ← recordOf_eq_ok]
    constructor
    · rintro ⟨y, hy, h⟩
      exact Option.some.inj h ▸ hy
    · exact fun h => ⟨x, h, rfl⟩
  | arr vs =>
    rw [value, map_eq_ok]
    constructor
    · rintro ⟨xs, hxs, h⟩
      cases h
      exact .array (positional_eq_ok.1 hxs)
    · intro h
      cases h with
      | array h => exact ⟨_, positional_eq_ok.2 h, rfl⟩
  | _ =>
    constructor
    · intro h
      cases h
    · intro h
      cases h

/-- A list is decoded item by item. -/
theorem cons_eq_ok (k : FieldKind) {β : Type} (f : β → k.Value Node) {item : Result β}
    {rest : Result (List β)} {v : Json} {vs : List Json}
    (hitem : ∀ x, item = .ok x ↔ value k v = .ok (f x))
    (hrest : ∀ xs, rest = .ok xs ↔ DescribesItems Decoded vs k (xs.map f)) (xs : List β) :
    (do let x ← item; let xs ← rest; .ok (x :: xs)) = .ok xs ↔
      DescribesItems Decoded (v :: vs) k (xs.map f) := by
  rw [bind_eq_ok]
  constructor
  · rintro ⟨x, hx, h⟩
    obtain ⟨ys, hys, h⟩ := bind_eq_ok.1 h
    obtain rfl := Except.ok.inj h
    exact .cons ((hitem x).1 hx) ((hrest ys).1 hys)
  · intro h
    cases xs with
    | nil => cases h
    | cons x xs =>
      cases h with
      | cons hx h => exact ⟨x, (hitem x).2 hx, bind_eq_ok.2 ⟨xs, (hrest xs).2 h, rfl⟩⟩

theorem nil_eq_ok (k : FieldKind) {β : Type} (f : β → k.Value Node) (xs : List β) :
    (.ok [] : Result (List β)) = .ok xs ↔ DescribesItems Decoded [] k (xs.map f) := by
  cases xs with
  | nil => exact ⟨fun _ => .nil k, fun _ => rfl⟩
  | cons x xs => exact ⟨nofun, nofun⟩

theorem nodes_eq_ok (vs : List Json) (ns : List Node) :
    nodes vs = .ok ns ↔ DescribesItems Decoded vs .node (ns.map id) := by
  induction vs generalizing ns with
  | nil => exact nil_eq_ok .node id ns
  | cons v vs ih =>
    rw [nodes]
    exact cons_eq_ok .node id (fun _ => Iff.rfl) ih ns

theorem elements_eq_ok (vs : List Json) (es : List (Option Node)) :
    elements vs = .ok es ↔ DescribesItems Decoded vs .optionalNode (es.map id) := by
  induction vs generalizing es with
  | nil => exact nil_eq_ok .optionalNode id es
  | cons v vs ih =>
    rw [elements]
    exact cons_eq_ok .optionalNode id (fun _ => Iff.rfl) ih es

theorem records_eq_ok (r : RecordType) (vs : List Json) (xs : List (r.Value Node)) :
    records r vs = .ok xs ↔ DescribesItems Decoded vs (.optionalRecord r) (xs.map some) := by
  induction vs generalizing xs with
  | nil => exact nil_eq_ok (.optionalRecord r) some xs
  | cons v vs ih =>
    cases v with
    | obj ms =>
      rw [records]
      have hitem (x : r.Value Node) :
          recordOf r (fun specs => fields specs (Slots.none specs) ms) = .ok x ↔
            value (.optionalRecord r) (.obj ms) = .ok (some x) :=
        recordOf_eq_ok.trans optionalRecord_eq_ok.symm
      exact cons_eq_ok (.optionalRecord r) some hitem ih xs
    | arr items =>
      have hitem (x : r.Value Node) : (positional r r.schema 0 items).map r.ofValues = .ok x ↔
          value (.optionalRecord r) (.arr items) = .ok (some x) := by
        rw [value, map_eq_ok, map_eq_ok]
        exact exists_congr fun _ => and_congr_right fun _ => Option.some_inj.symm
      rw [records]
      exact cons_eq_ok (.optionalRecord r) some hitem ih xs
    | _ =>
      constructor
      · intro h
        cases h
      · intro h
        cases xs with
        | nil => cases h
        | cons x xs =>
          cases h with
          | cons hx h => cases hx

/-- **What is decoded is described in terms of decoding.** -/
theorem value_iff {k : FieldKind} {v : Json} {x : k.Value Node} :
    value k v = .ok x ↔ DescribesBy Decoded k v x := by
  constructor
  · intro h
    cases k with
    | node =>
      cases v with
      | obj ms => exact .node (nodeOf_eq_ok.1 h)
      | _ => cases h
    | optionalNode =>
      cases v with
      | null =>
        cases h
        exact .noNode
      | obj ms =>
        rw [value] at h
        obtain ⟨n, hn, rfl⟩ := map_eq_ok.1 h
        exact .someNode (nodeOf_eq_ok.1 hn)
      | _ => cases h
    | nodes =>
      cases v with
      | arr vs =>
        have hitems := (nodes_eq_ok vs x).1 h
        rw [List.map_id] at hitems
        exact .nodes hitems
      | _ => cases h
    | elements =>
      cases v with
      | arr vs =>
        have hitems := (elements_eq_ok vs x).1 h
        rw [List.map_id] at hitems
        exact .elements hitems
      | _ => cases h
    | records r =>
      cases v with
      | arr vs => exact .records ((records_eq_ok r vs x).1 h)
      | _ => cases h
    | optionalRecord r =>
      cases x with
      | some x => exact .someRecord (optionalRecord_eq_ok.1 h)
      | none =>
        cases v with
        | null => exact .noRecord r
        | obj ms =>
          rw [value] at h
          obtain ⟨_, -, h⟩ := map_eq_ok.1 h
          cases h
        | arr vs =>
          rw [value] at h
          obtain ⟨_, -, h⟩ := map_eq_ok.1 h
          cases h
        | _ => cases h
    | text =>
      cases v with
      | str s =>
        obtain rfl := Except.ok.inj h
        exact .text s
      | _ => cases h
    | optionalText =>
      cases v with
      | null =>
        cases h
        exact .noText
      | str s =>
        cases h
        exact .someText s
      | _ => cases h
    | flag default =>
      cases v with
      | bool b =>
        obtain rfl := Except.ok.inj h
        exact .flag default b
      | _ => cases h
    | json =>
      rw [value_json] at h
      cases h
      exact .json v
    | declarationKind => exact .declarationKind (variant_eq_ok.1 (by cases v <;> exact h))
    | propertyKind => exact .propertyKind (variant_eq_ok.1 (by cases v <;> exact h))
  · intro h
    cases h with
    | node h =>
      cases h with
      | mk htype ht hstart hstop h => exact nodeOf_eq_ok.2 (.mk htype ht hstart hstop h)
    | noNode => rfl
    | someNode h =>
      cases h with
      | mk htype ht hstart hstop h =>
        exact value_optional_of_node (nodeOf_eq_ok.2 (.mk htype ht hstart hstop h))
    | nodes h => exact (nodes_eq_ok _ _).2 (by rwa [List.map_id])
    | elements h => exact (elements_eq_ok _ _).2 (by rwa [List.map_id])
    | records h => exact (records_eq_ok _ _ _).2 h
    | noRecord r => rfl
    | someRecord h => exact optionalRecord_eq_ok.2 h
    | text s => rfl
    | noText => rfl
    | someText s => rfl
    | flag default b => rfl
    | json v => exact value_json v
    | declarationKind h =>
      have hvariant := variant_eq_ok.2 h
      cases v <;> exact hvariant
    | propertyKind h =>
      have hvariant := variant_eq_ok.2 h
      cases v <;> exact hvariant

end Decode

/-! ### From one level to all -/

section Levels

variable {D E : Reading}

theorem DescribesFields.mono {specs : List FieldSpec} {ms : List (String × Json)}
    {xs : Values Node specs} (h : DescribesFields D specs ms xs)
    (hDE : ∀ m ∈ ms, ∀ k x, D k m.2 x → E k m.2 x) : DescribesFields E specs ms xs := by
  induction h with
  | nil ms => exact .nil ms
  | given hv hx _ ih => exact .given hv (hDE _ hv.mem _ _ hx) (ih hDE)
  | absent hv hx _ ih => exact .absent hv hx (ih hDE)

theorem DescribesPlaces.mono {specs : List FieldSpec} {vs : List Json} {xs : Values Node specs}
    (h : DescribesPlaces D specs vs xs) (hDE : ∀ v ∈ vs, ∀ k x, D k v x → E k v x) :
    DescribesPlaces E specs vs xs := by
  induction h with
  | nil => exact .nil
  | given hx _ ih =>
    obtain ⟨hv, hvs⟩ := List.forall_mem_cons.1 hDE
    exact .given (hv _ _ hx) (ih hvs)
  | missing hspec hx _ ih => exact .missing hspec hx (ih hDE)

theorem DescribesItems.mono {k : FieldKind} {vs : List Json} {xs : List (k.Value Node)}
    (h : DescribesItems D vs k xs) (hDE : ∀ v ∈ vs, ∀ k x, D k v x → E k v x) :
    DescribesItems E vs k xs := by
  induction h with
  | nil k => exact .nil k
  | cons hx _ ih =>
    obtain ⟨hv, hvs⟩ := List.forall_mem_cons.1 hDE
    exact .cons (hv _ _ hx) (ih hvs)

/-- A description at one level is one in other terms that say the same of the values inside. -/
theorem DescribesBy.mono {k : FieldKind} {v : Json} {x : k.Value Node} (h : DescribesBy D k v x)
    (hDE : ∀ w, sizeOf w < sizeOf v → ∀ k x, D k w x → E k w x) : DescribesBy E k v x := by
  have hmembers {ms : List (String × Json)}
      (hDE : ∀ w, sizeOf w < sizeOf (Json.obj ms) → ∀ k x, D k w x → E k w x) :
      ∀ m ∈ ms, ∀ k x, D k m.2 x → E k m.2 x := by
    intro m hm
    refine hDE m.2 ?_
    have hlt := List.sizeOf_lt_of_mem hm
    obtain ⟨name, w⟩ := m
    simp only [Prod.mk.sizeOf_spec] at hlt
    rw [Json.obj.sizeOf_spec]
    show sizeOf w < 1 + sizeOf ms
    omega
  have hitems {vs : List Json}
      (hDE : ∀ w, sizeOf w < sizeOf (Json.arr vs) → ∀ k x, D k w x → E k w x) :
      ∀ w ∈ vs, ∀ k x, D k w x → E k w x := by
    intro w hw
    refine hDE w ?_
    have hlt := List.sizeOf_lt_of_mem hw
    rw [Json.arr.sizeOf_spec]
    omega
  have hnode {v : Json} {n : Node} (h : DescribesNode D v n)
      (hDE : ∀ w, sizeOf w < sizeOf v → ∀ k x, D k w x → E k w x) : DescribesNode E v n := by
    cases h with
    | mk htype ht hstart hstop h => exact .mk htype ht hstart hstop (h.mono (hmembers hDE))
  cases h with
  | node h => exact .node (hnode h hDE)
  | noNode => exact .noNode
  | someNode h => exact .someNode (hnode h hDE)
  | nodes h => exact .nodes (h.mono (hitems hDE))
  | elements h => exact .elements (h.mono (hitems hDE))
  | records h => exact .records (h.mono (hitems hDE))
  | noRecord r => exact .noRecord r
  | someRecord h =>
    cases h with
    | object h => exact .someRecord (.object (h.mono (hmembers hDE)))
    | array h => exact .someRecord (.array (h.mono (hitems hDE)))
  | text s => exact .text s
  | noText => exact .noText
  | someText s => exact .someText s
  | flag default b => exact .flag default b
  | json v => exact .json v
  | declarationKind h => exact .declarationKind h
  | propertyKind h => exact .propertyKind h

end Levels

/-- **What is described is what is decoded**, all the way down. -/
theorem describes_iff {k : FieldKind} {v : Json} {x : k.Value Node} :
    Describes k v x ↔ Decode.value k v = .ok x := by
  induction hsize : sizeOf v using Nat.strongRecOn generalizing k v x with
  | ind size ih =>
    subst hsize
    rw [describes_iff_by, Decode.value_iff]
    constructor
    · exact fun h => h.mono fun w hw k x => (ih (sizeOf w) hw rfl).1
    · exact fun h => h.mono fun w hw k x => (ih (sizeOf w) hw rfl).2

end TreeWalk
