/-
Places that a walk reaches.

A walk goes from a node to its parts and from there to theirs: `Cursor.Reaches` is that
relation, and `Node.Walked` says which places of a tree it reaches from the root.  A
place is known by its trail.  Two trails are apart when neither leads on from the other,
and so are any two that go through different children of one node: `walked_apart` for
two parts, `unwalked_apart` for a part and a child that is not walked.  Apart trails
stay apart however far they are followed, so what a walk does below one child is never
mistaken for what it does below another.
-/
import Mathlib.Data.List.Pairwise
import TreeWalk.Proofs.Tree.Parts

namespace TreeWalk

/-! ### Reaching -/

namespace Cursor

/-- The place of a part of the node here. -/
def part (c : Cursor) (p : Part Node) : Cursor := c.down p.steps p.child

/-- A walk that starts here comes to the other place. -/
inductive Reaches : Cursor → Cursor → Prop
  | here (c : Cursor) : Reaches c c
  | inside {c d : Cursor} {p : Part Node} (hp : p ∈ c.node.shape.walked)
      (h : Reaches (c.part p) d) : Reaches c d

@[simp] theorem trail_part (c : Cursor) (p : Part Node) :
    (c.part p).trail = p.steps ++ c.trail := rfl

theorem Reaches.trans {c d e : Cursor} (h : Reaches c d) (h' : Reaches d e) : Reaches c e := by
  induction h with
  | here => exact h'
  | inside hp _ ih => exact .inside hp (ih h')

/-- The parts of a place that is reached are reached. -/
theorem Reaches.part {c d : Cursor} (h : Reaches c d) {p : Part Node}
    (hp : p ∈ d.node.shape.walked) : Reaches c (d.part p) :=
  h.trans (.inside hp (.here _))

/-- A walk only follows trails further. -/
theorem Reaches.suffix {c d : Cursor} (h : Reaches c d) : c.trail <:+ d.trail := by
  induction h with
  | here c => exact List.suffix_refl c.trail
  | inside _ _ ih => exact (List.suffix_append _ _).trans ih

end Cursor

/-- A walk of the tree comes to the place. -/
def Node.Walked (tree : Node) (c : Cursor) : Prop := (Cursor.root tree).Reaches c

/-! ### Trails apart -/

namespace Trail

/-- Neither trail leads on from the other. -/
def Apart (a b : Trail) : Prop := ¬ a <:+ b ∧ ¬ b <:+ a

theorem Apart.symm {a b : Trail} (h : Apart a b) : Apart b a := ⟨h.2, h.1⟩

theorem Apart.ne {a b : Trail} (h : Apart a b) : a ≠ b := by
  rintro rfl
  exact h.1 (List.suffix_refl a)

/-- Apart trails stay apart however far they are followed. -/
theorem Apart.of_suffix {a b x y : Trail} (h : Apart a b) (hx : a <:+ x) (hy : b <:+ y) :
    Apart x y := by
  constructor
  · intro hxy
    exact (List.suffix_or_suffix_of_suffix (hx.trans hxy) hy).elim h.1 h.2
  · intro hyx
    exact (List.suffix_or_suffix_of_suffix hx (hy.trans hyx)).elim h.1 h.2

/-- Trails that are apart are apart wherever they start. -/
theorem Apart.append {a b : Trail} (h : Apart a b) (t : Trail) : Apart (a ++ t) (b ++ t) := by
  simpa only [Apart, List.suffix_append_self_iff] using h

/-- Trails that start into different fields are apart. -/
theorem apart_of_field {f g : Field} (h : f ≠ g) {a b : Trail} (ha : [.field f] <:+ a)
    (hb : [.field g] <:+ b) : Apart a b := by
  have hfg : Apart [.field f] [.field g] := by
    simp [Apart, List.suffix_cons_iff, h, h.symm]
  exact hfg.of_suffix ha hb

/-- Trails that start at different items of a list are apart. -/
theorem apart_of_item {i j : Nat} (h : i ≠ j) {f : Field} {a b : Trail}
    (ha : [.item i, .field f] <:+ a) (hb : [.item j, .field f] <:+ b) : Apart a b := by
  have hij : Apart [.item i, .field f] [.item j, .field f] := by
    simp [Apart, List.suffix_cons_iff, h, h.symm]
  exact hij.of_suffix ha hb

end Trail

/-! ### The children of a node are apart

Parts in different fields are apart, so a list of parts is put together field by field:
`Spread fs ps` says that the parts `ps` are apart and in the fields `fs`.
-/

namespace Part

variable {α : Type}

/-- Parts whose steps are apart. -/
abbrev Apart (p q : Part α) : Prop := Trail.Apart p.steps q.steps

instance : Std.Symm (@Part.Apart α) := ⟨fun _ _ h => h.symm⟩

/-- The parts are apart, and each lies in one of the fields. -/
structure Spread (fs : List Field) (ps : List (Part α)) : Prop where
  apart : ps.Pairwise Part.Apart
  fields : ∀ p ∈ ps, ∃ f ∈ fs, [.field f] <:+ p.steps

theorem Spread.nil : Spread [] ([] : List (Part α)) := ⟨.nil, by simp⟩

theorem Spread.append {fs gs : List Field} {ps qs : List (Part α)} (hp : Spread fs ps)
    (hq : Spread gs qs) (h : ∀ f ∈ fs, f ∉ gs) : Spread (fs ++ gs) (ps ++ qs) := by
  constructor
  · rw [List.pairwise_append]
    refine ⟨hp.apart, hq.apart, ?_⟩
    intro p hpm q hqm
    obtain ⟨f, hf, hpf⟩ := hp.fields p hpm
    obtain ⟨g, hg, hqg⟩ := hq.fields q hqm
    refine Trail.apart_of_field ?_ hpf hqg
    rintro rfl
    exact h f hf hg
  · intro p hpm
    rcases List.mem_append.1 hpm with hpm | hpm
    · obtain ⟨f, hf, hpf⟩ := hp.fields p hpm
      exact ⟨f, List.mem_append_left _ hf, hpf⟩
    · obtain ⟨f, hf, hpf⟩ := hq.fields p hpm
      exact ⟨f, List.mem_append_right _ hf, hpf⟩

theorem Spread.single (f : Field) (role : Category) (a : α) : Spread [f] [one f role a] := by
  refine ⟨List.pairwise_singleton _ _, ?_⟩
  intro p hp
  rw [List.mem_singleton] at hp
  exact ⟨f, List.mem_singleton_self f, hp ▸ List.suffix_refl _⟩

theorem Spread.cons {f : Field} {role : Category} {a : α} {gs : List Field} {qs : List (Part α)}
    (hq : Spread gs qs) (h : f ∉ gs) : Spread (f :: gs) (one f role a :: qs) :=
  (Spread.single f role a).append hq (by simpa using h)

theorem Spread.opt (f : Field) (role : Category) (a : Option α) : Spread [f] (opt f role a) := by
  cases a with
  | none => exact ⟨.nil, by simp [Part.opt]⟩
  | some a => exact Spread.single f role a

/-- The parts of different items are apart, so those of all items are if those of each are. -/
theorem Spread.inEach {γ : Type} (f : Field) {parts : γ → List (Part α)}
    (h : ∀ c, (parts c).Pairwise Part.Apart) (items : List γ) :
    Spread [f] (inEach f parts items) := by
  constructor
  · rw [Part.inEach, List.pairwise_flatMap]
    constructor
    · rintro ⟨c, i⟩ _
      rw [List.pairwise_map]
      exact (h c).imp fun hpq => hpq.append _
    · have hidx : (items.zipIdx.map Prod.snd).Nodup := by
        rw [List.zipIdx_map_snd]
        exact List.nodup_range' _
      rw [List.Nodup, List.pairwise_map] at hidx
      refine hidx.imp ?_
      rintro ⟨c, i⟩ ⟨d, j⟩ hij p hp q hq
      obtain ⟨p, -, rfl⟩ := List.mem_map.1 hp
      obtain ⟨q, -, rfl⟩ := List.mem_map.1 hq
      exact Trail.apart_of_item hij (List.suffix_append _ _) (List.suffix_append _ _)
  · intro p hp
    obtain ⟨i, c, -, q, -, rfl⟩ := mem_inEach.1 hp
    exact ⟨f, List.mem_singleton_self f, q.steps ++ [.item i], by simp [under]⟩

theorem Spread.each (f : Field) (role : Category) (as : List α) : Spread [f] (each f role as) :=
  .inEach f (fun _ => List.pairwise_singleton _ _) as

end Part

namespace Shape

variable {α : Type}

open TreeWalk.Part

/-- A `try` with a list of catch clauses has no parts in the field of the single one. -/
private theorem spread_handlers (block : α) (handler : Option (CatchClause α))
    (first : CatchClause α) (rest : List (CatchClause α)) (finalizer : Option α) :
    Spread [.block, .handlers, .finalizer]
      (tryStatement block handler (first :: rest) finalizer).walked := by
  have hc : Spread [.handlers]
      (Part.inEach .handlers (fun c => [one .body .scopeBody c.body]) (first :: rest)) :=
    .inEach .handlers (fun _ => List.pairwise_singleton _ _) _
  exact .append (.cons hc (by decide)) (.opt _ _ _) (by decide)

theorem exists_spread_walked (s : Shape α) : ∃ fs, Spread fs s.walked := by
  cases s with
  | program body => exact ⟨_, .each _ _ _⟩
  | blockStatement body => exact ⟨_, .each _ _ _⟩
  | expressionStatement expression => exact ⟨_, .single _ _ _⟩
  | ifStatement test consequent alternate =>
    exact ⟨_, .cons (.cons (.opt _ _ _) (by decide)) (by decide)⟩
  | labeledStatement label body => exact ⟨_, .single _ _ _⟩
  | withStatement object body => exact ⟨_, .cons (.single _ _ _) (by decide)⟩
  | switchStatement discriminant cases =>
    refine ⟨_, .cons (.inEach .cases ?_ cases) (by decide)⟩
    intro c
    exact (Spread.append (.opt _ _ _) (.each _ _ _) (by decide)).apart
  | returnStatement argument => exact ⟨_, .opt _ _ _⟩
  | throwStatement argument => exact ⟨_, .single _ _ _⟩
  | tryStatement block handler handlers finalizer =>
    cases handlers with
    | nil =>
      have hc : Spread [.handler] (handler.toList.map fun c =>
          (one .body .scopeBody c.body).under [.field .handler]) := by
        cases handler <;> simp [under, one, Spread.mk]
      exact ⟨_, .append (.cons hc (by decide)) (.opt _ _ _) (by decide)⟩
    | cons first rest => exact ⟨_, spread_handlers block handler first rest finalizer⟩
  | loop form test body => exact ⟨_, .cons (.single _ _ _) (by decide)⟩
  | forStatement init test update body =>
    exact ⟨_, .append (.append (.append (.opt _ _ _) (.opt _ _ _) (by decide)) (.opt _ _ _)
      (by decide)) (.single _ _ _) (by decide)⟩
  | forInStatement left right body =>
    exact ⟨_, .cons (.cons (.single _ _ _) (by decide)) (by decide)⟩
  | function form id params body => exact ⟨_, .single _ _ _⟩
  | variableDeclaration declarations kind =>
    rw [walked]
    refine ⟨_, .inEach .declarations ?_ declarations⟩
    intro d
    exact (Spread.opt _ _ d.init).apart
  | arrayExpression elements =>
    rw [walked]
    refine ⟨_, .inEach .elements ?_ elements⟩
    intro e
    cases e <;> simp
  | objectExpression properties =>
    rw [walked]
    refine ⟨_, .inEach .properties ?_ properties⟩
    intro p
    exact List.pairwise_singleton _ _
  | sequenceExpression expressions => exact ⟨_, .each _ _ _⟩
  | unary form operator prefixed argument => exact ⟨_, .single _ _ _⟩
  | binary form operator left right => exact ⟨_, .cons (.single _ _ _) (by decide)⟩
  | conditionalExpression test consequent alternate =>
    exact ⟨_, .cons (.cons (.single _ _ _) (by decide)) (by decide)⟩
  | call form callee arguments => exact ⟨_, .cons (.each _ _ _) (by decide)⟩
  | memberExpression object property computed =>
    cases computed with
    | false => exact ⟨_, .single _ _ _⟩
    | true => exact ⟨_, .cons (.single _ _ _) (by decide)⟩
  | _ => exact ⟨_, .nil⟩

/-- The parts of a node are apart. -/
theorem walked_apart (s : Shape α) : s.walked.Pairwise Part.Apart := by
  obtain ⟨fs, h⟩ := s.exists_spread_walked
  exact h.apart

/-- Different parts of a node are apart. -/
theorem apart_of_ne {s : Shape α} {p q : Part α} (hp : p ∈ s.walked) (hq : q ∈ s.walked)
    (h : p ≠ q) : Trail.Apart p.steps q.steps :=
  s.walked_apart.forall hp hq h

/-- It takes a step to come to a part. -/
theorem steps_ne_nil {s : Shape α} {p : Part α} (hp : p ∈ s.walked) : p.steps ≠ [] := by
  obtain ⟨fs, h⟩ := s.exists_spread_walked
  obtain ⟨f, -, hf⟩ := h.fields p hp
  intro hnil
  rw [hnil] at hf
  exact absurd (List.suffix_nil.1 hf) (List.cons_ne_nil _ _)

/-- A part of a record and another field, of the same record or of another in the list. -/
private theorem apart_record {γ : Type} {f g : Field} {parts : γ → List (Part α)} {items : List γ}
    (h : ∀ c, ∀ q ∈ parts c, Trail.Apart q.steps [Step.field g]) {p : Part α}
    (hp : p ∈ inEach f parts items) (j : Nat) :
    Trail.Apart p.steps [Step.field g, .item j, .field f] := by
  obtain ⟨i, c, -, q, hq, rfl⟩ := mem_inEach.1 hp
  by_cases hij : i = j
  · subst hij
    exact (h c q hq).append [.item i, .field f]
  · exact Trail.apart_of_item hij (List.suffix_append _ _) (List.suffix_cons _ _)

/-- A part and a child that is not walked are apart. -/
theorem unwalked_apart {s : Shape α} {p : Part α} (hp : p ∈ s.walked) {u : Trail × α}
    (hu : u ∈ s.unwalked) : Trail.Apart p.steps u.1 := by
  cases s with
  | labeledStatement label body =>
    simp only [walked, unwalked, List.mem_singleton] at hp hu
    subst hp hu
    simp [one, Trail.Apart, List.suffix_cons_iff]
  | tryStatement block handler handlers finalizer =>
    cases handlers with
    | nil =>
      simp only [walked, unwalked, List.isEmpty_nil, if_true, List.zipIdx_nil, List.map_nil,
        List.append_nil, List.mem_flatMap, List.mem_singleton] at hp hu
      obtain ⟨c, -, rfl⟩ := hu
      rcases List.mem_append.1 hp with hp | hp
      · rcases List.mem_cons.1 hp with rfl | hp
        · simp [one, Trail.Apart, List.suffix_cons_iff]
        · obtain ⟨d, -, rfl⟩ := List.mem_map.1 hp
          simp [one, under, Trail.Apart, List.suffix_cons_iff]
      · obtain ⟨b, -, rfl⟩ := mem_opt.1 hp
        simp [one, Trail.Apart, List.suffix_cons_iff]
    | cons first rest =>
      obtain ⟨f, hf, hpf⟩ := (spread_handlers block handler first rest finalizer).fields p hp
      simp only [walked, unwalked, List.isEmpty_cons, Bool.false_eq_true, if_false] at hp hu
      rcases List.mem_append.1 hu with hu | hu
      · have huf : [Step.field .handler] <:+ u.1 := by
          obtain ⟨c, -, hu⟩ := List.mem_flatMap.1 hu
          rcases List.mem_cons.1 hu with rfl | hu
          · exact List.suffix_cons _ _
          · obtain rfl := List.mem_singleton.1 hu
            exact List.suffix_cons _ _
        refine Trail.apart_of_field ?_ hpf huf
        rintro rfl
        simp at hf
      · obtain ⟨⟨c, j⟩, -, rfl⟩ := List.mem_map.1 hu
        rcases List.mem_append.1 hp with hp | hp
        · rcases List.mem_cons.1 hp with rfl | hp
          · simp [one, Trail.Apart, List.suffix_cons_iff]
          · refine apart_record ?_ hp j
            intro c q hq
            obtain rfl := List.mem_singleton.1 hq
            simp [one, Trail.Apart, List.suffix_cons_iff]
        · obtain ⟨b, -, rfl⟩ := mem_opt.1 hp
          simp [one, Trail.Apart, List.suffix_cons_iff]
  | function form id params body =>
    simp only [walked, unwalked, List.mem_singleton, List.mem_append, List.mem_map,
      Prod.exists] at hp hu
    subst hp
    rcases hu with ⟨a, -, rfl⟩ | ⟨a, i, -, rfl⟩ <;> simp [one, Trail.Apart, List.suffix_cons_iff]
  | variableDeclaration declarations kind =>
    simp only [walked, unwalked, List.mem_map, Prod.exists] at hp hu
    obtain ⟨d, j, -, rfl⟩ := hu
    refine apart_record ?_ hp j
    intro c q hq
    obtain ⟨b, -, rfl⟩ := mem_opt.1 hq
    simp [one, Trail.Apart, List.suffix_cons_iff]
  | objectExpression properties =>
    simp only [walked, unwalked, List.mem_map, Prod.exists] at hp hu
    obtain ⟨d, j, -, rfl⟩ := hu
    refine apart_record ?_ hp j
    intro c q hq
    obtain rfl := List.mem_singleton.1 hq
    simp [one, Trail.Apart, List.suffix_cons_iff]
  | memberExpression object property computed =>
    cases computed with
    | true => simp [unwalked] at hu
    | false =>
      simp only [walked, unwalked, List.mem_singleton, Bool.false_eq_true, if_false] at hp hu
      subst hp hu
      simp [one, Trail.Apart, List.suffix_cons_iff]
  | _ => simp [walked, unwalked] at hp hu

/-- It takes a step to come to a child that is not walked. -/
theorem unwalked_ne_nil {s : Shape α} {u : Trail × α} (hu : u ∈ s.unwalked) : u.1 ≠ [] := by
  rintro hnil
  cases s <;> simp [unwalked] at hu <;> grind

end Shape

/-! ### Two places that a walk reaches -/

namespace Cursor

variable {e c d : Cursor}

/-- A part is further on than the node. -/
theorem Reaches.ne_of_part {p : Part Node} (hp : p ∈ c.node.shape.walked)
    (h : (c.part p).Reaches d) : c.trail ≠ d.trail := by
  intro heq
  have hlen := h.suffix.length_le
  rw [trail_part, ← heq, List.length_append] at hlen
  have hpos := List.length_pos_iff.2 (Shape.steps_ne_nil hp)
  omega

theorem Reaches.eq_of_trail (h : c.Reaches d) (htrail : c.trail = d.trail) : c = d := by
  cases h with
  | here => rfl
  | inside hp h => exact absurd htrail (h.ne_of_part hp)

/-- **Of two places that a walk reaches, one is reached from the other or they are apart.** -/
theorem Reaches.related (hc : e.Reaches c) (hd : e.Reaches d) :
    c.Reaches d ∨ d.Reaches c ∨ Trail.Apart c.trail d.trail := by
  induction hc with
  | here => exact .inl hd
  | @inside e c p hp hc ih =>
    cases hd with
    | here => exact .inr (.inl (.inside hp hc))
    | @inside _ _ q hq hd =>
      by_cases hpq : p = q
      · subst hpq
        exact ih hd
      · have hapart := (Shape.apart_of_ne hp hq hpq).append e.trail
        exact .inr (.inr (hapart.of_suffix hc.suffix hd.suffix))

/-- A walk never comes to a child that is not walked, nor to anything below one. -/
theorem Reaches.not_below_unwalked (hc : e.Reaches c) (hd : e.Reaches d) {u : Trail × Node}
    (hu : u ∈ c.node.shape.unwalked) : ¬ u.1 ++ c.trail <:+ d.trail := by
  intro hsuf
  have hup : c.trail <:+ u.1 ++ c.trail := List.suffix_append _ _
  have hpos := List.length_pos_iff.2 (Shape.unwalked_ne_nil hu)
  have hlen := hsuf.length_le
  rw [List.length_append] at hlen
  rcases hc.related hd with hcd | hdc | hapart
  · cases hcd with
    | here => omega
    | @inside _ _ p hp h =>
      have hne := (Shape.unwalked_apart hp hu).append c.trail
      exact (hne.of_suffix h.suffix hsuf).1 (List.suffix_refl _)
  · have hle := hdc.suffix.length_le
    omega
  · exact hapart.1 (hup.trans hsuf)

end Cursor

end TreeWalk
