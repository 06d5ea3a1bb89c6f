/-
The bodies that scopes are opened for.

A scope walk opens a scope for the body of each function and of each catch clause that it
comes to, and for nothing else.  `Node.bodies` lists these bodies in the order of the walk,
outer ones before those inside, and `Node.bodiesAround` those of them that a place lies in.

From a node to one of its parts, the bodies around change by at most one: the part itself,
where it is such a body, `bodiesTo_of_part`.  That is so because what lies below another
part is apart from the place.
-/
import TreeWalk.Proofs.Scope.Events

namespace TreeWalk

/-- The kind of the scope that is opened for a part, if one is. -/
def Shape.bodyKind? {α : Type} : Shape α → Part α → Option ScopeKind
  | .function .., _ => some .function
  | .tryStatement .., p => if p.role = .scopeBody then some .catchClause else none
  | _, _ => none

theorem Shape.bodyKind?_map {α β : Type} (f : α → β) (s : Shape α) (p : Part α) :
    (s.map f).bodyKind? (p.map f) = s.bodyKind? p := by
  cases s <;> rfl

/-- The body of a function or of a catch clause. -/
structure Body where
  kind : ScopeKind
  place : Cursor

/-- The place is the body or lies inside. -/
def Body.Contains (b : Body) (c : Cursor) : Prop := b.place.trail <:+ c.trail

instance (b : Body) (c : Cursor) : Decidable (b.Contains c) :=
  inferInstanceAs (Decidable (_ <:+ _))

/-- The bodies below a node at a place, in the order of a walk. -/
def Node.bodies (n : Node) : Trail → List Body :=
  n.para fun _ s trail => s.walked.flatMap fun p =>
    (s.bodyKind? p).toList.map (⟨·, ⟨p.child.1, p.steps ++ trail⟩⟩) ++
      p.child.2 (p.steps ++ trail)

namespace Cursor

/-- The bodies below here, in the order of a walk. -/
def bodies (c : Cursor) : List Body := c.node.bodies c.trail

/-- The body that a part of the node here is, if it is one. -/
def bodyAt (c : Cursor) (p : Part Node) : List Body :=
  (c.node.shape.bodyKind? p).toList.map (⟨·, c.part p⟩)

theorem bodies_eq (c : Cursor) :
    c.bodies = c.node.shape.walked.flatMap fun p => c.bodyAt p ++ (c.part p).bodies := by
  rw [bodies, Node.bodies, Node.para_eq, Shape.walked_map, List.flatMap_map]
  simp only [Shape.bodyKind?_map]
  rfl

/-- The bodies on the way from here to a place, the innermost first. -/
def bodiesTo (c d : Cursor) : List Body := (c.bodies.filter (·.Contains d)).reverse

end Cursor

/-- The bodies that a place in a tree lies in, the innermost first. -/
def Node.bodiesAround (tree : Node) (c : Cursor) : List Body := (Cursor.root tree).bodiesTo c

/-- The innermost body that a place in a tree lies in, if it lies in one. -/
def Node.bodyAround (tree : Node) (c : Cursor) : Option Body := (tree.bodiesAround c).head?

namespace Cursor

variable {c d : Cursor} {b : Body}

theorem bodyAt_of_none {p : Part Node} (h : c.node.shape.bodyKind? p = none) :
    c.bodyAt p = [] := by
  rw [bodyAt, h]
  rfl

theorem bodyAt_of_some {p : Part Node} {kind : ScopeKind}
    (h : c.node.shape.bodyKind? p = some kind) : c.bodyAt p = [⟨kind, c.part p⟩] := by
  rw [bodyAt, h]
  rfl

theorem mem_bodyAt {p : Part Node} :
    b ∈ c.bodyAt p ↔ c.node.shape.bodyKind? p = some b.kind ∧ b.place = c.part p := by
  simp only [bodyAt, List.mem_map, Option.mem_toList]
  constructor
  · rintro ⟨kind, hkind, rfl⟩
    exact ⟨hkind, rfl⟩
  · rintro ⟨hkind, hplace⟩
    exact ⟨b.kind, hkind, by rw [← hplace]⟩

/-- **The bodies below a place are those of the functions and of the clauses that a walk comes to
from there.** -/
theorem mem_bodies_iff :
    b ∈ c.bodies ↔ ∃ d, c.Reaches d ∧ ∃ p ∈ d.node.shape.walked, b ∈ d.bodyAt p := by
  obtain ⟨n, trail⟩ := c
  induction n using Node.walked_induction generalizing trail with
  | step n ih =>
    rw [bodies_eq]
    constructor
    · intro hb
      obtain ⟨p, hp, hb⟩ := List.mem_flatMap.1 hb
      rcases List.mem_append.1 hb with hb | hb
      · exact ⟨_, .here _, p, hp, hb⟩
      · obtain ⟨d, hd, hbody⟩ := (ih p hp _).1 hb
        exact ⟨d, .inside hp hd, hbody⟩
    · rintro ⟨d, hd, q, hq, hb⟩
      cases hd with
      | here => exact List.mem_flatMap.2 ⟨q, hq, List.mem_append_left _ hb⟩
      | @inside _ _ p hp hd =>
        have hbelow := (ih p hp _).2 ⟨d, hd, q, hq, hb⟩
        exact List.mem_flatMap.2 ⟨p, hp, List.mem_append_right _ hbelow⟩

/-- A body below a node is further on than the node. -/
theorem exists_part_of_mem_bodies (hb : b ∈ c.bodies) :
    ∃ p ∈ c.node.shape.walked, (c.part p).Reaches b.place := by
  obtain ⟨d, hd, q, hq, hb⟩ := mem_bodies_iff.1 hb
  obtain ⟨-, hplace⟩ := mem_bodyAt.1 hb
  rw [hplace]
  cases hd with
  | here => exact ⟨q, hq, .here _⟩
  | @inside _ _ p hp hd => exact ⟨p, hp, hd.part hq⟩

/-- A body below a node does not contain the node. -/
theorem not_contains_of_mem_bodies (hb : b ∈ c.bodies) : ¬ b.Contains c := by
  obtain ⟨p, hp, hreach⟩ := exists_part_of_mem_bodies hb
  intro hsuf
  have hpart : c.trail <:+ b.place.trail := (List.suffix_append p.steps c.trail).trans hreach.suffix
  exact hreach.ne_of_part hp (hpart.eq_of_length_le hsuf.length_le)

/-- What is a part, or is below it, is at or below the place of the part. -/
theorem suffix_of_mem_part {p : Part Node} (hb : b ∈ c.bodyAt p ++ (c.part p).bodies) :
    (c.part p).trail <:+ b.place.trail := by
  rcases List.mem_append.1 hb with hb | hb
  · exact (mem_bodyAt.1 hb).2 ▸ List.suffix_refl _
  · obtain ⟨q, -, hreach⟩ := exists_part_of_mem_bodies hb
    exact (List.suffix_append _ _).trans hreach.suffix

/-! ### The bodies around a place -/

theorem bodiesTo_self (c : Cursor) : c.bodiesTo c = [] := by
  have hnone : c.bodies.filter (·.Contains c) = [] := by
    rw [List.filter_eq_nil_iff]
    intro b hb
    simpa using not_contains_of_mem_bodies hb
  rw [bodiesTo, hnone, List.reverse_nil]

/-- What lies at or below one part contains nothing below another. -/
theorem filter_contains_of_apart {p q : Part Node} (hpq : Part.Apart p q)
    (hd : (c.part p).Reaches d) :
    (c.bodyAt q ++ (c.part q).bodies).filter (·.Contains d) = [] := by
  rw [List.filter_eq_nil_iff]
  intro b hb
  have hapart := (Trail.Apart.append hpq c.trail).of_suffix hd.suffix (suffix_of_mem_part hb)
  rw [decide_eq_true_eq]
  exact hapart.2

/-- **Below a part, the bodies on the way are those on the way from there, and the part itself
where it is one.** -/
theorem bodiesTo_of_part {p : Part Node} (hp : p ∈ c.node.shape.walked)
    (hd : (c.part p).Reaches d) : c.bodiesTo d = (c.part p).bodiesTo d ++ c.bodyAt p := by
  have hpart : c.bodies.filter (·.Contains d) =
      (c.bodyAt p ++ (c.part p).bodies).filter (·.Contains d) := by
    rw [bodies_eq, List.filter_flatMap]
    exact flatMap_eq_of_pairwise c.node.shape.walked_apart hp
      fun q hpq => filter_contains_of_apart hpq hd
  have hself : (c.bodyAt p).filter (·.Contains d) = c.bodyAt p := by
    rw [List.filter_eq_self]
    intro b hb
    simpa [Body.Contains, (mem_bodyAt.1 hb).2] using hd.suffix
  have hone : (c.bodyAt p).reverse = c.bodyAt p := by
    rw [bodyAt]
    cases c.node.shape.bodyKind? p <;> rfl
  rw [bodiesTo, hpart, List.filter_append, hself, List.reverse_append, hone, bodiesTo]

/-- The bodies below a node are at places of their own. -/
theorem pairwise_bodies (c : Cursor) :
    c.bodies.Pairwise fun a b => a.place.trail ≠ b.place.trail := by
  obtain ⟨n, trail⟩ := c
  induction n using Node.walked_induction generalizing trail with
  | step n ih =>
    rw [bodies_eq, List.pairwise_flatMap]
    constructor
    · intro p hp
      rw [List.pairwise_append]
      refine ⟨?_, ih p hp _, ?_⟩
      · rw [bodyAt]
        cases n.shape.bodyKind? p <;> simp
      · intro a ha b hb heq
        refine not_contains_of_mem_bodies hb ?_
        have hplace : b.place.trail = (part ⟨n, trail⟩ p).trail :=
          heq.symm.trans (congrArg Cursor.trail (mem_bodyAt.1 ha).2)
        show b.place.trail <:+ _
        exact hplace ▸ List.suffix_refl _
    · refine n.shape.walked_apart.imp ?_
      intro p q hpq a ha b hb
      have hapart := Trail.Apart.append hpq trail
      exact (hapart.of_suffix (suffix_of_mem_part ha) (suffix_of_mem_part hb)).ne

end Cursor

end TreeWalk
