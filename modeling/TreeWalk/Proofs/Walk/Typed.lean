/-
Searches by offsets for nodes of a type.

A search that is after a type settles on a node under that type only, which the node is
dispatched under last, once per place.  At the root that is the first dispatch there is, and
the search comes to it whatever the offsets of the root are.  Anywhere else the node is first
dispatched in its role, and the search goes on from there to the type of the node as it goes on
to its parts: only if the node covers the bounds.

A node with a range covers the bounds that it fits, so this makes no difference to it.  But a
node that lacks an offset, or has them the wrong way round, has no range and covers nothing but
open bounds.  Under its type it is found at the root alone, `findAt_ofType`, although its offsets
fit and in its role it is found everywhere, `findAt_ofType_unended`.
-/
import TreeWalk.Proofs.Walk.Ranges

namespace TreeWalk

/-! ### Dispatches under types -/

/-- A node is dispatched under its own type and under categories. -/
theorem Node.eq_typeName_of_mem_keysIn {n : Node} {role : Option Category} {key : String}
    (h : key ∈ n.keysIn role) : key = n.typeName ∨ ∃ c : Category, key = c.name := by
  have hown {key : String} (h : key ∈ n.ownKeys) :
      key = n.typeName ∨ ∃ c : Category, key = c.name := by
    unfold ownKeys at h
    split at h
    · rcases List.mem_cons.1 h with rfl | h
      · exact .inl rfl
      · exact .inr ⟨.function, List.mem_singleton.1 h⟩
    · exact .inl (List.mem_singleton.1 h)
  have hcons {c : Category} {keys : List String} {key : String} (h : key ∈ c.name :: keys)
      (hkeys : key ∈ keys → key = n.typeName ∨ ∃ c : Category, key = c.name) :
      key = n.typeName ∨ ∃ c : Category, key = c.name :=
    (List.mem_cons.1 h).elim (fun h => .inr ⟨c, h⟩) hkeys
  match role with
  | none => exact hown h
  | some .statement => exact hcons h hown
  | some .expression => exact hcons h hown
  | some .scopeBody => exact hcons h fun h => hcons h hown
  | some .forInit =>
    rw [keysIn] at h
    split at h
    · exact hcons h hown
    · exact hcons h fun h => hcons h hown
  | some .function => exact hcons h fun h => absurd h List.not_mem_nil

/-- A dispatch is under a key of its node in its role, and below the place where the walk starts
there is a role. -/
theorem Cursor.role_of_mem_postorder {c : Cursor} {around : List Cursor} {role : Option Category}
    {d : Dispatch} (hd : d ∈ c.postorder around role) :
    d.key ∈ d.cursor.node.keysIn d.role ∧
      (d.cursor = c ∧ d.role = role ∨ d.cursor.trail ≠ c.trail ∧ d.role ≠ none) := by
  obtain ⟨n, trail⟩ := c
  induction n using Node.walked_induction generalizing trail around role with
  | step n ih =>
    rw [postorder_eq] at hd
    rcases List.mem_append.1 hd with hd | hd
    · obtain ⟨p, hp, hd⟩ := List.mem_flatMap.1 hd
      obtain ⟨hkey, hrole⟩ := ih p hp _ hd
      refine ⟨hkey, .inr ⟨((reaches_of_mem_postorder hd).ne_of_part hp).symm, ?_⟩⟩
      rcases hrole with ⟨-, hrole⟩ | ⟨-, hrole⟩
      · rw [hrole]
        exact Option.some_ne_none _
      · exact hrole
    · obtain ⟨key, hkey, rfl⟩ := List.mem_map.1 hd
      exact ⟨List.mem_reverse.1 hkey, .inl ⟨rfl, rfl⟩⟩

namespace Node

variable {tree : Node} {d : Dispatch}

/-- The root is reached in no role, and all else in one. -/
theorem role_eq_none_iff (hd : d ∈ tree.dispatches) : d.role = none ↔ d.cursor.trail = [] := by
  rcases (Cursor.role_of_mem_postorder hd).2 with ⟨hroot, hrole⟩ | ⟨hne, hrole⟩
  · exact iff_of_true hrole (congrArg Cursor.trail hroot)
  · exact iff_of_false hrole hne

/-- A key that is a type is the own type of the node. -/
theorem type_of_key (hd : d ∈ tree.dispatches) {type : NodeType} (hkey : d.key = type.name) :
    d.cursor.node.type = type := by
  rcases eq_typeName_of_mem_keysIn (Cursor.role_of_mem_postorder hd).1 with hown | ⟨c, hc⟩
  · exact NodeType.name_injective (hown.symm.trans hkey)
  · exact absurd (hc.symm.trans hkey) (c.name_ne_typeName type)

/-- At each place that is walked there is a dispatch under the type of the node. -/
theorem exists_dispatch {c : Cursor} (hc : tree.Walked c) :
    ∃ d ∈ tree.dispatches, d.key = c.node.typeName ∧ d.cursor = c := by
  have hrole : (none : Option Category) ≠ some .function := by simp
  have hvisit : (⟨c.node.typeName, c⟩ : Visit) ∈
      ((Cursor.root tree).visits none).filter (Visit.isOwn c) := by
    rw [Cursor.Reaches.filter_isOwn hc hrole]
    exact List.mem_singleton_self _
  have hmem := (Cursor.perm_visits (.root tree) [] none).mem_iff.2 (List.mem_of_mem_filter hvisit)
  obtain ⟨d, hd, hsame⟩ := List.mem_map.1 hmem
  obtain ⟨hkey, hcursor⟩ := Visit.mk.inj hsame
  exact ⟨d, hd, hkey, hcursor⟩

/-- Under its type a node is dispatched first at the root alone. -/
theorem outermost_iff (hd : d ∈ tree.dispatches) (hkey : d.key = d.cursor.node.typeName) :
    d.outermost = true ↔ d.cursor.trail = [] := by
  rw [← role_eq_none_iff hd, Dispatch.outermost, beq_iff_eq, hkey]
  cases d.role with
  | none => exact iff_of_true rfl rfl
  | some c => exact iff_of_false (c.name_ne_typeName _).symm (Option.some_ne_none c)

end Node

/-! ### What a search for a type can find -/

/-- What fits the bounds covers them, if it has a range or if they are open. -/
theorem Target.covers_iff_of_fits {start stop : Option Offset} {n : Node}
    (hfits : (offsets start stop).fits n = true) :
    (offsets start stop).covers n = true ↔
      n.span?.isSome = true ∨ start = none ∧ stop = none := by
  constructor
  · intro hcovers
    cases hspan : n.span? with
    | some r => exact .inl rfl
    | none =>
      rw [covers, hspan, Bool.and_eq_true, Option.isNone_iff_eq_none,
        Option.isNone_iff_eq_none] at hcovers
      exact .inr hcovers
  · rintro (hspan | ⟨rfl, rfl⟩)
    · exact covers_of_fits hspan hfits
    · exact covers_open n

/-- A search by offsets for the type of the node can settle at the place. -/
structure Node.Findable (tree : Node) (start stop : Option Offset) (c : Cursor) : Prop where
  walked : tree.Walked c
  fits : (Target.offsets start stop).fits c.node = true
  /-- All nodes around it cover the bounds. -/
  around : ∀ e, tree.Walked e → e.Reaches c → e.trail ≠ c.trail →
    (Target.offsets start stop).covers e.node = true
  /-- Its node has a range, unless it is the root or the bounds are open. -/
  ranged : c.trail = [] ∨ c.node.span?.isSome = true ∨ start = none ∧ stop = none

/-- The search accepts a dispatch under a type just where it can settle on that type. -/
theorem Node.accepts_type_iff {tree : Node} {d : Dispatch} (hd : d ∈ tree.dispatches)
    (start stop : Option Offset) (type : NodeType) :
    (Target.offsets start stop).accepts (fun key _ => key == type.name) d = true ↔
      tree.Findable start stop d.cursor ∧ d.key = type.name := by
  have haround : d.around.all ((Target.offsets start stop).covers ·.node) = true ↔
      ∀ e, tree.Walked e → e.Reaches d.cursor → e.trail ≠ d.cursor.trail →
        (Target.offsets start stop).covers e.node = true := by
    rw [List.all_eq_true]
    simp only [mem_around_iff hd, and_imp]
  simp only [Target.accepts, Bool.and_eq_true, Bool.or_eq_true, haround, beq_iff_eq]
  constructor
  · rintro ⟨⟨haround, hentered⟩, hfits, hkey⟩
    rw [outermost_iff hd (by rw [hkey, typeName, type_of_key hd hkey]),
      Target.covers_iff_of_fits hfits] at hentered
    exact ⟨⟨reaches_of_mem_dispatches hd, hfits, haround, hentered⟩, hkey⟩
  · rintro ⟨h, hkey⟩
    rw [outermost_iff hd (by rw [hkey, typeName, type_of_key hd hkey]),
      Target.covers_iff_of_fits h.fits]
    exact ⟨⟨h.around, h.ranged⟩, h.fits, hkey⟩

/-- **A search by offsets for a type finds a node of that type, if there is one that it can settle
on.**

Its offsets fit the bounds, all around it covers them, and it has a range itself unless it is
the root or the bounds are open. -/
theorem Walk.findAt_ofType {ω σ : Type} (tree : Node) (start stop : Option Offset)
    (type : NodeType) (spare : Nat) (st : σ) (world : ω) :
    ∃ found, findAt (tree.walkFuel + spare) tree start stop (Test.ofType type.name) none st world =
        some (.ok found, world) ∧
      (∀ c, found = some c → tree.Findable start stop c ∧ c.node.type = type) ∧
      ∀ c, tree.Findable start stop c → c.node.type = type → found.isSome = true := by
  refine ⟨_, find_eq tree (.offsets start stop) (fun key _ => key == type.name) spare st world,
    ?_, ?_⟩
  · intro c hc
    obtain ⟨d, hd, rfl⟩ := Option.map_eq_some_iff.1 hc
    have hmem := List.mem_of_find?_eq_some hd
    obtain ⟨hfindable, hkey⟩ :=
      (Node.accepts_type_iff hmem start stop type).1 (List.find?_some hd)
    exact ⟨hfindable, Node.type_of_key hmem hkey⟩
  · rintro c hc rfl
    obtain ⟨d, hd, hkey, rfl⟩ := Node.exists_dispatch hc.walked
    rw [Option.isSome_map, List.find?_isSome]
    exact ⟨d, hd, (Node.accepts_type_iff hd start stop _).2 ⟨hc, hkey⟩⟩

/-- A program with a statement of which only the start is recorded. -/
def unended : Node :=
  (Build.program [{ Build.empty with start := some 5 }]).withOffsets 0 10

/-- The statement fits and the program around it covers the bounds; yet the search for its type
finds nothing, and the search for a statement finds it. -/
theorem Walk.findAt_ofType_unended : ∃ c, unended.Walked c ∧
    (Target.offsets (some 5) none).fits c.node = true ∧
    (∀ e, unended.Walked e → e.Reaches c → e.trail ≠ c.trail →
      (Target.offsets (some 5) none).covers e.node = true) ∧
    findAt unended.walkFuel unended (some 5) none (Test.ofType c.node.typeName) none () () =
      some (.ok none, ()) ∧
    findAt unended.walkFuel unended (some 5) none (Test.ofType Category.statement.name) none () ()
      = some (.ok (some c), ()) := by
  let c : Cursor := ⟨{ Build.empty with start := some 5 }, [.item 0, .field .body]⟩
  have hwalked : unended.Walked c := .inside (List.mem_singleton_self _) (.here c)
  have haround : ∀ e, unended.Walked e → e.trail ≠ c.trail →
      (Target.offsets (some 5) none).covers e.node = true :=
    Node.forall_walked (by decide)
  exact ⟨c, hwalked, rfl, fun e he _ => haround e he, rfl, rfl⟩

end TreeWalk
