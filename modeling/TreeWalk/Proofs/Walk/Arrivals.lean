/-
The places of a tree with the roles that they are reached in.

A walk comes to each place once and in one role, and dispatches the node there under the keys
that it has in that role.  `Arrival.onward` lists the places in the order in which a walk
comes to them, each before its parts, and the visits are what the arrivals on that list make
of their keys: `visits_eq_onward`.

Every arrival but the first is at a part of another one, so the list is its first arrival and
the parts of all that are on it: `perm_onward`.  Whatever is counted over the arrivals can so
be counted over the parts of each place instead.
-/
import Mathlib.Data.List.Perm.Basic
import TreeWalk.Proofs.Walk.Visits

namespace TreeWalk

/-- A place, and the role that a walk reaches it in, if it has one. -/
structure Arrival where
  cursor : Cursor
  role : Option Category

/-- The arrivals of a walk of the node, at a place and in a role. -/
def Node.arrivals (n : Node) : Trail → Option Category → List Arrival :=
  n.fold fun n s trail role =>
    ⟨⟨n, trail⟩, role⟩ :: s.walked.flatMap fun p => p.child (p.steps ++ trail) (some p.role)

namespace Arrival

/-- The arrivals at the parts of the place. -/
def parts (a : Arrival) : List Arrival :=
  a.cursor.node.shape.walked.map fun p => ⟨a.cursor.part p, some p.role⟩

/-- The arrivals of a walk from here on, the one here first. -/
def onward (a : Arrival) : List Arrival := a.cursor.node.arrivals a.cursor.trail a.role

/-- The keys that the node is dispatched under, the outermost first. -/
def keys (a : Arrival) : List String := a.cursor.node.keysIn a.role

/-- The visits of the place itself. -/
def own (a : Arrival) : List Visit := a.keys.map (⟨·, a.cursor⟩)

/-- The visits of a walk from here on. -/
def visits (a : Arrival) : List Visit := a.cursor.visits a.role

theorem onward_eq (a : Arrival) : a.onward = a :: a.parts.flatMap onward := by
  rw [onward, Node.arrivals, Node.fold_eq, Shape.walked_map, List.flatMap_map, parts,
    List.flatMap_map]
  rfl

theorem mem_parts {a b : Arrival} :
    b ∈ a.parts ↔ ∃ p ∈ a.cursor.node.shape.walked, b = ⟨a.cursor.part p, some p.role⟩ := by
  simp only [parts, List.mem_map, eq_comm]

/-- **What holds of an arrival if it holds of those at its parts, holds of every one.** -/
theorem parts_induction {P : Arrival → Prop} (step : ∀ a, (∀ b ∈ a.parts, P b) → P a)
    (a : Arrival) : P a := by
  obtain ⟨⟨n, trail⟩, role⟩ := a
  induction n using Node.walked_induction generalizing trail role with
  | step n ih =>
    refine step _ ?_
    intro b hb
    obtain ⟨p, hp, rfl⟩ := mem_parts.1 hb
    exact ih p hp _ _

/-- **The visits of a walk are those of its arrivals.** -/
theorem visits_eq_onward (a : Arrival) : a.visits = a.onward.flatMap own := by
  induction a using parts_induction with
  | step a ih =>
    rw [visits, Cursor.visits_eq, onward_eq, List.flatMap_cons, List.flatMap_assoc, parts,
      List.flatMap_map]
    refine congrArg _ (List.flatMap_congr ?_)
    intro p hp
    exact ih _ (mem_parts.2 ⟨p, hp, rfl⟩)

/-- An arrival is at a place that is reached. -/
theorem reaches_of_mem_onward {a b : Arrival} (hb : b ∈ a.onward) :
    a.cursor.Reaches b.cursor := by
  induction a using parts_induction with
  | step a ih =>
    rw [onward_eq] at hb
    rcases List.mem_cons.1 hb with rfl | hb
    · exact .here _
    · obtain ⟨d, hd, hb⟩ := List.mem_flatMap.1 hb
      have hreach := ih d hd hb
      obtain ⟨p, hp, rfl⟩ := mem_parts.1 hd
      exact .inside hp hreach

/-- There is an arrival at each place that is reached. -/
theorem exists_mem_onward {a : Arrival} {c : Cursor} (h : a.cursor.Reaches c) :
    ∃ b ∈ a.onward, b.cursor = c := by
  obtain ⟨e, role⟩ := a
  replace h : e.Reaches c := h
  induction h generalizing role with
  | here e =>
    refine ⟨⟨e, role⟩, ?_, rfl⟩
    rw [onward_eq]
    exact List.mem_cons_self
  | @inside e c p hp h ih =>
    obtain ⟨b, hb, hc⟩ := ih (some p.role)
    refine ⟨b, ?_, hc⟩
    rw [onward_eq]
    exact List.mem_cons_of_mem _ (List.mem_flatMap.2 ⟨_, mem_parts.2 ⟨p, hp, rfl⟩, hb⟩)

/-- No place is reached in the role of functions, unless the walk starts there in it. -/
theorem role_ne_function {a b : Arrival} (ha : a.role ≠ some .function) (hb : b ∈ a.onward) :
    b.role ≠ some .function := by
  induction a using parts_induction with
  | step a ih =>
    rw [onward_eq] at hb
    rcases List.mem_cons.1 hb with rfl | hb
    · exact ha
    · obtain ⟨d, hd, hb⟩ := List.mem_flatMap.1 hb
      refine ih d hd ?_ hb
      obtain ⟨p, hp, rfl⟩ := mem_parts.1 hd
      exact fun hrole => Shape.role_ne_function hp (Option.some.inj hrole)

/-- **A walk arrives nowhere twice.** -/
theorem pairwise_onward (a : Arrival) :
    a.onward.Pairwise fun b d => b.cursor.trail ≠ d.cursor.trail := by
  induction a using parts_induction with
  | step a ih =>
    rw [onward_eq, List.pairwise_cons]
    constructor
    · intro b hb
      obtain ⟨d, hd, hb⟩ := List.mem_flatMap.1 hb
      have hreach := reaches_of_mem_onward hb
      obtain ⟨p, hp, rfl⟩ := mem_parts.1 hd
      exact hreach.ne_of_part hp
    · rw [List.pairwise_flatMap]
      refine ⟨ih, ?_⟩
      rw [parts, List.pairwise_map]
      refine a.cursor.node.shape.walked_apart.imp ?_
      intro p q hpq b hb d hd
      have hapart := (Trail.Apart.append hpq a.cursor.trail).of_suffix
        (reaches_of_mem_onward hb).suffix (reaches_of_mem_onward hd).suffix
      exact hapart.ne

/-- The visits at a place are those of the one arrival there. -/
theorem filter_visits {a b : Arrival} (hb : b ∈ a.onward) :
    a.visits.filter (fun v => v.cursor.trail == b.cursor.trail) = b.own := by
  have : Std.Symm fun d e : Arrival => d.cursor.trail ≠ e.cursor.trail := ⟨fun _ _ h => h.symm⟩
  have hown : b.own.filter (fun v => v.cursor.trail == b.cursor.trail) = b.own := by
    rw [List.filter_eq_self]
    intro v hv
    obtain ⟨key, -, rfl⟩ := List.mem_map.1 hv
    exact beq_self_eq_true _
  rw [visits_eq_onward, List.filter_flatMap, flatMap_eq_of_pairwise a.pairwise_onward hb ?_, hown]
  intro d hd
  rw [List.filter_eq_nil_iff]
  intro v hv
  obtain ⟨key, -, rfl⟩ := List.mem_map.1 hv
  simpa using hd.symm

/-- **The arrivals are the first one and those at the parts of all.** -/
theorem perm_onward (a : Arrival) : a.onward.Perm (a :: a.onward.flatMap parts) := by
  induction a using parts_induction with
  | step a ih =>
    have hparts : (a.parts.flatMap onward).Perm
        (a.parts ++ (a.parts.flatMap onward).flatMap parts) := by
      rw [List.flatMap_assoc]
      have hcons := (List.map_append_flatMap_perm a.parts id (·.onward.flatMap parts)).symm
      rw [List.map_id] at hcons
      exact (List.Perm.flatMap_left _ ih).trans hcons
    rw [onward_eq, List.flatMap_cons]
    exact hparts.cons a

end Arrival

/-! ### The places of a tree -/

namespace Node

/-- Where a walk of the tree comes to, from its root on. -/
def onward (tree : Node) : List Arrival := Arrival.onward ⟨.root tree, none⟩

/-- The places of the tree, in the order in which a walk comes to them. -/
def places (tree : Node) : List Cursor := tree.onward.map Arrival.cursor

/-- **The places are those that a walk comes to.** -/
theorem mem_places {tree : Node} {c : Cursor} : c ∈ tree.places ↔ tree.Walked c := by
  constructor
  · intro hc
    obtain ⟨a, ha, rfl⟩ := List.mem_map.1 hc
    exact Arrival.reaches_of_mem_onward ha
  · intro hc
    obtain ⟨a, ha, hcursor⟩ := Arrival.exists_mem_onward (a := ⟨.root tree, none⟩) hc
    exact List.mem_map.2 ⟨a, ha, hcursor⟩

/-- Each place is listed once. -/
theorem nodup_places (tree : Node) : (tree.places.map Cursor.trail).Nodup := by
  rw [places, List.map_map, List.Nodup, List.pairwise_map]
  exact Arrival.pairwise_onward _

/-- No place of a tree is reached in the role of functions. -/
theorem role_ne_function {tree : Node} {a : Arrival} (ha : a ∈ tree.onward) :
    a.role ≠ some .function :=
  Arrival.role_ne_function (a := ⟨.root tree, none⟩) (fun h => nomatch h) ha

/-- The visits of a walk of the tree are those of its arrivals. -/
theorem visits_root (tree : Node) :
    (Cursor.root tree).visits none = tree.onward.flatMap Arrival.own :=
  Arrival.visits_eq_onward ⟨.root tree, none⟩

/-- The visits under own types are one at each place. -/
theorem map_filter_isTyped (tree : Node) :
    (((Cursor.root tree).visits none).filter Visit.isTyped).map Visit.cursor = tree.places := by
  have hown : ∀ a ∈ tree.onward, (a.own.filter Visit.isTyped).map Visit.cursor = [a.cursor] := by
    intro a ha
    have htyped : Visit.isTyped ∘ (Visit.mk · a.cursor) = (· == a.cursor.node.typeName) := rfl
    rw [Arrival.own, List.filter_map, htyped, Arrival.keys,
      a.cursor.node.filter_keysIn (role_ne_function ha)]
    rfl
  rw [visits_root, List.filter_flatMap, List.map_flatMap, List.flatMap_congr hown, places,
    List.map_eq_flatMap]

end Node

end TreeWalk
