/-
The dispatches of a walk, inner ones first.

`Cursor.postorder` lists what `Cursor.visits` lists, but in the order in which a walk
comes back: a dispatch stands after everything that is dispatched inside it.  With each
goes the role that its node was reached in and the places around it, which are those
that the walk passed on the way.

So the list is a rearrangement of the visits, `perm_visits`; what is around a dispatch is
what it is reached from, `mem_around_iff`; and whatever is below a place comes before it,
`pairwise_postorder`.
-/
import Mathlib.Data.List.Perm.Basic
import TreeWalk.Proofs.Walk.Visits

namespace TreeWalk

/-- A dispatch, with what is around it. -/
structure Dispatch where
  key : String
  cursor : Cursor
  /-- The role that the node is reached in. -/
  role : Option Category
  /-- The places that the walk passed on the way, the innermost first. -/
  around : List Cursor

/-- The dispatch by itself. -/
def Dispatch.visit (d : Dispatch) : Visit := ⟨d.key, d.cursor⟩

/-- The dispatches of a walk of the node, at a place inside others and in a role. -/
def Node.postorder (n : Node) : Trail → List Cursor → Option Category → List Dispatch :=
  n.fold fun n s trail around role =>
    (s.walked.flatMap fun p =>
      p.child (p.steps ++ trail) (⟨n, trail⟩ :: around) (some p.role)) ++
      (n.keysIn role).reverse.map fun key => ⟨key, ⟨n, trail⟩, role, around⟩

namespace Cursor

/-- The dispatches of a walk from here on. -/
def postorder (c : Cursor) (around : List Cursor) (role : Option Category) : List Dispatch :=
  c.node.postorder c.trail around role

end Cursor

/-- The dispatches of a walk of the whole tree. -/
def Node.dispatches (tree : Node) : List Dispatch := (Cursor.root tree).postorder [] none

namespace Cursor

theorem postorder_eq (c : Cursor) (around : List Cursor) (role : Option Category) :
    c.postorder around role =
      (c.node.shape.walked.flatMap fun p => (c.part p).postorder (c :: around) (some p.role)) ++
        (c.node.keysIn role).reverse.map fun key => ⟨key, c, role, around⟩ := by
  rw [postorder, Node.postorder, Node.fold_eq, Shape.walked_map, List.flatMap_map]
  rfl

/-- The same dispatches are seen from further out, where more is around them. -/
theorem postorder_append (c : Cursor) (around outer : List Cursor) (role : Option Category) :
    c.postorder (around ++ outer) role =
      (c.postorder around role).map fun d => { d with around := d.around ++ outer } := by
  obtain ⟨n, trail⟩ := c
  induction n using Node.walked_induction generalizing trail around role with
  | step n ih =>
    rw [postorder_eq, postorder_eq, List.map_append, List.map_flatMap, List.map_map]
    refine congrArg (· ++ _) (List.flatMap_congr ?_)
    intro p hp
    exact ih p hp (⟨n, trail⟩ :: around) (some p.role) (p.steps ++ trail)

/-- **The dispatches are the visits, in another order.** -/
theorem perm_visits (c : Cursor) (around : List Cursor) (role : Option Category) :
    ((c.postorder around role).map Dispatch.visit).Perm (c.visits role) := by
  obtain ⟨n, trail⟩ := c
  induction n using Node.walked_induction generalizing trail around role with
  | step n ih =>
    rw [postorder_eq, visits_eq, List.map_append, List.map_flatMap, List.map_map]
    refine List.perm_append_comm.trans (List.Perm.append ?_ ?_)
    · exact (List.reverse_perm _).map _
    · exact List.Perm.flatMap_left _ fun p hp => ih p hp _ _ _

variable {c : Cursor} {around : List Cursor} {role : Option Category} {d : Dispatch}

theorem reaches_of_mem_postorder (hd : d ∈ c.postorder around role) : c.Reaches d.cursor := by
  have hv : d.visit ∈ c.visits role :=
    (perm_visits c around role).mem_iff.1 (List.mem_map_of_mem hd)
  exact (reaches_of_mem_visits hv).1

/-- What is around a dispatch is what was there before and what it is reached from. -/
theorem mem_around_iff_of_mem_postorder (hd : d ∈ c.postorder around role) (x : Cursor) :
    x ∈ d.around ↔
      x ∈ around ∨ (c.Reaches x ∧ x.Reaches d.cursor ∧ x.trail ≠ d.cursor.trail) := by
  obtain ⟨n, trail⟩ := c
  induction n using Node.walked_induction generalizing trail around role with
  | step n ih =>
    rw [postorder_eq] at hd
    rcases List.mem_append.1 hd with hd | hd
    · obtain ⟨p, hp, hd⟩ := List.mem_flatMap.1 hd
      have hbelow := reaches_of_mem_postorder hd
      rw [ih p hp _ hd, List.mem_cons]
      constructor
      · rintro ((rfl | hx) | ⟨hx, hxd, hne⟩)
        · exact .inr ⟨.here _, .inside hp hbelow, hbelow.ne_of_part hp⟩
        · exact .inl hx
        · exact .inr ⟨.inside hp hx, hxd, hne⟩
      · rintro (hx | ⟨hx, hxd, hne⟩)
        · exact .inl (.inr hx)
        · cases hx with
          | here => exact .inl (.inl rfl)
          | @inside _ _ q hq hx =>
            by_cases hpq : p = q
            · subst hpq
              exact .inr ⟨hx, hxd, hne⟩
            · have hapart := ((Shape.apart_of_ne hp hq hpq).append trail).of_suffix hbelow.suffix
                hx.suffix
              exact absurd hxd.suffix hapart.2
    · obtain ⟨key, -, rfl⟩ := List.mem_map.1 hd
      constructor
      · exact .inl
      · rintro (hx | ⟨hx, hxd, hne⟩)
        · exact hx
        · have heq := List.IsSuffix.eq_of_length_le hxd.suffix hx.suffix.length_le
          exact absurd heq hne

/-- **Whatever is below a place comes before it.** -/
theorem pairwise_postorder (c : Cursor) (around : List Cursor) (role : Option Category) :
    (c.postorder around role).Pairwise fun d d' =>
      d.cursor.trail <:+ d'.cursor.trail → d.cursor.trail = d'.cursor.trail := by
  obtain ⟨n, trail⟩ := c
  induction n using Node.walked_induction generalizing trail around role with
  | step n ih =>
    rw [postorder_eq, List.pairwise_append]
    refine ⟨?_, ?_, ?_⟩
    · rw [List.pairwise_flatMap]
      refine ⟨fun p hp => ih p hp _ _ _, n.shape.walked_apart.imp ?_⟩
      intro p q hpq d hd d' hd' hsuf
      have hapart := (hpq.append trail).of_suffix (reaches_of_mem_postorder hd).suffix
        (reaches_of_mem_postorder hd').suffix
      exact absurd hsuf hapart.1
    · rw [List.pairwise_map]
      exact List.pairwise_of_forall fun _ _ _ => rfl
    · intro d hd d' hd' hsuf
      obtain ⟨p, hp, hd⟩ := List.mem_flatMap.1 hd
      obtain ⟨key, -, rfl⟩ := List.mem_map.1 hd'
      have hbelow := reaches_of_mem_postorder hd
      have hlen := hbelow.suffix.length_le
      exact (hsuf.eq_of_length_le (Nat.le_trans (List.suffix_append _ _).length_le hlen))

end Cursor

end TreeWalk
