/-
The visits of a walk, in order.

`Cursor.visits` lists the dispatches of a walk through the default table, outer ones
first: those of the node itself, under each of its keys, and then those of its parts in
the order in which they are walked.  A walk that tells visitors does to the world what
telling them of this list does, whichever keys they are for: `simple_eq`.

The list is also the tree seen from outside the walk.  Whatever is on it is a place that
is reached, and each place that is reached is on it once under its own type, because the
visits below different parts of a node are at places apart.
-/
import Mathlib.Data.List.Basic
import TreeWalk.Proofs.Walk.Descent
import TreeWalk.Report.Stats

namespace TreeWalk

/-- The dispatch of a node under a key. -/
structure Visit where
  key : String
  cursor : Cursor

/-- The visits of a walk of the node, at a place and in a role. -/
def Node.visits (n : Node) : Trail → Option Category → List Visit :=
  n.fold fun n s trail role =>
    (n.keysIn role).map (⟨·, ⟨n, trail⟩⟩) ++
      s.walked.flatMap fun p => p.child (p.steps ++ trail) (some p.role)

namespace Cursor

/-- The visits of a walk from here on. -/
def visits (c : Cursor) (role : Option Category) : List Visit := c.node.visits c.trail role

theorem visits_eq (c : Cursor) (role : Option Category) :
    c.visits role = (c.node.keysIn role).map (⟨·, c⟩) ++
      c.node.shape.walked.flatMap fun p => (c.part p).visits (some p.role) := by
  rw [visits, Node.visits, Node.fold_eq, Shape.walked_map, List.flatMap_map]
  rfl

end Cursor

/-! ### Telling visitors -/

namespace Observer

variable {ω σ : Type}

/-- Tells the visitor of a visit's key, if there is one. -/
def tell (visitors : OrderedMap (Visitor ω σ)) (st : σ) (world : ω) (v : Visit) : ω :=
  match visitors.get? v.key with
  | some visit => visit v.cursor st world
  | none => world

/-- A search that has settled on a node does nothing further. -/
theorem layers_of_found {obs : Observer ω σ} {m : Memory ω} (h : m.found.isSome = true)
    {keys : List String} (hk : keys ≠ []) (c : Cursor) (st : σ) (inner : Memory ω → Run ω Unit) :
    obs.layers c st inner keys m = some (.ok (), m) := by
  cases keys with
  | nil => exact absurd rfl hk
  | cons key keys => rw [layers, if_pos h]

theorem surround_before (visitors : OrderedMap (Visitor ω σ)) (key : String) (c : Cursor)
    (st : σ) (dispatch : Memory ω → Run ω Unit) (m : Memory ω) :
    (before visitors).surround key c st dispatch m =
      dispatch { m with world := tell visitors st m.world ⟨key, c⟩ } := by
  simp only [surround, tell]
  cases visitors.get? key <;> rfl

/-- Layers that tell visitors tell them in order and then do what is inside. -/
theorem layers_before (visitors : OrderedMap (Visitor ω σ)) (c : Cursor) (st : σ)
    (inner : Memory ω → Run ω Unit) (keys : List String) {m : Memory ω} (h : m.found = none) :
    (before visitors).layers c st inner keys m =
      inner { m with world := (keys.map (⟨·, c⟩)).foldl (tell visitors st) m.world } := by
  induction keys generalizing m with
  | nil => rfl
  | cons key keys ih =>
    rw [layers, if_neg (by simp [h]), surround_before]
    exact ih h

end Observer

theorem Node.keysIn_ne_nil (n : Node) (role : Option Category) : n.keysIn role ≠ [] := by
  rcases role with _ | role
  · rw [keysIn, ownKeys]
    split <;> exact List.cons_ne_nil _ _
  · cases role <;> rw [keysIn] <;> try exact List.cons_ne_nil _ _
    split <;> exact List.cons_ne_nil _ _

namespace Walk

open Observer

variable {ω σ : Type}

/-- The memory after telling visitors of visits; a search that is over tells nobody. -/
def told (visitors : OrderedMap (Visitor ω σ)) (st : σ) (vs : List Visit) (m : Memory ω) :
    Memory ω :=
  if m.found.isSome then m else { m with world := vs.foldl (tell visitors st) m.world }

theorem told_append (visitors : OrderedMap (Visitor ω σ)) (st : σ) (us vs : List Visit)
    (m : Memory ω) :
    told visitors st (us ++ vs) m = told visitors st vs (told visitors st us m) := by
  unfold told
  by_cases h : m.found.isSome = true
  · simp only [if_pos h]
  · simp only [if_neg h, List.foldl_append]

theorem told_flatMap {α : Type} (visitors : OrderedMap (Visitor ω σ)) (st : σ)
    (f : α → List Visit) (as : List α) (m : Memory ω) :
    as.foldl (fun m a => told visitors st (f a) m) m = told visitors st (as.flatMap f) m := by
  induction as generalizing m with
  | nil =>
    unfold told
    split <;> rfl
  | cons a rest ih => rw [List.foldl_cons, ih, List.flatMap_cons, told_append]

/-- A walk that only walks parts tells its visitors of the visits. -/
theorem walk_before {t : Table ω σ} (h : t.WalksParts) (visitors : OrderedMap (Visitor ω σ))
    {fuel : Nat} {c : Cursor} (hfuel : 4 * c.node.height ≤ fuel) (st : σ)
    {role : Option Category} (hr : c.node.Plays role) (m : Memory ω) :
    Walker.walk ⟨t, .before visitors⟩ fuel c st role m =
      some (.ok (), told visitors st (c.visits role) m) := by
  refine Walker.walk_eq_of_parts ⟨t, .before visitors⟩ h
    (fun c st role m => told visitors st (c.visits role) m) ?_ hfuel st hr m
  intro c st role m _
  by_cases hf : m.found.isSome = true
  · rw [layers_of_found hf (c.node.keysIn_ne_nil role), told, if_pos hf]
  · have hnone : m.found = none := by simpa using hf
    rw [layers_before _ _ _ _ _ hnone, told_flatMap, Cursor.visits_eq, told_append]
    simp only [told, if_neg hf]

/-- A simple walk through the default table, whatever its handlers are numbered from. -/
theorem simple_base (tree : Node) (visitors : OrderedMap (Visitor ω σ)) (first spare : Nat)
    (st : σ) (world : ω) :
    simple (tree.walkFuel + spare) tree visitors (some (Default.table first)) st world =
      some (.ok (), ((Cursor.root tree).visits none).foldl (tell visitors st) world) := by
  have hfuel : 4 * (Cursor.root tree).node.height ≤ tree.walkFuel + spare := Nat.le_add_right _ _
  rw [simple, Walker.run, baseTable, Option.getD_some,
    walk_before (Default.walksParts_table first) visitors hfuel st tree.plays_none]
  rfl

/-- **A simple walk through the default table tells its visitors of the visits, in order.** -/
theorem simple_eq (tree : Node) (visitors : OrderedMap (Visitor ω σ)) (spare : Nat) (st : σ)
    (world : ω) :
    simple (tree.walkFuel + spare) tree visitors none st world =
      some (.ok (), ((Cursor.root tree).visits none).foldl (tell visitors st) world) :=
  simple_base tree visitors 0 spare st world

end Walk

/-! ### The visits and the places

A visit on the list is at a place that is reached, and for each such place there is one
visit on it under the node's own type.
-/

namespace Cursor

/-- A visit is at a place that is reached, and under a key of the node there. -/
theorem reaches_of_mem_visits {c : Cursor} {role : Option Category} {v : Visit}
    (hv : v ∈ c.visits role) :
    c.Reaches v.cursor ∧ ∃ role, v.key ∈ v.cursor.node.keysIn role := by
  obtain ⟨n, trail⟩ := c
  induction n using Node.walked_induction generalizing trail role with
  | step n ih =>
    rw [visits_eq] at hv
    rcases List.mem_append.1 hv with hv | hv
    · obtain ⟨key, hkey, rfl⟩ := List.mem_map.1 hv
      exact ⟨.here _, role, hkey⟩
    · obtain ⟨p, hp, hv⟩ := List.mem_flatMap.1 hv
      obtain ⟨hreach, hkey⟩ := ih p hp _ hv
      exact ⟨.inside hp hreach, hkey⟩

end Cursor

/-- Whether the visit is the one at a place under the own type of the node there. -/
def Visit.isOwn (c : Cursor) (v : Visit) : Bool :=
  v.key == c.node.typeName && v.cursor.trail == c.trail

theorem Visit.isOwn_of_ne {c : Cursor} {v : Visit} (h : v.cursor.trail ≠ c.trail) :
    v.isOwn c = false := by
  rw [isOwn, beq_eq_false_iff_ne.2 h, Bool.and_false]

/-- A node has one key that is its own type, unless only its role as a function is asked for. -/
theorem Node.filter_keysIn (n : Node) {role : Option Category} (hr : role ≠ some .function) :
    (n.keysIn role).filter (· == n.typeName) = [n.typeName] := by
  have hne (c : Category) : (c.name == n.typeName) = false :=
    beq_eq_false_iff_ne.2 (c.name_ne_typeName n.type)
  have hown : n.ownKeys.filter (· == n.typeName) = [n.typeName] := by
    unfold ownKeys
    split <;> simp [hne]
  match role with
  | none => exact hown
  | some .statement => simp [keysIn, hne, hown]
  | some .expression => simp [keysIn, hne, hown]
  | some .scopeBody => simp [keysIn, hne, hown]
  | some .forInit =>
    by_cases hv : n.isVariableDeclaration = true
    · simp [keysIn, hv, hne, hown]
    · simp [keysIn, hv, hne, hown]
  | some .function => exact absurd rfl hr

/-- Whether a node is visited under its own type. -/
def Visit.isTyped (v : Visit) : Bool := v.key == v.cursor.node.typeName

/-- The visits under own types are that of the node itself and those of its parts. -/
theorem Cursor.filter_isTyped_visits (c : Cursor) {role : Option Category}
    (hr : role ≠ some .function) :
    (c.visits role).filter Visit.isTyped =
      ⟨c.node.typeName, c⟩ :: c.node.shape.walked.flatMap fun p =>
        ((c.part p).visits (some p.role)).filter Visit.isTyped := by
  have hp : Visit.isTyped ∘ (Visit.mk · c) = (· == c.node.typeName) := rfl
  rw [visits_eq, List.filter_append, List.filter_map, hp, Node.filter_keysIn c.node hr,
    List.filter_flatMap]
  rfl

/-- Where all but one of the pieces are empty, their concatenation is that one. -/
theorem flatMap_eq_of_pairwise {α β : Type} {R : α → α → Prop} [Std.Symm R] {l : List α}
    (hl : l.Pairwise R) {a : α} (ha : a ∈ l) {f : α → List β} (hf : ∀ b, R a b → f b = []) :
    l.flatMap f = f a := by
  obtain ⟨l₁, l₂, rfl⟩ := List.append_of_mem ha
  obtain ⟨-, hcons, hcross⟩ := List.pairwise_append.1 hl
  have h₁ : l₁.flatMap f = [] :=
    List.flatMap_eq_nil_iff.2 fun b hb =>
      hf b (Std.Symm.symm _ _ (hcross b hb a (List.mem_cons_self ..)))
  have h₂ : l₂.flatMap f = [] :=
    List.flatMap_eq_nil_iff.2 fun b hb => hf b ((List.pairwise_cons.1 hcons).1 b hb)
  rw [List.flatMap_append, List.flatMap_cons, h₁, h₂, List.nil_append, List.append_nil]

/-- **Each place that is reached has one visit under its own type.** -/
theorem Cursor.Reaches.filter_isOwn {e c : Cursor} (h : e.Reaches c) {role : Option Category}
    (hr : role ≠ some .function) :
    (e.visits role).filter (Visit.isOwn c) = [⟨c.node.typeName, c⟩] := by
  induction h generalizing role with
  | here c =>
    have hown : ((c.node.keysIn role).map (Visit.mk · c)).filter (Visit.isOwn c) =
        [⟨c.node.typeName, c⟩] := by
      have hp : Visit.isOwn c ∘ (Visit.mk · c) = (· == c.node.typeName) := by
        funext key
        simp [Visit.isOwn]
      rw [List.filter_map, hp, Node.filter_keysIn c.node hr]
      rfl
    have hparts : (c.node.shape.walked.flatMap fun p => (c.part p).visits (some p.role)).filter
        (Visit.isOwn c) = [] := by
      rw [List.filter_eq_nil_iff]
      intro v hv
      obtain ⟨p, hp, hv⟩ := List.mem_flatMap.1 hv
      have hne := (Cursor.reaches_of_mem_visits hv).1.ne_of_part hp
      simp [Visit.isOwn_of_ne hne.symm]
    rw [Cursor.visits_eq, List.filter_append, hown, hparts, List.append_nil]
  | @inside e c p hp h ih =>
    have hown : ((e.node.keysIn role).map (Visit.mk · e)).filter (Visit.isOwn c) = [] := by
      rw [List.filter_eq_nil_iff]
      intro v hv
      obtain ⟨key, -, rfl⟩ := List.mem_map.1 hv
      simp [Visit.isOwn_of_ne (v := ⟨key, e⟩) (h.ne_of_part hp)]
    have hparts : (e.node.shape.walked.flatMap fun q =>
        ((e.part q).visits (some q.role)).filter (Visit.isOwn c)) =
          ((e.part p).visits (some p.role)).filter (Visit.isOwn c) := by
      refine flatMap_eq_of_pairwise e.node.shape.walked_apart hp ?_
      intro q hpq
      rw [List.filter_eq_nil_iff]
      intro v hv
      have hapart := (Trail.Apart.append hpq e.trail).of_suffix h.suffix
        (Cursor.reaches_of_mem_visits hv).1.suffix
      simp [Visit.isOwn_of_ne hapart.ne.symm]
    rw [Cursor.visits_eq, List.filter_append, hown, List.nil_append, List.filter_flatMap, hparts]
    exact ih fun hf => Shape.role_ne_function hp (Option.some.inj hf)

/-- What holds at every visit holds at every place that is reached. -/
theorem Node.forall_walked {tree : Node} {P : Cursor → Prop}
    (h : ∀ v ∈ (Cursor.root tree).visits none, P v.cursor) (c : Cursor) (hc : tree.Walked c) :
    P c := by
  have hrole : (none : Option Category) ≠ some .function := by simp
  have hone := Cursor.Reaches.filter_isOwn hc hrole
  have hmem : (⟨c.node.typeName, c⟩ : Visit) ∈
      ((Cursor.root tree).visits none).filter (Visit.isOwn c) := by
    rw [hone]
    exact List.mem_singleton_self _
  exact h _ (List.mem_of_mem_filter hmem)

/-! ### Visitors under every key -/

/-- The same visitor under every key of the default table, told of the key. -/
def Visitor.everywhere {ω σ : Type} (visit : String → Visitor ω σ) : OrderedMap (Visitor ω σ) :=
  .ofList (StatsReport.keys.map fun key => (key, visit key))

/-- What a map is given for every key of the default table it has under each. -/
theorem OrderedMap.get?_keys {α : Type} (f : String → α) {key : String}
    (h : key ∈ StatsReport.keys) :
    (ofList (StatsReport.keys.map fun key => (key, f key))).get? key = some (f key) := by
  rw [get?_ofList_map, if_pos h]

theorem Visitor.get?_everywhere {ω σ : Type} (visit : String → Visitor ω σ) {key : String}
    (h : key ∈ StatsReport.keys) : (everywhere visit).get? key = some (visit key) :=
  OrderedMap.get?_keys visit h

/-- Nodes are dispatched under types and categories only. -/
theorem Node.keysIn_subset (n : Node) (role : Option Category) :
    n.keysIn role ⊆ StatsReport.keys := by
  have hcategory (c : Category) : c.name ∈ StatsReport.keys :=
    List.mem_append_right _ (List.mem_map_of_mem (by cases c <;> decide))
  have hown : n.ownKeys ⊆ StatsReport.keys := by
    have htype : n.typeName ∈ StatsReport.keys :=
      List.mem_append_left _ (List.mem_map_of_mem n.type.mem_all)
    unfold ownKeys
    split <;> simp [htype, hcategory]
  match role with
  | none => exact hown
  | some .statement => simp [keysIn, hcategory, hown]
  | some .expression => simp [keysIn, hcategory, hown]
  | some .scopeBody => simp [keysIn, hcategory, hown]
  | some .forInit =>
    by_cases hv : n.isVariableDeclaration = true
    · simp [keysIn, hv, hcategory, hown]
    · simp [keysIn, hv, hcategory, hown]
  | some .function => simp [keysIn, hcategory]

/-- The visits are under keys of the default table. -/
theorem Cursor.key_mem_of_mem_visits {c : Cursor} {role : Option Category} {v : Visit}
    (hv : v ∈ c.visits role) : v.key ∈ StatsReport.keys := by
  obtain ⟨-, role', hkey⟩ := reaches_of_mem_visits hv
  exact v.cursor.node.keysIn_subset role' hkey

/-- Visitors under every key are told of visits under any. -/
theorem Observer.foldl_tell_of_mem {ω σ : Type} (visit : String → Visitor ω σ) (st : σ)
    {vs : List Visit} (hvs : ∀ v ∈ vs, v.key ∈ StatsReport.keys) (world : ω) :
    vs.foldl (tell (Visitor.everywhere visit) st) world =
      vs.foldl (fun w v => visit v.key v.cursor st w) world := by
  refine List.foldl_ext _ _ _ ?_
  intro w v hv
  rw [tell, Visitor.get?_everywhere visit (hvs v hv)]

/-- Visitors under every key are told of every visit. -/
theorem Observer.foldl_tell_everywhere {ω σ : Type} (visit : String → Visitor ω σ) (st : σ)
    (c : Cursor) (role : Option Category) (world : ω) :
    (c.visits role).foldl (tell (Visitor.everywhere visit) st) world =
      (c.visits role).foldl (fun w v => visit v.key v.cursor st w) world :=
  foldl_tell_of_mem visit st (fun _ hv => Cursor.key_mem_of_mem_visits hv) world

/-- **A simple walk visits what is walked, in order, and nothing else.**

Visitors under every key are told of the visits of the tree from the root on, outer ones
first.  Each place that a walk reaches has one visit under its own type among them, and
no visit is at a child that is not walked or below one. -/
theorem Walk.simple_visits {ω σ : Type} (tree : Node) (visit : String → Visitor ω σ)
    (spare : Nat) (st : σ) (world : ω) :
    simple (tree.walkFuel + spare) tree (Visitor.everywhere visit) none st world =
        some (.ok (), ((Cursor.root tree).visits none).foldl
          (fun w v => visit v.key v.cursor st w) world) ∧
      (∀ c, tree.Walked c →
        ((Cursor.root tree).visits none).filter (Visit.isOwn c) = [⟨c.node.typeName, c⟩]) ∧
      (∀ v ∈ (Cursor.root tree).visits none, tree.Walked v.cursor) ∧
      ∀ c, tree.Walked c → ∀ u ∈ c.node.shape.unwalked,
        ∀ v ∈ (Cursor.root tree).visits none, ¬ u.1 ++ c.trail <:+ v.cursor.trail := by
  refine ⟨?_, ?_, ?_, ?_⟩
  · rw [simple_eq, Observer.foldl_tell_everywhere]
  · intro c hc
    exact hc.filter_isOwn (by simp)
  · intro v hv
    exact (Cursor.reaches_of_mem_visits hv).1
  · intro c hc u hu v hv
    exact hc.not_below_unwalked (Cursor.reaches_of_mem_visits hv).1 hu

end TreeWalk
