/-
Visits on the way up.

The dispatches of a walk lie inside one another: those of one node under its keys, and those
of its parts inside the innermost of them.  `Cursor.nests` is the tree that they make.  Read
with the outer ones first it is the list of the visits, read with the inner ones first it is
the list of the dispatches: `preorder_nests` and `postorder_nests`.

A walk with visitors on the way up tells them of the dispatches in the order of that second
list, and with each shows them the path to its node, `walk_after`.  The account of a walk has
to be right wherever the walk begins, so it starts from whatever path there is: the path of a
dispatch is that path, followed by the places between the two.
-/
import TreeWalk.Proofs.Walk.Path
import TreeWalk.Proofs.Walk.Postorder

namespace TreeWalk

/-! ### Dispatches inside one another -/

/-- A dispatch and the dispatches that are made inside it. -/
inductive Nest where
  | mk (visit : Visit) (inside : List Nest)

namespace Nest

mutual
/-- The dispatches, each before those inside it. -/
def preorder : Nest → List Visit
  | mk v inside => v :: preorderAll inside
/-- The dispatches of one nest after another, each before those inside it. -/
def preorderAll : List Nest → List Visit
  | [] => []
  | n :: ns => preorder n ++ preorderAll ns
end

mutual
/-- The dispatches, each after those inside it. -/
def postorder : Nest → List Visit
  | mk v inside => postorderAll inside ++ [v]
/-- The dispatches of one nest after another, each after those inside it. -/
def postorderAll : List Nest → List Visit
  | [] => []
  | n :: ns => postorder n ++ postorderAll ns
end

theorem preorderAll_eq (ns : List Nest) : preorderAll ns = ns.flatMap preorder := by
  induction ns with
  | nil => rfl
  | cons n ns ih => rw [preorderAll, ih, List.flatMap_cons]

theorem postorderAll_eq (ns : List Nest) : postorderAll ns = ns.flatMap postorder := by
  induction ns with
  | nil => rfl
  | cons n ns ih => rw [postorderAll, ih, List.flatMap_cons]

/-- The dispatches of a node under its keys, the outermost first, around what is inside. -/
def wrap (c : Cursor) (inside : List Nest) : List String → List Nest
  | [] => inside
  | key :: keys => [mk ⟨key, c⟩ (wrap c inside keys)]

theorem preorderAll_wrap (c : Cursor) (inside : List Nest) (keys : List String) :
    preorderAll (wrap c inside keys) = keys.map (⟨·, c⟩) ++ preorderAll inside := by
  induction keys with
  | nil => rfl
  | cons key keys ih => simp only [wrap, preorderAll, preorder, ih, List.map_cons,
      List.cons_append, List.append_nil]

theorem postorderAll_wrap (c : Cursor) (inside : List Nest) (keys : List String) :
    postorderAll (wrap c inside keys) =
      postorderAll inside ++ keys.reverse.map (⟨·, c⟩) := by
  induction keys with
  | nil => simp [wrap]
  | cons key keys ih => simp [wrap, postorderAll, postorder, ih]

end Nest

/-- The dispatches of a walk of the node, at a place and in a role, inside one another. -/
def Node.nests (n : Node) : Trail → Option Category → List Nest :=
  n.fold fun n s trail role =>
    Nest.wrap ⟨n, trail⟩
      (s.walked.flatMap fun p => p.child (p.steps ++ trail) (some p.role)) (n.keysIn role)

namespace Cursor

/-- The dispatches of a walk from here on, inside one another. -/
def nests (c : Cursor) (role : Option Category) : List Nest := c.node.nests c.trail role

theorem nests_eq (c : Cursor) (role : Option Category) :
    c.nests role = Nest.wrap c
      (c.node.shape.walked.flatMap fun p => (c.part p).nests (some p.role))
      (c.node.keysIn role) := by
  rw [nests, Node.nests, Node.fold_eq, Shape.walked_map, List.flatMap_map]
  rfl

/-- **Outer ones first, the dispatches are the visits.** -/
theorem preorder_nests (c : Cursor) (role : Option Category) :
    Nest.preorderAll (c.nests role) = c.visits role := by
  obtain ⟨n, trail⟩ := c
  induction n using Node.walked_induction generalizing trail role with
  | step n ih =>
    rw [nests_eq, visits_eq, Nest.preorderAll_wrap, Nest.preorderAll_eq, List.flatMap_assoc]
    refine congrArg _ (List.flatMap_congr ?_)
    intro p hp
    rw [← Nest.preorderAll_eq]
    exact ih p hp (some p.role) (p.steps ++ trail)

/-- **Inner ones first, the dispatches are those that a walk comes back from.** -/
theorem postorder_nests (c : Cursor) (around : List Cursor) (role : Option Category) :
    (c.postorder around role).map Dispatch.visit = Nest.postorderAll (c.nests role) := by
  obtain ⟨n, trail⟩ := c
  induction n using Node.walked_induction generalizing trail around role with
  | step n ih =>
    rw [nests_eq, postorder_eq, Nest.postorderAll_wrap, Nest.postorderAll_eq, List.flatMap_assoc,
      List.map_append, List.map_flatMap, List.map_map]
    refine congrArg (· ++ _) (List.flatMap_congr ?_)
    intro p hp
    rw [← Nest.postorderAll_eq]
    exact ih p hp (⟨n, trail⟩ :: around) (some p.role) (p.steps ++ trail)

end Cursor

/-! ### The path to a dispatch -/

/-- The path from the root to the node of the dispatch. -/
def Dispatch.path (d : Dispatch) : List Cursor := (d.cursor :: d.around).reverse

/-- The path to the dispatch in a walk that starts at the end of another path, which is given
from there back. -/
def Dispatch.pathFrom (d : Dispatch) (start : List Cursor) : List Cursor :=
  ((d.cursor :: d.around).dropLast ++ start).reverse

/-- The first place leads to the second as to a part. -/
def Cursor.HasPart (c d : Cursor) : Prop := ∃ p ∈ c.node.shape.walked, d = c.part p

/-- A part is further down than its node. -/
theorem Cursor.length_trail_lt_part (c : Cursor) {p : Part Node} (hp : p.steps ≠ []) :
    c.trail.length < (c.part p).trail.length := by
  have hpos := List.length_pos_iff.2 hp
  rw [trail_part, List.length_append]
  omega

/-- Between a dispatch and the place that the walk starts at, each place is a part of the next. -/
theorem Cursor.exists_between {c : Cursor} {around : List Cursor} {role : Option Category}
    {d : Dispatch} (hd : d ∈ c.postorder around role) :
    ∃ between, d.cursor :: d.around = between ++ c :: around ∧
      (between ++ [c]).IsChain fun x y => y.HasPart x := by
  obtain ⟨n, trail⟩ := c
  induction n using Node.walked_induction generalizing trail around role with
  | step n ih =>
    rw [postorder_eq] at hd
    rcases List.mem_append.1 hd with hd | hd
    · obtain ⟨p, hp, hd⟩ := List.mem_flatMap.1 hd
      obtain ⟨between, hbetween, hchain⟩ := ih p hp _ hd
      refine ⟨between ++ [part ⟨n, trail⟩ p], by rw [hbetween, List.append_assoc]; rfl, ?_⟩
      rw [List.append_assoc]
      exact List.isChain_append_cons_cons.2 ⟨hchain, ⟨p, hp, rfl⟩, List.isChain_singleton _⟩
    · obtain ⟨key, -, rfl⟩ := List.mem_map.1 hd
      exact ⟨[], rfl, List.isChain_singleton _⟩

/-- Places each of which is a part of the one before it lie at trails of their own. -/
theorem Cursor.nodup_of_isChain {path : List Cursor} (h : path.IsChain HasPart) :
    (path.map trail).Nodup := by
  have hlonger : path.IsChain fun x y => x.trail.length < y.trail.length := by
    refine h.imp ?_
    rintro x _ ⟨p, hp, rfl⟩
    exact x.length_trail_lt_part (Shape.steps_ne_nil hp)
  have hlengths : (path.map fun x => x.trail.length).IsChain (· < ·) :=
    (List.isChain_map _).2 hlonger
  rw [List.Nodup, List.pairwise_map]
  refine (List.pairwise_map.1 hlengths.pairwise).imp ?_
  intro x y hlt heq
  rw [heq] at hlt
  exact Nat.lt_irrefl _ hlt

/-- The path leads from the root of the tree to the place, at each step to a part, and comes to no
place twice. -/
structure Node.IsPath (tree : Node) (path : List Cursor) (c : Cursor) : Prop where
  head : path.head? = some (.root tree)
  last : path.getLast? = some c
  steps : path.IsChain Cursor.HasPart
  nodup : (path.map Cursor.trail).Nodup

/-- The path of a dispatch is one. -/
theorem Node.isPath_of_mem_dispatches {tree : Node} {d : Dispatch} (hd : d ∈ tree.dispatches) :
    tree.IsPath d.path d.cursor := by
  obtain ⟨between, hbetween, hchain⟩ := Cursor.exists_between hd
  rw [← hbetween] at hchain
  have hsteps : d.path.IsChain Cursor.HasPart := List.isChain_reverse.2 hchain
  refine ⟨?_, ?_, hsteps, Cursor.nodup_of_isChain hsteps⟩
  · rw [Dispatch.path, List.head?_reverse, hbetween, List.getLast?_concat]
  · rw [Dispatch.path, List.getLast?_reverse]
    rfl

/-! ### Telling visitors on the way up -/

namespace Memory

variable {ω : Type}

theorem found_enter (m : Memory ω) (c : Cursor) : (m.enter c).found = m.found := by
  unfold enter
  split <;> rfl

/-- Inside a call the node is on top. -/
theorem onTop_enter (m : Memory ω) (c : Cursor) : (m.enter c).onTop c = true := by
  unfold enter
  by_cases h : m.onTop c = true
  · rw [if_pos h, h]
  · rw [if_neg h]
    exact (Cursor.samePlace_iff c c).2 rfl

/-- A node is entered once. -/
theorem enter_enter (m : Memory ω) (c : Cursor) : (m.enter c).enter c = m.enter c := by
  rw [enter, if_pos (m.onTop_enter c)]

/-- Where another node is on top, a call comes upon it. -/
theorem path_enter_of_ne {m : Memory ω} {c d : Cursor} (hc : m.onTop c = true)
    (hne : c.trail ≠ d.trail) : (m.enter d).path = d :: m.path := by
  have hd : ¬ m.onTop d = true := by
    unfold onTop at hc ⊢
    cases hpath : m.path with
    | nil => simp
    | cons top rest =>
      rw [hpath] at hc
      intro h
      exact hne (((Cursor.samePlace_iff top c).1 hc).symm.trans ((Cursor.samePlace_iff top d).1 h))
  rw [enter, if_neg hd]
  rfl

end Memory

namespace Observer

variable {ω σ : Type}

/-- Layers that tell visitors on the way up do what is inside and then tell them, the innermost
first. -/
theorem layers_after (visitors : OrderedMap (PathVisitor ω σ)) (c : Cursor) (st : σ)
    {inner : Memory ω → Run ω Unit} {w : ω} (keys : List String) :
    ∀ (key : String) (m : Memory ω), m.found = none →
      inner (m.enter c) = Run.ofWorld (m.enter c) (some (.ok (), w)) →
        (after visitors).layers c st inner (key :: keys) m =
          Run.ofWorld m (some (.ok (), (key :: keys).reverse.foldl
            (fun w key => tellAfter visitors key c st (m.enter c).path.reverse (.ok ()) w) w)) := by
  induction keys with
  | nil =>
    intro key m hm hinner
    rw [layers, if_neg (by simp [hm])]
    exact surround_after visitors key c st hinner
  | cons next keys ih =>
    intro key m hm hinner
    have hrest := ih next (m.enter c) (by rw [m.found_enter, hm]) (by rw [m.enter_enter, hinner])
    rw [m.enter_enter] at hrest
    rw [layers, if_neg (by simp [hm]), surround_after visitors key c st hrest,
      List.reverse_cons (a := key), List.foldl_append]
    rfl

end Observer

namespace Walk

open Observer

variable {ω σ : Type}

/-- Tells visitors of dispatches, in a walk that starts at the end of a path. -/
def toldAfter (visitors : OrderedMap (PathVisitor ω σ)) (st : σ) (start : List Cursor)
    (ds : List Dispatch) (w : ω) : ω :=
  ds.foldl (fun w d => tellAfter visitors d.key d.cursor st (d.pathFrom start) (.ok ()) w) w

/-- Telling of dispatches below a part is the same from the part and from the node around it. -/
theorem toldAfter_part (visitors : OrderedMap (PathVisitor ω σ)) (st : σ) (start : List Cursor)
    (c d : Cursor) (role : Option Category) (w : ω) :
    toldAfter visitors st (d :: start) (d.postorder [] role) w =
      toldAfter visitors st start (d.postorder [c] role) w := by
  have hpath : ∀ x ∈ d.postorder [] role, x.pathFrom (d :: start) =
      Dispatch.pathFrom { x with around := x.around ++ [c] } start := by
    intro x hx
    obtain ⟨between, hbetween, -⟩ := Cursor.exists_between hx
    unfold Dispatch.pathFrom
    rw [← List.cons_append, hbetween, List.dropLast_concat, List.dropLast_concat,
      List.append_assoc]
    rfl
  unfold toldAfter
  rw [← List.nil_append [c], Cursor.postorder_append, List.foldl_map]
  refine List.foldl_ext _ _ _ ?_
  intro w x hx
  rw [hpath x hx]

/-- The memory after a walk that tells visitors of dispatches on the way up; a search that is over
tells nobody. -/
def afterwards (visitors : OrderedMap (PathVisitor ω σ)) (st : σ) (c : Cursor)
    (role : Option Category) (m : Memory ω) : Memory ω :=
  if m.found.isSome then m
  else { m with world := toldAfter visitors st (m.enter c).path (c.postorder [] role) m.world }

/-- Inside a node, what visitors are told of its parts is what they are told of the dispatches
below it. -/
theorem foldl_afterwards (visitors : OrderedMap (PathVisitor ω σ)) (st : σ) {c : Cursor}
    {m : Memory ω} (hm : m.found = none) (htop : m.onTop c = true) (ps : List (Part Node))
    (hps : ∀ p ∈ ps, p.steps ≠ []) :
    ∀ w, ps.foldl (fun m p => afterwards visitors st (c.part p) (some p.role) m)
        { m with world := w } =
      { m with
        world := toldAfter visitors st m.path
          (ps.flatMap fun p => (c.part p).postorder [c] (some p.role)) w } := by
  induction ps with
  | nil =>
    intro w
    rfl
  | cons p ps ih =>
    intro w
    have hne : c.trail ≠ (c.part p).trail := by
      intro heq
      have hlt := c.length_trail_lt_part (hps p (List.mem_cons_self ..))
      rw [← heq] at hlt
      exact Nat.lt_irrefl _ hlt
    have hpath : (Memory.enter { m with world := w } (c.part p)).path = c.part p :: m.path :=
      Memory.path_enter_of_ne htop hne
    have hfirst : afterwards visitors st (c.part p) (some p.role) { m with world := w } =
        { m with
          world := toldAfter visitors st m.path ((c.part p).postorder [c] (some p.role)) w } := by
      unfold afterwards
      rw [if_neg (by simp [hm]), hpath, toldAfter_part visitors st m.path c]
    rw [List.foldl_cons, hfirst, ih fun q hq => hps q (List.mem_cons_of_mem _ hq),
      List.flatMap_cons]
    unfold toldAfter
    rw [List.foldl_append]

/-- A walk that only walks parts tells its visitors of the dispatches, inner ones first. -/
theorem walk_after {t : Table ω σ} (h : t.WalksParts) (visitors : OrderedMap (PathVisitor ω σ))
    {fuel : Nat} {c : Cursor} (hfuel : 4 * c.node.height ≤ fuel) (st : σ)
    {role : Option Category} (hr : c.node.Plays role) (m : Memory ω) :
    Walker.walk ⟨t, .after visitors⟩ fuel c st role m =
      some (.ok (), afterwards visitors st c role m) := by
  refine Walker.walk_eq_of_parts ⟨t, .after visitors⟩ h
    (fun c st role m => afterwards visitors st c role m) ?_ hfuel st hr m
  intro c st role m _
  unfold afterwards
  by_cases hf : m.found.isSome = true
  · rw [layers_of_found hf (c.node.keysIn_ne_nil role), if_pos hf]
  · have hnone : m.found = none := by simpa using hf
    obtain ⟨inner, hkeys, -⟩ := c.exists_keysIn role
    have hparts := foldl_afterwards visitors st (m.found_enter c ▸ hnone) (m.onTop_enter c)
      c.node.shape.walked (fun p hp => Shape.steps_ne_nil hp) (m.enter c).world
    rw [hkeys, layers_after visitors c st inner (dispatchKey c role) m hnone
      (congrArg (fun m => some (Except.ok (), m)) hparts), if_neg hf, Cursor.postorder_eq, hkeys,
      m.world_enter]
    unfold toldAfter
    rw [List.foldl_append, List.foldl_map]
    rfl

end Walk

/-! ### Visitors under every key -/

/-- The same visitor under every key of the default table, told of the key. -/
def PathVisitor.everywhere {ω σ : Type} (visit : String → PathVisitor ω σ) :
    OrderedMap (PathVisitor ω σ) :=
  .ofList (StatsReport.keys.map fun key => (key, visit key))

/-- Visitors under every key are told of every dispatch, from the root on. -/
theorem Walk.toldAfter_everywhere {ω σ : Type} (visit : String → PathVisitor ω σ) (st : σ)
    (tree : Node) (world : ω) :
    toldAfter (PathVisitor.everywhere visit) st [.root tree] tree.dispatches world =
      tree.dispatches.foldl (fun w d => visit d.key d.cursor st d.path w) world := by
  refine List.foldl_ext _ _ _ ?_
  intro w d hd
  have hkey : (PathVisitor.everywhere visit).get? d.key = some (visit d.key) := by
    have hv : d.visit ∈ (Cursor.root tree).visits none :=
      ((Cursor.root tree).perm_visits [] none).mem_iff.1 (List.mem_map_of_mem hd)
    obtain ⟨-, role, hkey⟩ := Cursor.reaches_of_mem_visits hv
    exact OrderedMap.get?_keys visit (d.cursor.node.keysIn_subset role hkey)
  have hpath : d.pathFrom [.root tree] = d.path := by
    obtain ⟨between, hbetween, -⟩ := Cursor.exists_between hd
    rw [Dispatch.pathFrom, Dispatch.path, hbetween, List.dropLast_concat]
  rw [Observer.tellAfter, hkey, hpath]

/-- **Visitors on the way up are told what others are told, inner dispatches first, each with the
path to its node.**

The dispatches of a walk lie inside one another.  A simple walk tells visitors under every key of
each before those inside it, and one with visitors on the way up of each after those.  So both
make the same calls.  The path that comes with a call begins with the root and ends with the node
of the dispatch; each place on it is a part of the one before, and none is there twice. -/
theorem Walk.ancestor_postorder {ω σ : Type} (tree : Node) (visit : String → Visitor ω σ)
    (visitUp : String → PathVisitor ω σ) (spare : Nat) (st : σ) (world : ω) :
    simple (tree.walkFuel + spare) tree (Visitor.everywhere visit) none st world =
        some (.ok (), (Nest.preorderAll ((Cursor.root tree).nests none)).foldl
          (fun w v => visit v.key v.cursor st w) world) ∧
      ancestor (tree.walkFuel + spare) tree (PathVisitor.everywhere visitUp) none st world =
        some (.ok (), tree.dispatches.foldl
          (fun w d => visitUp d.key d.cursor st d.path w) world) ∧
      tree.dispatches.map Dispatch.visit =
        Nest.postorderAll ((Cursor.root tree).nests none) ∧
      (Nest.postorderAll ((Cursor.root tree).nests none)).Perm
        (Nest.preorderAll ((Cursor.root tree).nests none)) ∧
      ∀ d ∈ tree.dispatches, tree.IsPath d.path d.cursor := by
  have hpost : tree.dispatches.map Dispatch.visit =
      Nest.postorderAll ((Cursor.root tree).nests none) :=
    (Cursor.root tree).postorder_nests [] none
  refine ⟨?_, ?_, hpost, ?_, ?_⟩
  · rw [simple_eq, Observer.foldl_tell_everywhere, Cursor.preorder_nests]
  · have hfuel : 4 * (Cursor.root tree).node.height ≤ tree.walkFuel + spare :=
      Nat.le_add_right _ _
    rw [ancestor, Walker.run, baseTable, Option.getD_none,
      walk_after (Default.walksParts_table 0) _ hfuel st tree.plays_none, ← toldAfter_everywhere]
    rfl
  · rw [← hpost, Cursor.preorder_nests]
    exact (Cursor.root tree).perm_visits [] none
  · intro d hd
    exact Node.isPath_of_mem_dispatches hd

end TreeWalk
