/-
Walks that do not go on everywhere.

A table may have handlers that do something of their own first and then either end at once
or do what the default table does.  The dispatches of a walk through it are still those of a
walk through the default table, except that nothing is dispatched inside one that ended at
once, and that nothing at all comes after one that failed.

A `Conduct` says what is done at each dispatch, and `Nest.run` follows it along the
dispatches that lie inside one another.  `walkWorld_eq_run` says that a walk does just that.
Behind it is one fact about the default table: its handler of a key sends the node on under
its next key, or walks the parts, `Default.sends_or_walks`.

Nothing here depends on what a walk keeps for itself, so the walk is first freed of it:
`walk_eq_walkWorld`.
-/
import TreeWalk.Proofs.Walk.Ancestors

namespace TreeWalk

variable {ω σ α : Type}

/-! ### The walk of the world alone -/

namespace Observer

/-- What a walk does to the world before a dispatch. -/
def tellEntering (o : Observer ω σ) (st : σ) (v : Visit) (w : ω) : ω :=
  match o with
  | before visitors => tell visitors st w v
  | _ => w

/-- What a walk does to the world after a dispatch, given the nodes of the open calls. -/
def tellLeaving (o : Observer ω σ) (st : σ) (opened : List Cursor) (v : Visit) (r : Outcome)
    (w : ω) : ω :=
  match o with
  | after visitors => tellAfter visitors v.key v.cursor st (openPath opened) r w
  | _ => w

/-- The walk searches for nothing. -/
def Watches : Observer ω σ → Prop
  | search _ _ => False
  | _ => True

/-- Nobody is told of a dispatch that has failed. -/
theorem tellLeaving_error (o : Observer ω σ) (st : σ) (opened : List Cursor) (v : Visit)
    (e : WalkError) (w : ω) : o.tellLeaving st opened v (.error e) w = w := by
  cases o <;> rfl

end Observer

/-- What a walk keeps for itself is as the open calls make it: it has found nothing, and it has
the path to the innermost of them if it keeps a path at all. -/
structure Memory.Keeps (m : Memory ω) (o : Observer ω σ) (opened : List Cursor) : Prop where
  found : m.found = none
  path : ∀ visitors, o = .after visitors → m.Follows opened

namespace Memory.Keeps

variable {m : Memory ω} {o : Observer ω σ} {opened : List Cursor}

theorem withWorld (h : m.Keeps o opened) (w : ω) : { m with world := w }.Keeps o opened :=
  ⟨h.found, fun visitors ho => ⟨(h.path visitors ho).path, h.found⟩⟩

theorem initial (o : Observer ω σ) (w : ω) : (Memory.initial w).Keeps o [] :=
  ⟨rfl, fun _ _ => ⟨rfl, rfl⟩⟩

end Memory.Keeps

/-- What surrounds a dispatch that changes the world alone tells before it and after it. -/
theorem Observer.surround_eq {o : Observer ω σ} (ho : o.Watches) {opened : List Cursor}
    {m : Memory ω} (hm : m.Keeps o opened) (key : String) (c : Cursor) (st : σ)
    {dispatch : Memory ω → Run ω Unit} {p : ω → Option (Outcome × ω)}
    (hd : ∀ m : Memory ω, m.Keeps o (c :: opened) → dispatch m = Run.ofWorld m (p m.world)) :
    o.surround key c st dispatch m =
      Run.ofWorld m ((p (o.tellEntering st ⟨key, c⟩ m.world)).map fun (r, w) =>
        (r, o.tellLeaving st (c :: opened) ⟨key, c⟩ r w)) := by
  cases o with
  | silent =>
    have hdispatch := hd m ⟨hm.found, by rintro _ ⟨⟩⟩
    rw [surround, hdispatch]
    exact congrArg (Run.ofWorld m) (Option.map_id' ..).symm
  | before visitors =>
    have hdispatch := hd { m with world := tell visitors st m.world ⟨key, c⟩ }
      ⟨hm.found, by rintro _ ⟨⟩⟩
    rw [surround_before, hdispatch]
    exact congrArg (Run.ofWorld m) (Option.map_id' ..).symm
  | after visitors =>
    have hinner := (hm.path visitors rfl).enter c
    have hdispatch := hd (m.enter c) ⟨hinner.found, fun _ _ => hinner⟩
    rw [surround_after visitors key c st hdispatch, hinner.path, m.world_enter]
    rfl
  | search test target => exact ho.elim

namespace Walk

/-- A walk that searches for nothing, as far as the world is concerned, given the nodes of the open
calls. -/
def walkWorld (t : Table ω σ) (o : Observer ω σ) :
    Nat → List Cursor → Cursor → σ → Option Category → ω → Option (Outcome × ω)
  | 0, _, _, _, _, _ => none
  | fuel + 1, opened, c, st, role, w =>
    let v : Visit := ⟨dispatchKey c role, c⟩
    (t.dispatchWorld (walkWorld t o fuel (c :: opened)) v.key c st
      (o.tellEntering st v w)).map fun (r, w) => (r, o.tellLeaving st (c :: opened) v r w)

/-- **What a walk keeps for itself is no part of what it does to the world.** -/
theorem walk_eq_walkWorld (t : Table ω σ) {o : Observer ω σ} (ho : o.Watches) (fuel : Nat)
    {opened : List Cursor} (c : Cursor) (st : σ) (role : Option Category) {m : Memory ω}
    (hm : m.Keeps o opened) :
    Walker.walk ⟨t, o⟩ fuel c st role m =
      Run.ofWorld m (walkWorld t o fuel opened c st role m.world) := by
  induction fuel generalizing opened c st role m with
  | zero => rfl
  | succ fuel ih =>
    rw [Walker.walk, if_neg (by simp [hm.found])]
    refine Observer.surround_eq ho hm (dispatchKey c role) c st ?_
    intro m hm
    refine Walker.dispatch_eq_dispatchWorld ⟨t, o⟩ ?_ (dispatchKey c role) c st
    intro d st role w
    exact ih d st role (hm.withWorld w)

/-- A walk of a tree is the walk of the world alone from its root. -/
theorem run_eq_walkWorld (t : Table ω σ) {o : Observer ω σ} (ho : o.Watches) (fuel : Nat)
    (tree : Node) (st : σ) (w : ω) :
    (Walker.run ⟨t, o⟩ fuel tree st w).map (fun (r, w, _) => (r, w)) =
      walkWorld t o fuel [] (.root tree) st none w := by
  rw [Walker.run, walk_eq_walkWorld t ho fuel _ st none (.initial o w), Run.ofWorld,
    Option.map_map, Option.map_map]
  exact Option.map_id' ..

end Walk

/-- Running one script after another on the world alone. -/
theorem Script.execWorld_bind {walk : Cursor → σ → Option Category → ω → Option (Outcome × ω)}
    {keys : List String} {β : Type} (s : Script ω σ α) (f : α → Script ω σ β) (w : ω) :
    (s.bind f).execWorld walk keys w =
      (s.execWorld walk keys w).bind fun
        | (.ok a, w) => (f a).execWorld walk keys w
        | (.error e, w) => some (.error e, w) := by
  induction s generalizing w with
  | done r => cases r <;> rfl
  | read next ih => exact ih w w
  | write w' next ih => exact ih w'
  | keys next ih => exact ih keys w
  | walk c st role next ih =>
    simp only [bind, execWorld]
    cases walk c st role w with
    | none => rfl
    | some p => exact ih p.1 p.2

/-- Walking on is what the walk makes of it. -/
theorem Script.execWorld_go {walk : Cursor → σ → Option Category → ω → Option (Outcome × ω)}
    {keys : List String} (c : Cursor) (st : σ) (role : Option Category) (w : ω) :
    (go (ω := ω) c st role).execWorld walk keys w = walk c st role w := by
  rw [go, execWorld]
  cases walk c st role w <;> rfl

/-! ### What is done along the dispatches -/

/-- What is done at each dispatch. -/
structure Conduct (ω : Type) where
  /-- Done to the world before anything else. -/
  enter : Visit → ω → ω
  /-- What the dispatch comes to where it ends at once. -/
  ends : Visit → Option Outcome
  /-- Done to the world when the dispatch has ended well, given the nodes of the open calls. -/
  leave : List Cursor → Visit → ω → ω

/-- What comes of a dispatch when what is inside it has ended. -/
def Conduct.close (b : Conduct ω) (opened : List Cursor) (v : Visit) :
    Outcome × ω → Outcome × ω
  | (.ok (), w) => (.ok (), b.leave opened v w)
  | (.error e, w) => (.error e, w)

namespace Nest

mutual
/-- Follows a conduct at a dispatch and at those inside it, up to the first failure. -/
def run (b : Conduct ω) (opened : List Cursor) : Nest → ω → Outcome × ω
  | mk v inside, w =>
    match b.ends v with
    | some r => b.close (v.cursor :: opened) v (r, b.enter v w)
    | none =>
      b.close (v.cursor :: opened) v (runAll b (v.cursor :: opened) inside (b.enter v w))
/-- Follows a conduct along one dispatch after another, up to the first failure. -/
def runAll (b : Conduct ω) (opened : List Cursor) : List Nest → ω → Outcome × ω
  | [], w => (.ok (), w)
  | n :: ns, w =>
    match run b opened n w with
    | (.ok (), w) => runAll b opened ns w
    | (.error e, w) => (.error e, w)
end

theorem runAll_singleton (b : Conduct ω) (opened : List Cursor) (n : Nest) (w : ω) :
    runAll b opened [n] w = run b opened n w := by
  rw [runAll]
  rcases run b opened n w with ⟨_ | _, w⟩ <;> rfl

theorem runAll_append (b : Conduct ω) (opened : List Cursor) (ms ns : List Nest) (w : ω) :
    runAll b opened (ms ++ ns) w =
      match runAll b opened ms w with
      | (.ok (), w) => runAll b opened ns w
      | (.error e, w) => (.error e, w) := by
  induction ms generalizing w with
  | nil => rfl
  | cons m ms ih =>
    rw [List.cons_append, runAll, runAll]
    rcases run b opened m w with ⟨_ | _, w⟩
    · rfl
    · exact ih w

end Nest

/-! ### What the default table does with a node -/

theorem Default.mem_procedures_functionDeclaration :
    (NodeType.functionDeclaration.name, asFunction (ω := ω) (σ := σ)) ∈ procedures := by
  simp [procedures, NodeType.name]

theorem Default.mem_procedures_functionExpression :
    (NodeType.functionExpression.name, asFunction (ω := ω) (σ := σ)) ∈ procedures := by
  simp [procedures, NodeType.name]

/-- **The default table sends a node on under its next key, or walks the parts.** -/
theorem Default.sends_or_walks {c : Cursor} {role : Option Category} (hr : c.node.Plays role) :
    ∃ p : Procedure ω σ, (dispatchKey c role, p) ∈ procedures ∧
      ((∃ next, c.node.Plays next ∧
          c.node.keysIn role = dispatchKey c role :: c.node.keysIn next ∧
          ∀ st, p c st = .go c st next) ∨
        (c.node.keysIn role = [dispatchKey c role] ∧
          ∀ st, p c st = .goParts c st c.node.shape.walked)) := by
  obtain ⟨inner, hinner, hparts⟩ := exists_inner (ω := ω) (σ := σ) c.node
  match role with
  | none =>
    by_cases hf : c.node.isFunction = true
    · have hkeys : c.node.keysIn none =
          dispatchKey c none :: c.node.keysIn (some .function) := by
        simp [Node.keysIn, Node.ownKeys, hf, dispatchKey]
      refine ⟨asFunction, ?_, .inl ⟨some .function, fun _ => hf, hkeys, fun _ => rfl⟩⟩
      obtain ⟨⟨shape, start, stop⟩, trail⟩ := c
      cases shape with
      | function form id params body =>
        cases form with
        | declaration => exact mem_procedures_functionDeclaration
        | expression => exact mem_procedures_functionExpression
      | _ => cases hf
    · have hkey : c.node.innerKey = dispatchKey c none := by rw [Node.innerKey, if_neg hf]; rfl
      rw [hkey] at hinner
      refine ⟨inner, hinner, .inr ⟨?_, fun st => hparts c st rfl⟩⟩
      simp [Node.keysIn, Node.ownKeys, hf, dispatchKey]
  | some .statement =>
    exact ⟨ownType, by simp [procedures, dispatchKey, Category.name],
      .inl ⟨none, c.node.plays_none, rfl, fun _ => rfl⟩⟩
  | some .expression =>
    exact ⟨ownType, by simp [procedures, dispatchKey, Category.name],
      .inl ⟨none, c.node.plays_none, rfl, fun _ => rfl⟩⟩
  | some .scopeBody =>
    exact ⟨scopeBody, by simp [procedures, dispatchKey, Category.name],
      .inl ⟨some .statement, (by simp [Node.Plays]), rfl, fun _ => rfl⟩⟩
  | some .forInit =>
    refine ⟨forInit, by simp [procedures, dispatchKey, Category.name], .inl ?_⟩
    by_cases hv : c.node.isVariableDeclaration = true
    · exact ⟨none, c.node.plays_none, if_pos hv, fun st => if_pos hv⟩
    · exact ⟨some .expression, (by simp [Node.Plays]), if_neg hv, fun st => if_neg hv⟩
  | some .function =>
    have hkey : c.node.innerKey = dispatchKey c (some .function) := if_pos (hr rfl)
    rw [hkey] at hinner
    exact ⟨inner, hinner, .inr ⟨rfl, fun st => hparts c st rfl⟩⟩

/-! ### The walk follows its conduct -/

/-- Under each key the table makes a note of a dispatch and then ends it at once, or does what the
default table does. -/
def Table.Notes (t : Table ω σ) (st : σ) (note : Visit → ω → ω)
    (ends : Visit → Option Outcome) : Prop :=
  ∀ key p, (key, p) ∈ Default.procedures → ∀ c walk w,
    t.dispatchWorld walk key c st w =
      match ends ⟨key, c⟩ with
      | some r => some (r, note ⟨key, c⟩ w)
      | none => (p c st).execWorld walk t.keys (note ⟨key, c⟩ w)

namespace Walk

/-- The conduct of a walk through a table that makes notes. -/
def conduct (o : Observer ω σ) (st : σ) (note : Visit → ω → ω) (ends : Visit → Option Outcome) :
    Conduct ω where
  enter v w := note v (o.tellEntering st v w)
  ends := ends
  leave opened v w := o.tellLeaving st opened v (.ok ()) w

variable {t : Table ω σ} {st : σ} {note : Visit → ω → ω} {ends : Visit → Option Outcome}

/-- Where the procedure of a key does what is inside a dispatch, the walk does the dispatch. -/
theorem walkWorld_succ (ht : t.Notes st note ends) (o : Observer ω σ) {fuel : Nat}
    {opened : List Cursor} {c : Cursor} {role : Option Category} {p : Procedure ω σ}
    (hp : (dispatchKey c role, p) ∈ Default.procedures) {inside : List Nest}
    (hinside : ∀ w, (p c st).execWorld (walkWorld t o fuel (c :: opened)) t.keys w =
      some (Nest.runAll (conduct o st note ends) (c :: opened) inside w)) (w : ω) :
    walkWorld t o (fuel + 1) opened c st role w =
      some (Nest.runAll (conduct o st note ends) opened [.mk ⟨dispatchKey c role, c⟩ inside]
        w) := by
  have hclose (r : Outcome) (w : ω) :
      (r, o.tellLeaving st (c :: opened) ⟨dispatchKey c role, c⟩ r w) =
        (conduct o st note ends).close (c :: opened) ⟨dispatchKey c role, c⟩ (r, w) := by
    rcases r with e | u
    · rw [o.tellLeaving_error]
      rfl
    · rfl
  rw [walkWorld, ht _ _ hp, Nest.runAll_singleton, Nest.run]
  simp only [conduct]
  cases ends ⟨dispatchKey c role, c⟩ with
  | some r => exact congrArg some (hclose r _)
  | none =>
    simp only [hinside, Option.map_some]
    exact congrArg some (hclose _ _)

/-- Walking the parts is doing what each of them does in turn. -/
theorem execWorld_goParts {walk : Cursor → σ → Option Category → ω → Option (Outcome × ω)}
    {keys : List String} {b : Conduct ω} {opened : List Cursor} {c : Cursor} {st : σ}
    {nests : Part Node → List Nest} {ps : List (Part Node)}
    (h : ∀ p ∈ ps, ∀ w, walk (c.part p) st (some p.role) w =
      some (Nest.runAll b opened (nests p) w)) (w : ω) :
    (Script.goParts c st ps).execWorld walk keys w =
      some (Nest.runAll b opened (ps.flatMap nests) w) := by
  induction ps generalizing w with
  | nil => rfl
  | cons p ps ih =>
    have hp := h p (List.mem_cons_self ..) w
    have hrest := ih fun q hq => h q (List.mem_cons_of_mem _ hq)
    show ((Script.go (c.part p) st (some p.role)).bind fun _ =>
      Script.goParts c st ps).execWorld walk keys w = _
    rw [Script.execWorld_bind, Script.execWorld_go, hp, List.flatMap_cons, Nest.runAll_append]
    rcases Nest.runAll b opened (nests p) w with ⟨_ | _, w⟩
    · rfl
    · exact hrest w

/-- **A walk follows its conduct along the dispatches of the default walk.** -/
theorem walkWorld_eq_run (ht : t.Notes st note ends) (o : Observer ω σ) {fuel : Nat}
    {opened : List Cursor} {c : Cursor} {role : Option Category} (hr : c.node.Plays role)
    (hfuel : 4 * (c.node.height - 1) + (c.node.keysIn role).length ≤ fuel) (w : ω) :
    walkWorld t o fuel opened c st role w =
      some (Nest.runAll (conduct o st note ends) opened (c.nests role) w) := by
  -- Each dispatch takes one unit of fuel, and a part has four more than it needs.
  induction fuel generalizing opened c role w with
  | zero =>
    have hpos := List.length_pos_iff.2 (c.node.keysIn_ne_nil role)
    omega
  | succ fuel ih =>
    obtain ⟨p, hp, ⟨next, hnext, hkeys, hgo⟩ | ⟨hkeys, hparts⟩⟩ :=
      Default.sends_or_walks (ω := ω) (σ := σ) hr
    · have hnests : c.nests role = [.mk ⟨dispatchKey c role, c⟩ (c.nests next)] := by
        rw [Cursor.nests_eq, hkeys, Nest.wrap, ← Cursor.nests_eq]
      rw [hkeys, List.length_cons] at hfuel
      rw [hnests]
      refine walkWorld_succ ht o hp ?_ w
      intro w
      rw [hgo, Script.execWorld_go]
      exact ih hnext (by omega) w
    · rw [Cursor.nests_eq, hkeys, Nest.wrap, Nest.wrap]
      refine walkWorld_succ ht o hp ?_ w
      intro w
      rw [hparts]
      refine execWorld_goParts ?_ w
      intro q hq w
      have hlt : q.child.height < c.node.height := Node.height_lt (Shape.child_mem_of_mem_walked hq)
      have hlength := q.child.length_keysIn (some q.role)
      have hpos := q.child.height_pos
      rw [hkeys, List.length_singleton] at hfuel
      refine ih (Cursor.IsPart.plays ⟨q, hq, rfl, rfl⟩) ?_ w
      show 4 * (q.child.height - 1) + (q.child.keysIn (some q.role)).length ≤ fuel
      omega

/-- The same for a walk of a whole tree. -/
theorem run_eq_runAll (ht : t.Notes st note ends) {o : Observer ω σ} (ho : o.Watches)
    (tree : Node) (spare : Nat) (w : ω) :
    (Walker.run ⟨t, o⟩ (tree.walkFuel + spare) tree st w).map (fun (r, w, _) => (r, w)) =
      some (Nest.runAll (conduct o st note ends) [] ((Cursor.root tree).nests none) w) := by
  rw [run_eq_walkWorld t ho]
  refine walkWorld_eq_run ht o tree.plays_none ?_ w
  have hlength := tree.length_keysIn none
  have hpos := tree.height_pos
  show 4 * (tree.height - 1) + (tree.keysIn none).length ≤ 4 * tree.height + spare
  omega

end Walk

end TreeWalk
