/-
A scope walk as a list of events.

What a scope walk does to a tree does not depend on the scopes it starts from: it visits
nodes, opens scopes, binds names and leaves scopes again, and `Cursor.events` lists these
events in order.  `perform` goes through such a list with the open scopes at hand, up to
the first name that is no identifier.

The events of a node leave every scope that they open and nothing else, `level_events`.
So they can be performed wherever the node stands, and a scope walk of a tree, silent or
with visitors, is its events performed: `walk_stages`.
-/
import TreeWalk.Proofs.Scope.Stages
import TreeWalk.Proofs.Walk.Visits

namespace TreeWalk

/-! ### Events -/

/-- One thing that happens in a scope walk. -/
inductive Event where
  /-- A node is dispatched under a key. -/
  | visits (v : Visit)
  /-- A scope is opened in the current one and entered. -/
  | opens (kind : ScopeKind)
  /-- A name is bound in the current scope, or in the one around it. -/
  | binds (outside : Bool) (kind : BindingKind) (name : Node) (role : String)
  /-- The current scope is left. -/
  | closes

/-- The events of a stage, given the nodes that stand in it and the events of its parts. -/
def Stage.expand {α : Type} (stage : Stage α) (node : α → Node) (walk : Part α → List Event) :
    List Event :=
  match stage with
  | opens kind => [.opens kind]
  | binds outside kind a role => [.binds outside kind (node a) role]
  | walks p => walk p
  | closes => [.closes]

/-- The events of a walk of the node, at a place and in a role. -/
def Node.events (n : Node) : Trail → Option Category → List Event :=
  n.para fun n s trail role =>
    (n.keysIn role).map (fun key => .visits ⟨key, ⟨n, trail⟩⟩) ++
      s.stages.flatMap fun stage =>
        stage.expand Prod.fst fun p => p.child.2 (p.steps ++ trail) (some p.role)

namespace Cursor

/-- The events of a scope walk from here on. -/
def events (c : Cursor) (role : Option Category) : List Event := c.node.events c.trail role

/-- The events of a stage of the node here. -/
def eventsOf (c : Cursor) (stage : Stage Node) : List Event :=
  stage.expand id fun p => (c.part p).events (some p.role)

theorem events_eq (c : Cursor) (role : Option Category) :
    c.events role = (c.node.keysIn role).map (fun key => .visits ⟨key, c⟩) ++
      c.node.shape.stages.flatMap c.eventsOf := by
  have hstage (s : Stage Node) : (s.map fun m => (m, m.events)).expand Prod.fst
      (fun p => p.child.2 (p.steps ++ c.trail) (some p.role)) = c.eventsOf s := by
    cases s <;> rfl
  rw [events, Node.events, Node.para_eq, Shape.stages_map, List.flatMap_map]
  exact congrArg (_ ++ c.node.shape.stages.flatMap ·) (funext hstage)

end Cursor

/-! ### The events of a layer

The stages of a function, a `try` and a variable declaration, written out as events.
-/

/-- The event of a function's name. -/
def Event.named (form : FunctionForm) (n : Node) : Event :=
  match form with
  | .declaration => .binds true .function n "function name"
  | .expression => .binds false .functionName n "function name"

/-- The events of a catch clause that the steps lead to. -/
def Event.clause (walk : Part Node → List Event) (steps : Trail) (c : CatchClause Node) :
    List Event :=
  .opens .catchClause :: .binds false .catchParameter c.param "catch parameter" ::
    (walk ⟨.field .body :: steps, .scopeBody, c.body⟩ ++ [.closes])

/-- The events of a declarator. -/
def Event.declarator (walk : Part Node → List Event) (i : Nat) (d : Declarator Node) :
    List Event :=
  .binds false .variable d.id "declarator identifier" :: d.init.toList.flatMap fun a =>
    walk ⟨[.field .init, .item i, .field .declarations], .expression, a⟩

namespace Shape

variable (walk : Part Node → List Event)

theorem events_function (form : FunctionForm) (name : Option Node) (params : List Node)
    (body : Node) :
    ((function form name params body).stages.flatMap fun stage => stage.expand id walk) =
      .opens .function :: ((params.map fun a =>
        .binds false .argument a "parameter identifier") ++ name.toList.map (Event.named form) ++
          (walk (.one .body .scopeBody body) ++ [.closes])) := by
  have hparams : (params.flatMap fun a =>
      (Stage.binds false .argument a "parameter identifier").expand id walk) =
        params.map fun a => .binds false .argument a "parameter identifier" :=
    List.map_eq_flatMap.symm
  have hname : (name.toList.flatMap fun a => (Stage.named form a).expand id walk) =
      name.toList.map (Event.named form) := by
    rw [List.map_eq_flatMap]
    cases form <;> rfl
  rw [stages, List.flatMap_append, List.flatMap_append, List.flatMap_cons, List.flatMap_map,
    List.flatMap_map, hname, hparams]
  rfl

theorem events_tryStatement (block : Node) (handler : Option (CatchClause Node))
    (handlers : List (CatchClause Node)) (finalizer : Option Node) :
    ((tryStatement block handler handlers finalizer).stages.flatMap fun stage =>
        stage.expand id walk) =
      walk (.one .block .statement block) ++
        ((clauses handler handlers).zipIdx.flatMap fun (c, i) =>
          Event.clause walk
            (if handlers.isEmpty then [.field .handler] else [.item i, .field .handlers]) c) ++
        (Part.opt .finalizer .statement finalizer).flatMap walk := by
  rw [stages, List.flatMap_append, List.flatMap_cons, List.flatMap_assoc, List.flatMap_map]
  rfl

theorem events_variableDeclaration (declarations : List (Declarator Node))
    (kind : DeclarationKind) :
    ((variableDeclaration declarations kind).stages.flatMap fun stage => stage.expand id walk) =
      declarations.zipIdx.flatMap fun (d, i) => Event.declarator walk i d := by
  rw [stages, List.flatMap_assoc]
  refine congrArg (declarations.zipIdx.flatMap ·) (funext fun d => ?_)
  obtain ⟨⟨name, init⟩, i⟩ := d
  cases init <;> rfl

end Shape

/-! ### Performing events -/

namespace ScopeWalk

open Observer

variable {α : Type}

/-- The open scopes, the current one by itself, and the world. -/
structure Place (α : Type) where
  scope : ScopeId
  around : List ScopeId
  world : ScopeStore × α

/-- What an event does, or how it fails. -/
def step (visitors : OrderedMap (Visitor (ScopeStore × α) ScopeId)) (s : Place α) :
    Event → Except WalkError (Place α)
  | .visits v => .ok { s with world := tell visitors s.scope s.world v }
  | .opens kind =>
    .ok ⟨(s.world.1.openChild s.scope kind).1, s.scope :: s.around,
      ((s.world.1.openChild s.scope kind).2, s.world.2)⟩
  | .binds outside kind n role =>
    match n.name? with
    | some name =>
      let target := if outside then s.around.headD s.scope else s.scope
      .ok { s with world := (s.world.1.declare target name ⟨kind, n⟩, s.world.2) }
    | none => .error (.malformedNode role n.type)
  | .closes => .ok { s with scope := s.around.headD s.scope, around := s.around.tail }

/-- Performs events in order, up to the first that fails. -/
def perform (visitors : OrderedMap (Visitor (ScopeStore × α) ScopeId)) :
    List Event → Place α → Outcome × Place α
  | [], s => (.ok (), s)
  | e :: es, s =>
    match step visitors s e with
    | .ok s => perform visitors es s
    | .error err => (.error err, s)

variable {visitors : OrderedMap (Visitor (ScopeStore × α) ScopeId)}

theorem perform_append (as bs : List Event) (s : Place α) :
    perform visitors (as ++ bs) s =
      match perform visitors as s with
      | (.ok (), s) => perform visitors bs s
      | (.error err, s) => (.error err, s) := by
  induction as generalizing s with
  | nil => rfl
  | cons e es ih =>
    rw [List.cons_append, perform, perform]
    cases step visitors s e with
    | ok s => exact ih s
    | error err => rfl

/-- Visits tell their visitors in order. -/
theorem perform_visits (c : Cursor) (keys : List String) (es : List Event) (s : Place α) :
    perform visitors (keys.map (fun key => .visits ⟨key, c⟩) ++ es) s =
      perform visitors es
        { s with world := (keys.map (⟨·, c⟩)).foldl (tell visitors s.scope) s.world } := by
  induction keys generalizing s with
  | nil => rfl
  | cons key keys ih => exact ih _

/-! ### Levels

Events that never leave a scope they have not opened can be performed anywhere.
-/

/-- The number of scopes that are open in the end, where `d` are open at first and no other is
touched; nothing where another is. -/
def level : List Event → Nat → Option Nat
  | [], d => some d
  | .visits _ :: es, d => level es d
  | .opens _ :: es, d => level es (d + 1)
  | .binds false _ _ _ :: es, d => level es d
  | .binds true _ _ _ :: es, d => if d = 0 then none else level es d
  | .closes :: es, d => if d = 0 then none else level es (d - 1)

theorem level_append (as bs : List Event) (d : Nat) :
    level (as ++ bs) d = (level as d).bind (level bs) := by
  induction as generalizing d with
  | nil => rfl
  | cons e es ih =>
    cases e with
    | visits v => exact ih d
    | opens kind => exact ih (d + 1)
    | binds outside kind n role =>
      cases outside with
      | false => exact ih d
      | true =>
        rw [List.cons_append, level, level]
        split
        · rfl
        · exact ih d
    | closes =>
      rw [List.cons_append, level, level]
      split
      · rfl
      · exact ih (d - 1)

/-- The place in the scopes given, which lie in a scope of their own. -/
def Place.inside (inner : List ScopeId) (base : ScopeId) (around : List ScopeId)
    (world : ScopeStore × α) : Place α :=
  match inner with
  | [] => ⟨base, around, world⟩
  | scope :: rest => ⟨scope, rest ++ base :: around, world⟩

@[simp] theorem Place.world_inside (inner : List ScopeId) (base : ScopeId) (around : List ScopeId)
    (world : ScopeStore × α) : (Place.inside inner base around world).world = world := by
  cases inner <;> rfl

section

variable (visitors)

/-- An event at a level does the same whatever the scopes around are. -/
theorem exists_step {e : Event} {inner : List ScopeId} {d : Nat}
    (h : level [e] inner.length = some d) (base : ScopeId) (world : ScopeStore × α) :
    (∃ err, ∀ around, step visitors (.inside inner base around world) e = .error err) ∨
      ∃ inner' world', inner'.length = d ∧ ∀ around,
        step visitors (.inside inner base around world) e =
          .ok (.inside inner' base around world') := by
  cases e with
  | visits v =>
    refine .inr ⟨inner, tell visitors (inner.headD base) world v, Option.some.inj h, ?_⟩
    intro around
    cases inner <;> rfl
  | opens kind =>
    let opened := world.1.openChild (inner.headD base) kind
    refine .inr ⟨opened.1 :: inner, (opened.2, world.2), Option.some.inj h, ?_⟩
    intro around
    cases inner <;> rfl
  | binds outside kind n role =>
    cases hn : n.name? with
    | none =>
      refine .inl ⟨.malformedNode role n.type, ?_⟩
      intro around
      rw [step, hn]
    | some name =>
      cases outside with
      | false =>
        let store := world.1.declare (inner.headD base) name ⟨kind, n⟩
        refine .inr ⟨inner, (store, world.2), Option.some.inj h, ?_⟩
        intro around
        rw [step, hn]
        cases inner <;> rfl
      | true =>
        cases inner with
        | nil => cases h
        | cons scope rest =>
          let store := world.1.declare (rest.headD base) name ⟨kind, n⟩
          refine .inr ⟨scope :: rest, (store, world.2), Option.some.inj h, ?_⟩
          intro around
          rw [step, hn]
          cases rest <;> rfl
  | closes =>
    cases inner with
    | nil => cases h
    | cons scope rest =>
      refine .inr ⟨rest, world, Option.some.inj h, ?_⟩
      intro around
      cases rest <;> rfl

/-- **Events at a level do the same whatever the scopes around are.** -/
theorem exists_perform {es : List Event} {inner : List ScopeId} {d : Nat}
    (h : level es inner.length = some d) (base : ScopeId) (world : ScopeStore × α) :
    ∃ r inner' world', (r = .ok () → inner'.length = d) ∧ ∀ around,
      perform visitors es (.inside inner base around world) =
        (r, .inside inner' base around world') := by
  induction es generalizing inner world with
  | nil => exact ⟨.ok (), inner, world, fun _ => Option.some.inj h, fun _ => rfl⟩
  | cons e es ih =>
    rw [← List.singleton_append, level_append] at h
    obtain ⟨d₁, he, hes⟩ := Option.bind_eq_some_iff.1 h
    rcases exists_step visitors he base world with
      ⟨err, hstep⟩ | ⟨inner₁, world₁, rfl, hstep⟩
    · have hfailed : (Except.error err : Outcome) ≠ .ok () := by simp
      refine ⟨.error err, inner, world, fun h => absurd h hfailed, ?_⟩
      intro around
      rw [perform, hstep]
    · obtain ⟨r, inner', world', hlen, hperform⟩ := ih hes world₁
      refine ⟨r, inner', world', hlen, ?_⟩
      intro around
      rw [perform, hstep]
      exact hperform around

end

/-- Lists of events that stay at each level. -/
theorem level_flatMap {β : Type} {f : β → List Event} {bs : List β}
    (h : ∀ b ∈ bs, ∀ d, level (f b) d = some d) (d : Nat) : level (bs.flatMap f) d = some d := by
  induction bs with
  | nil => rfl
  | cons b bs ih =>
    rw [List.flatMap_cons, level_append, h b (List.mem_cons_self ..)]
    exact ih fun b' hb' => h b' (List.mem_cons_of_mem _ hb')

/-- The stages of a node keep the level if its parts do. -/
theorem level_stages (s : Shape Node) {walk : Part Node → List Event}
    (h : ∀ p ∈ s.walked, ∀ d, level (walk p) d = some d) (d : Nat) :
    level (s.stages.flatMap fun stage => stage.expand id walk) d = some d := by
  have hscope (p : Part Node) (hp : p ∈ s.walked) (d : Nat) :
      level (walk p ++ [.closes]) (d + 1) = some d := by
    rw [level_append, h p hp]
    rfl
  have hwalks (ps : List (Part Node)) (hps : ∀ p ∈ ps, p ∈ s.walked) :
      level ((ps.map Stage.walks).flatMap fun stage => stage.expand id walk) d = some d := by
    rw [List.flatMap_map]
    exact level_flatMap (fun p hp d => h p (hps p hp) d) d
  cases s with
  | function form name params body =>
    have hparams : level (params.map fun a => .binds false .argument a "parameter identifier")
        (d + 1) = some (d + 1) := by
      rw [List.map_eq_flatMap]
      exact level_flatMap (fun _ _ _ => rfl) _
    have hname : level (name.toList.map (Event.named form)) (d + 1) = some (d + 1) := by
      cases name with
      | none => rfl
      | some a => cases form <;> rfl
    rw [Shape.events_function, level, level_append, level_append, hparams, Option.bind_some, hname]
    exact hscope _ (List.mem_singleton_self _) d
  | tryStatement block handler handlers finalizer =>
    have hblock := h (.one .block .statement block) (List.mem_cons_self ..) d
    have hclauses : level ((Shape.clauses handler handlers).zipIdx.flatMap fun c =>
        Event.clause walk
          (if handlers.isEmpty then [.field .handler] else [.item c.2, .field .handlers]) c.1) d =
        some d :=
      level_flatMap (fun _ hmem d => hscope _ (Shape.mem_walked_of_clause hmem) d) d
    have hfinalizer := level_flatMap (fun p hp d => h p (List.mem_append_right _ hp) d) d
    rw [Shape.events_tryStatement, level_append, level_append, hblock, Option.bind_some, hclauses]
    exact hfinalizer
  | variableDeclaration declarations kind =>
    rw [Shape.events_variableDeclaration]
    refine level_flatMap ?_ d
    intro declarator hmem d
    refine level_flatMap (fun a ha d => h _ ?_ d) d
    exact Shape.mem_walked_of_init hmem ha
  | _ => exact hwalks _ fun _ hp => hp

/-- **The events of a node leave every scope that they open, and no other.** -/
theorem level_events (c : Cursor) (role : Option Category) (d : Nat) :
    level (c.events role) d = some d := by
  obtain ⟨n, trail⟩ := c
  induction n using Node.walked_induction generalizing trail role d with
  | step n ih =>
    have hvisits : level ((n.keysIn role).map fun key => .visits ⟨key, ⟨n, trail⟩⟩) d = some d := by
      induction n.keysIn role with
      | nil => rfl
      | cons key keys ih => exact ih
    rw [Cursor.events_eq, level_append, hvisits]
    exact level_stages n.shape (fun p hp d => ih p hp (some p.role) d (p.steps ++ trail)) d

/-- The events of a node come back to the scope that they start in, or fail in one inside. -/
theorem exists_perform_events (visitors : OrderedMap (Visitor (ScopeStore × α) ScopeId))
    (c : Cursor) (role : Option Category) (scope : ScopeId) (world : ScopeStore × α) :
    ∃ r inner world', (r = .ok () → inner = []) ∧ ∀ around,
      perform visitors (c.events role) ⟨scope, around, world⟩ =
        (r, .inside inner scope around world') := by
  have hlevel : level (c.events role) ([] : List ScopeId).length = some 0 := level_events c role 0
  obtain ⟨r, inner, world', hlen, hperform⟩ := exists_perform visitors hlevel scope world
  exact ⟨r, inner, world', fun hr => List.eq_nil_of_length_eq_zero (hlen hr), hperform⟩

/-! ### Walks -/

/-- What a walk makes of performing the events: their outcome, and the world that they leave. -/
def performed (visitors : OrderedMap (Visitor (ScopeStore × α) ScopeId)) (es : List Event)
    (scope : ScopeId) (around : List ScopeId) (m : Memory (ScopeStore × α)) :
    Outcome × Memory (ScopeStore × α) :=
  ((perform visitors es ⟨scope, around, m.world⟩).1,
    { m with world := (perform visitors es ⟨scope, around, m.world⟩).2.world })

/-- A scope walk that is not over yet, as its events. -/
def account (visitors : OrderedMap (Visitor (ScopeStore × α) ScopeId)) (c : Cursor)
    (scope : ScopeId) (role : Option Category) (m : Memory (ScopeStore × α)) :
    Run (ScopeStore × α) Unit :=
  if m.found.isSome then some (.ok (), m)
  else some (performed visitors (c.events role) scope [] m)

/-- Going through stages performs their events. -/
theorem exec_goStages (c : Cursor) (keys : List String) (stages : List (Stage Node))
    (scope : ScopeId) (around : List ScopeId) {m : Memory (ScopeStore × α)}
    (hm : m.found = none) :
    (goStages c stages scope around).exec (account visitors) keys m =
      some (performed visitors (stages.flatMap c.eventsOf) scope around m) := by
  induction stages generalizing scope around m with
  | nil => rfl
  | cons stage rest ih =>
    rw [List.flatMap_cons]
    cases stage with
    | opens kind => exact ih _ _ hm
    | closes => exact ih _ _ hm
    | binds outside kind n role =>
      refine (Script.exec_bind
        (bindName (α := α) (if outside then around.headD scope else scope) n kind role)
        (fun _ => goStages c rest scope around) m).trans ?_
      show _ = some (performed visitors (.binds outside kind n role :: _) scope around m)
      cases hn : n.name? with
      | none =>
        simp only [bindName, hn, Script.malformed, Script.fail, Script.exec, Option.bind_some,
          performed, perform, step]
      | some name =>
        have hrest := ih scope around (m := { m with world :=
          (m.world.1.declare (if outside then around.headD scope else scope) name ⟨kind, n⟩,
            m.world.2) }) hm
        simp only [bindName, hn, Script.modify, Script.exec, Option.bind_some]
        rw [hrest]
        simp only [performed, perform, step, hn]
        rfl
    | walks p =>
      obtain ⟨r, inner, world, hinner, hperform⟩ :=
        exists_perform_events visitors (c.part p) (some p.role) scope m.world
      have hwalk : account visitors (c.part p) scope (some p.role) m =
          some (r, { m with world := world }) := by
        rw [account, if_neg (by simp [hm]), performed, hperform]
        simp
      refine (Script.exec_bind
        (Script.go (ω := ScopeStore × α) (c.part p) scope (some p.role))
        (fun _ => goStages c rest scope around) m).trans ?_
      show _ = some (performed visitors ((c.part p).events (some p.role) ++ _) scope around m)
      rw [Script.exec_go, hwalk, Option.bind_some, performed, perform_append, hperform]
      cases r with
      | error err => simp
      | ok u =>
        rw [hinner rfl]
        exact ih _ _ hm

/-- **A scope walk is its events performed.** -/
theorem walk_stages (visitors : OrderedMap (Visitor (ScopeStore × α) ScopeId))
    {t : Table (ScopeStore × α) ScopeId} (h : t.WalksStages) {fuel : Nat} {c : Cursor}
    (hfuel : 4 * c.node.height ≤ fuel) (scope : ScopeId) {role : Option Category}
    (hr : c.node.Plays role) :
    Walker.walk ⟨t, .before visitors⟩ fuel c scope role = account visitors c scope role := by
  refine Walker.walk_eq_of_layers ⟨t, .before visitors⟩ h.descends (account visitors) ?_ hfuel
    scope hr
  intro c scope role _
  funext m
  by_cases hf : m.found.isSome = true
  · rw [layers_of_found hf (c.node.keysIn_ne_nil role), account, if_pos hf]
  · have hnone : m.found = none := by simpa using hf
    obtain ⟨p, hrun, hstages⟩ := h.inner c
    let world := ((c.node.keysIn role).map (Visit.mk · c)).foldl (tell visitors scope) m.world
    have hexec : (goStages c c.node.shape.stages scope []).exec (account visitors) t.keys
        { m with world } =
        some (performed visitors (c.node.shape.stages.flatMap c.eventsOf) scope []
          { m with world }) :=
      exec_goStages c t.keys _ scope [] hnone
    rw [layers_before _ _ _ _ _ hnone, Walker.dispatch_of_runs hrun, hstages, hexec, account,
      if_neg hf, Cursor.events_eq, performed, perform_visits]
    rfl

/-- Walking silently is walking with no visitors. -/
theorem walk_silent {ω σ : Type} (t : Table ω σ) (fuel : Nat) :
    Walker.walk ⟨t, .silent⟩ fuel = Walker.walk ⟨t, .before .empty⟩ fuel := by
  induction fuel with
  | zero => rfl
  | succ fuel ih =>
    funext c st role m
    rw [Walker.walk, Walker.walk, ih]
    rfl

/-- **Walking a tree from a scope performs the events of the tree there.** -/
theorem run_eq (tree : Node) (root : ScopeId) (s : ScopeStore) :
    run tree root s =
      let after := perform .empty ((Cursor.root tree).events none) ⟨root, [], (s, ())⟩
      some (after.1, after.2.world.1) := by
  have ht : (Table.layer .empty (table 0) : Table (ScopeStore × Unit) ScopeId).WalksStages :=
    (walksStages_table 0).layer_empty
  have hwalk : Walker.walk ⟨Table.layer .empty (table 0), .before .empty⟩ tree.walkFuel
      (.root tree) root none = account .empty (.root tree) root none :=
    walk_stages .empty ht (Nat.le_refl _) root (Cursor.root tree).node.plays_none
  rw [run, Walk.recursive, Walker.run]
  show Option.map _ (Option.map _ (Option.map _
    (Walker.walk ⟨Table.layer .empty (table 0), .silent⟩ tree.walkFuel (.root tree) root none
      (.initial (s, ()))))) = _
  rw [walk_silent, hwalk]
  rfl

end ScopeWalk

end TreeWalk
