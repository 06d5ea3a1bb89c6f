/-
Where a scope walk fails.

The names that a scope walk binds are those of the nodes that it comes to, so it fails just
where one of them is no identifier: `exists_bound_iff` goes from the events of a walk to the
places that it reaches.  The first such name in the order of the events ends the walk, with
what was expected of it and the type that it has instead.

What was opened and bound before stays.  That includes the scope of the function or clause
whose own name is at fault, because a scope is opened before anything is bound in it.
-/
import TreeWalk.Proofs.Scope.Progress
import TreeWalk.Syntax.Build

namespace TreeWalk

/-! ### The names that are bound -/

/-- What a stage binds, if it does. -/
def Stage.name? {α : Type} : Stage α → Option α
  | binds _ _ a _ => some a
  | _ => none

/-- The names that are bound in stages are those of the layer, in order. -/
theorem Shape.filterMap_name?_stages {α : Type} (s : Shape α) :
    s.stages.filterMap Stage.name? = s.names := by
  have hwalks (ps : List (Part α)) : (ps.map Stage.walks).filterMap Stage.name? = [] := by
    rw [List.filterMap_map]
    exact List.filterMap_eq_nil_iff.2 fun _ _ => rfl
  cases s with
  | function form id params body =>
    have hparams : (params.map fun a =>
        Stage.binds false .argument a "parameter identifier").filterMap Stage.name? = params := by
      rw [List.filterMap_map]
      exact List.filterMap_some
    have hid : (id.toList.map (Stage.named form)).filterMap Stage.name? = id.toList := by
      rw [List.filterMap_map]
      cases form <;> exact List.filterMap_some
    rw [stages, List.filterMap_append, List.filterMap_append, List.filterMap_cons, hparams, hid]
    exact List.append_nil _
  | tryStatement block handler handlers finalizer =>
    have hclauses : ((clauses handler handlers).zipIdx.flatMap fun c =>
        (Stage.clause (if handlers.isEmpty then [.field .handler]
          else [.item c.2, .field .handlers]) c.1).filterMap Stage.name?) =
          (clauses handler handlers).map CatchClause.param := by
      conv_rhs => rw [← List.zipIdx_map_fst 0 (clauses handler handlers), List.map_map]
      exact List.map_eq_flatMap.symm
    rw [stages, List.filterMap_append, List.filterMap_cons, hwalks, List.filterMap_flatMap,
      List.append_nil]
    exact hclauses
  | variableDeclaration declarations kind =>
    have hdeclarators : (declarations.zipIdx.flatMap fun d =>
        (Stage.declarator d.2 d.1).filterMap Stage.name?) =
          declarations.map Declarator.id := by
      conv_rhs => rw [← List.zipIdx_map_fst 0 declarations, List.map_map, List.map_eq_flatMap]
      refine List.flatMap_congr ?_
      rintro ⟨⟨id, init⟩, i⟩ _
      cases init <;> rfl
    rw [stages, List.filterMap_flatMap]
    exact hdeclarators
  | _ => exact hwalks _

/-- What an event binds, if it does. -/
def Event.name? : Event → Option Node
  | binds _ _ n _ => some n
  | _ => none

/-- **A walk binds the names of the nodes that it comes to.** -/
theorem Cursor.exists_bound_iff (c : Cursor) (role : Option Category) (n : Node) :
    (∃ e ∈ c.events role, e.name? = some n) ↔ ∃ d, c.Reaches d ∧ n ∈ d.node.shape.names := by
  obtain ⟨m, trail⟩ := c
  induction m using Node.walked_induction generalizing trail role with
  | step m ih =>
    have hnames : n ∈ m.shape.names ↔ ∃ stage ∈ m.shape.stages, stage.name? = some n := by
      rw [← Shape.filterMap_name?_stages, List.mem_filterMap]
    have hparts {p : Part Node} : .walks p ∈ m.shape.stages ↔ p ∈ m.shape.walked := by
      rw [← Shape.filterMap_part?_stages, List.mem_filterMap]
      constructor
      · intro hp
        exact ⟨_, hp, rfl⟩
      · rintro ⟨stage, hstage, hp⟩
        cases stage <;> cases hp
        exact hstage
    rw [events_eq]
    constructor
    · rintro ⟨e, he, hn⟩
      rcases List.mem_append.1 he with he | he
      · obtain ⟨key, -, rfl⟩ := List.mem_map.1 he
        cases hn
      · obtain ⟨stage, hstage, he⟩ := List.mem_flatMap.1 he
        cases stage with
        | walks p =>
          have hp := hparts.1 hstage
          obtain ⟨d, hd, hmem⟩ := (ih p hp (some p.role) (p.steps ++ trail)).1 ⟨e, he, hn⟩
          exact ⟨d, .inside hp hd, hmem⟩
        | binds outside kind a role =>
          obtain rfl := List.mem_singleton.1 he
          exact ⟨_, .here _, hnames.2 ⟨_, hstage, hn⟩⟩
        | opens kind =>
          obtain rfl := List.mem_singleton.1 he
          cases hn
        | closes =>
          obtain rfl := List.mem_singleton.1 he
          cases hn
    · rintro ⟨d, hd, hmem⟩
      cases hd with
      | here =>
        obtain ⟨stage, hstage, hn⟩ := hnames.1 hmem
        cases stage with
        | binds outside kind a role =>
          refine ⟨.binds outside kind a role, List.mem_append_right _ ?_, hn⟩
          exact List.mem_flatMap.2 ⟨_, hstage, List.mem_singleton_self _⟩
        | _ => cases hn
      | @inside _ _ p hp hd =>
        obtain ⟨e, he, hn⟩ := (ih p hp (some p.role) (p.steps ++ trail)).2 ⟨d, hd, hmem⟩
        refine ⟨e, List.mem_append_right _ ?_, hn⟩
        exact List.mem_flatMap.2 ⟨_, hparts.2 hp, he⟩

/-- What fails an event, where it fails: a name that is no identifier. -/
theorem Event.eq_binds_of_fault {e : Event} {err : WalkError} (h : e.fault? = some err) :
    ∃ outside kind n role, e = .binds outside kind n role ∧ n.name? = none ∧
      err = .malformedNode role n.type := by
  cases e with
  | binds outside kind n role =>
    refine ⟨outside, kind, n, role, rfl, ?_⟩
    rw [fault?] at h
    cases hn : n.name? with
    | some name => rw [hn] at h; cases h
    | none =>
      rw [hn] at h
      exact ⟨rfl, (Option.some.inj h).symm⟩
  | _ => cases h

/-- An event of a walk fails just where a node that it comes to has a name that is no
identifier. -/
theorem Cursor.exists_fault_iff (c : Cursor) (role : Option Category) :
    (∃ e ∈ c.events role, ∃ err, e.fault? = some err) ↔
      ∃ d, c.Reaches d ∧ ∃ n ∈ d.node.shape.names, n.name? = none := by
  constructor
  · rintro ⟨e, he, err, hfault⟩
    obtain ⟨outside, kind, n, role', rfl, hn, -⟩ := Event.eq_binds_of_fault hfault
    obtain ⟨d, hd, hmem⟩ := (c.exists_bound_iff role n).1 ⟨_, he, rfl⟩
    exact ⟨d, hd, n, hmem, hn⟩
  · rintro ⟨d, hd, n, hmem, hn⟩
    obtain ⟨e, he, hname⟩ := (c.exists_bound_iff role n).2 ⟨d, hd, hmem⟩
    refine ⟨e, he, ?_⟩
    cases e with
    | binds outside kind m role' =>
      obtain rfl : m = n := Option.some.inj hname
      exact ⟨.malformedNode role' m.type, by rw [Event.fault?, hn]⟩
    | _ => cases hname

/-! ### Walks that fail -/

namespace ScopeWalk

/-- **A scope walk fails at the first name that is no identifier, and what came before stays.**

It fails just where a function that is walked has a parameter or a name that is no identifier,
a declaration that is walked declares what is none, or a clause of a `try` that is walked
catches what is none.  In the order in which scopes are opened, names are bound and parts are
walked, the events before the first such name grow the root scope by what they bring, and
nothing else happens; the failure says what the name was expected to be, and its type. -/
theorem run_first_fault (tree : Node) {root : ScopeId} {s : ScopeStore}
    (hroot : root < s.scopes.size) :
    ∃ before after r, (Cursor.root tree).events none = before ++ after ∧
      (∀ e ∈ before, e.fault? = none) ∧
      run tree root s = some (r, s.grow root (brought before 0)) ∧
      ((∃ err, r = .error err) ↔
        ∃ c, tree.Walked c ∧ ∃ n ∈ c.node.shape.names, n.name? = none) ∧
      (r = .ok () → after = []) ∧
      ∀ err, r = .error err → ∃ outside kind n role rest,
        after = .binds outside kind n role :: rest ∧ n.name? = none ∧
          err = .malformedNode role n.type := by
  obtain ⟨before, after, hes, hbefore, hstore, hafter⟩ := perform_events (.root tree) none hroot
  have hrun (r : Outcome)
      (hr : (perform .empty ((Cursor.root tree).events none) ⟨root, [], (s, ())⟩).1 = r) :
      run tree root s = some (r, s.grow root (brought before 0)) := by
    rw [run_eq, ← hstore, ← hr]
  have hfails := (Cursor.root tree).exists_fault_iff none
  rcases hafter with ⟨rfl, hr⟩ | ⟨e, rest, err, rfl, he, hr⟩
  · rw [List.append_nil] at hes
    refine ⟨before, [], .ok (), by rw [hes, List.append_nil], hbefore, hrun _ hr, ?_,
      fun _ => rfl, nofun⟩
    -- No event fails, so neither side holds.
    refine iff_of_false (fun ⟨err, herr⟩ => nomatch herr) ?_
    intro hname
    obtain ⟨e, hmem, err, he⟩ := hfails.2 hname
    rw [hbefore e (hes ▸ hmem)] at he
    cases he
  · obtain ⟨outside, kind, n, role, rfl, hn, rfl⟩ := Event.eq_binds_of_fault he
    refine ⟨before, _, .error _, hes, hbefore, hrun _ hr, ?_, nofun, ?_⟩
    · have hmem : Event.binds outside kind n role ∈ (Cursor.root tree).events none := by
        rw [hes]
        exact List.mem_append_right _ (List.mem_cons_self ..)
      exact iff_of_true ⟨_, rfl⟩ (hfails.1 ⟨_, hmem, _, he⟩)
    · intro err herr
      obtain rfl := Except.error.inj herr
      exact ⟨outside, kind, n, role, rest, rfl, hn, rfl⟩

/-- `var a; function f(b, 1, c) { } var z`, with a parameter that is no identifier. -/
def misnamed : Node :=
  let params := [Build.ident "b", Build.literal (.num (.int 1)), Build.ident "c"]
  Build.program [Build.var "a" none,
    .ofShape (.function .declaration (some (Build.ident "f")) params (Build.block [])),
    Build.var "z" none]

/-- A function scope that binds a name, inside a global one. -/
def surroundings : ScopeStore :=
  (((ScopeStore.empty.openGlobal.2.openChild globalScope .function).2.declare 1 "x"
    ⟨.argument, Build.ident "x"⟩).hold globalScope)

/-- The walk binds `a` and the first parameter of `f`, in the scope opened for `f`, and fails at
the second: neither `f` nor `z` is bound. -/
theorem run_misnamed :
    1 < surroundings.scopes.size ∧
    (∃ before after r, (Cursor.root misnamed).events none = before ++ after ∧
      run misnamed 1 surroundings =
        some (r, surroundings.grow 1 (brought before 0)) ∧
      ((∃ err, r = .error err) ↔
        ∃ c, misnamed.Walked c ∧ ∃ n ∈ c.node.shape.names, n.name? = none)) ∧
    (run misnamed 1 surroundings).map (fun (r, _) =>
        match r with
        | .ok () => none
        | .error err => some err) =
      some (some (.malformedNode "parameter identifier" .literal)) ∧
    (run misnamed 1 surroundings).map (fun (_, s) => s.scopes.toList.map fun c =>
        (c.kind, c.bindings.entries.map fun (name, b) => (name, b.kind), c.children)) =
      some [(.global, [], [1]), (.function, [("x", .argument), ("a", .variable)], [2]),
        (.function, [("b", .argument)], [])] := by
  have hsize : 1 < surroundings.scopes.size := by decide
  obtain ⟨before, after, r, hes, -, hrun, hfails, -, -⟩ := run_first_fault misnamed hsize
  refine ⟨hsize, ⟨before, after, r, hes, hrun, hfails⟩, ?_⟩
  rw [run_eq]
  exact ⟨by decide, by decide⟩

end ScopeWalk

end TreeWalk
