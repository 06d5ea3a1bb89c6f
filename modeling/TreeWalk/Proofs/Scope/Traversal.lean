/-
What a scope walk traverses.

The entries that scope walks replace open scopes and bind names, but they walk the same parts
as those of the default table, in the same order and roles.  So the visits among the events
of a scope walk are the visits of a simple walk, `filterMap_visit?_events`.

A scope walk may end early where a walk through the default table does not: at a name that
is no identifier.  The visits up to there are a prefix of all, whatever the visitors do to
the scopes and to the rest of the world meanwhile.
-/
import TreeWalk.Proofs.Scope.Fault

namespace TreeWalk

/-! ### The visits among the events -/

/-- The visit that an event is, if it is one. -/
def Event.visit? : Event → Option Visit
  | visits v => some v
  | _ => none

/-- **The visits among the events of a scope walk are those of a walk through the default
table.** -/
theorem Cursor.filterMap_visit?_events (c : Cursor) (role : Option Category) :
    (c.events role).filterMap Event.visit? = c.visits role := by
  obtain ⟨n, trail⟩ := c
  induction n using Node.walked_induction generalizing trail role with
  | step n ih =>
    have hkeys : ((n.keysIn role).map fun key => Event.visits ⟨key, ⟨n, trail⟩⟩).filterMap
        Event.visit? = (n.keysIn role).map (⟨·, ⟨n, trail⟩⟩) := by
      rw [List.filterMap_map]
      exact congrFun List.filterMap_eq_map _
    have hstage : ∀ stage ∈ n.shape.stages, (eventsOf ⟨n, trail⟩ stage).filterMap Event.visit? =
        stage.part?.toList.flatMap fun p => (part ⟨n, trail⟩ p).visits (some p.role) := by
      intro stage hstage
      cases stage with
      | walks p =>
        have hp : p ∈ n.shape.walked := by
          rw [← Shape.filterMap_part?_stages]
          exact List.mem_filterMap.2 ⟨_, hstage, rfl⟩
        have hpart := ih p hp (some p.role) (p.steps ++ trail)
        exact hpart.trans (List.flatMap_singleton ..).symm
      | _ => rfl
    rw [events_eq, visits_eq, List.filterMap_append, hkeys, List.filterMap_flatMap,
      List.flatMap_congr hstage, ← Shape.filterMap_part?_stages, List.filterMap_eq_flatMap_toList,
      List.flatMap_assoc]

/-! ### Visitors that note what they are told of -/

/-- Does what a visitor under the key does, and notes the visit. -/
def Visitor.noting {α : Type} (visit : String → Visitor (ScopeStore × α) ScopeId) (key : String) :
    Visitor (ScopeStore × α × List Visit) ScopeId := fun c scope (s, a, noted) =>
  match visit key c scope (s, a) with
  | (s, a) => (s, a, noted ++ [⟨key, c⟩])

namespace ScopeWalk

open Observer

variable {α : Type} {visitors : OrderedMap (Visitor (ScopeStore × α × List Visit) ScopeId)}

/-- The visitors note a visit when they are told of it. -/
def Notes (visitors : OrderedMap (Visitor (ScopeStore × α × List Visit) ScopeId)) (v : Visit) :
    Prop :=
  ∀ scope w, (tell visitors scope w v).2.2 = w.2.2 ++ [v]

/-- Visitors that are told of visits in order note them all. -/
theorem notes_foldl {vs : List Visit} (h : ∀ v ∈ vs, Notes visitors v) (scope : ScopeId) :
    ∀ w, (vs.foldl (tell visitors scope) w).2.2 = w.2.2 ++ vs := by
  induction vs with
  | nil =>
    intro w
    exact (List.append_nil _).symm
  | cons v vs ih =>
    intro w
    rw [List.foldl_cons, ih fun u hu => h u (List.mem_cons_of_mem _ hu),
      h v (List.mem_cons_self ..), List.append_assoc]
    rfl

/-- An event that is a visit is noted, and another leaves the notes as they are. -/
theorem notes_step {e : Event} (h : ∀ v ∈ e.visit?, Notes visitors v)
    {p q : Place (α × List Visit)} (hstep : step visitors p e = .ok q) :
    q.world.2.2 = p.world.2.2 ++ e.visit?.toList := by
  cases e with
  | visits v =>
    obtain rfl := Except.ok.inj hstep
    exact h v rfl p.scope p.world
  | binds outside kind n role =>
    cases hn : n.name? with
    | none =>
      rw [step, hn] at hstep
      cases hstep
    | some name =>
      rw [step, hn] at hstep
      obtain rfl := Except.ok.inj hstep
      exact (List.append_nil _).symm
  | _ =>
    obtain rfl := Except.ok.inj hstep
    exact (List.append_nil _).symm

/-- Where no event fails, the visits among them are noted, in order. -/
theorem notes_perform {es : List Event}
    (h : ∀ v ∈ es.filterMap Event.visit?, Notes visitors v) (hes : ∀ e ∈ es, e.fault? = none) :
    ∀ p : Place (α × List Visit), (perform visitors es p).2.world.2.2 =
      p.world.2.2 ++ es.filterMap Event.visit? := by
  induction es with
  | nil =>
    intro p
    exact (List.append_nil _).symm
  | cons e es ih =>
    intro p
    have hsplit : (e :: es).filterMap Event.visit? =
        e.visit?.toList ++ es.filterMap Event.visit? := by
      rw [List.filterMap_eq_flatMap_toList, List.flatMap_cons, List.filterMap_eq_flatMap_toList]
    rw [hsplit] at h ⊢
    obtain ⟨q, hq⟩ : ∃ q, step visitors p e = .ok q :=
      exists_step_of_fault_none (hes e (List.mem_cons_self ..)) p
    have hnoted : q.world.2.2 = p.world.2.2 ++ e.visit?.toList :=
      notes_step (fun v hv => h v (List.mem_append_left _ (Option.mem_toList.2 hv))) hq
    have hrest := ih (fun v hv => h v (List.mem_append_right _ hv))
      (fun e' he' => hes e' (List.mem_cons_of_mem _ he')) q
    rw [perform, hq]
    show (perform visitors es q).2.world.2.2 = _
    rw [hrest, hnoted, List.append_assoc]

/-- Of events that may fail, the visits before the first that does are noted. -/
theorem notes_perform_up_to_fault {es : List Event}
    (h : ∀ v ∈ es.filterMap Event.visit?, Notes visitors v) (p : Place (α × List Visit)) :
    ∃ noted, (perform visitors es p).2.world.2.2 = p.world.2.2 ++ noted ∧
      noted <+: es.filterMap Event.visit? ∧
      ((perform visitors es p).1 = .ok () → noted = es.filterMap Event.visit?) ∧
      ((perform visitors es p).1 = .ok () ↔ ¬ ∃ e ∈ es, ∃ err, e.fault? = some err) := by
  rcases Event.fault?_cases es with hall | ⟨before, e, after, err, rfl, hbefore, he⟩
  · refine ⟨_, notes_perform h hall p, List.prefix_refl _, fun _ => rfl,
      iff_of_true (perform_of_fault_none hall p) ?_⟩
    rintro ⟨e, hmem, err, he⟩
    rw [hall e hmem] at he
    cases he
  · have hfirst : before.filterMap Event.visit? <+:
        (before ++ e :: after).filterMap Event.visit? := (List.prefix_append _ _).filterMap _
    have hnoted := notes_perform (fun v hv => h v (hfirst.subset hv)) hbefore p
    rw [perform_of_fault hbefore he p]
    refine ⟨_, hnoted, hfirst, nofun, iff_of_false nofun ?_⟩
    exact not_not_intro ⟨e, List.mem_append_right _ (List.mem_cons_self ..), err, he⟩

/-- A simple walk through the table of scope walks performs the events of the tree. -/
theorem simple_eq (tree : Node) (visitors : OrderedMap (Visitor (ScopeStore × α) ScopeId))
    (first spare : Nat) (root : ScopeId) (world : ScopeStore × α) :
    Walk.simple (tree.walkFuel + spare) tree visitors (some (table first)) root world =
      let after := perform visitors ((Cursor.root tree).events none) ⟨root, [], world⟩
      some (after.1, after.2.world) := by
  have hfuel : 4 * (Cursor.root tree).node.height ≤ tree.walkFuel + spare := Nat.le_add_right _ _
  rw [Walk.simple, Walker.run, Walk.baseTable, Option.getD_some,
    walk_stages visitors (walksStages_table first) hfuel root tree.plays_none]
  rfl

/-- Noting visitors under every key note the visits of a walk. -/
theorem notes_noting (visit : String → Visitor (ScopeStore × α) ScopeId) (tree : Node) :
    ∀ v ∈ (Cursor.root tree).visits none,
      Notes (Visitor.everywhere (Visitor.noting visit)) v := by
  intro v hv scope w
  obtain ⟨-, role, hkey⟩ := Cursor.reaches_of_mem_visits hv
  rw [Observer.tell, Visitor.get?_everywhere _ (v.cursor.node.keysIn_subset role hkey)]
  rfl

/-- **Keeping track of scopes does not change what is visited.**

Whatever visitors under every key do to the scopes and to the rest of the world, a walk through
the default table tells them of all visits.  One through the table of scope walks, from any
scope, tells them of the same visits in the same order.  Where it fails, which it does just
where a name to be bound is no identifier, it has told them of the first of these. -/
theorem simple_visits_scoped (tree : Node) (visit : String → Visitor (ScopeStore × α) ScopeId)
    (first first' spare : Nat) (root : ScopeId) (s : ScopeStore) (a : α) :
    ∃ r after after',
      Walk.simple (tree.walkFuel + spare) tree (Visitor.everywhere (Visitor.noting visit))
          (some (table first)) root (s, a, []) = some (r, after) ∧
        Walk.simple (tree.walkFuel + spare) tree (Visitor.everywhere (Visitor.noting visit))
          (some (Default.table first')) root (s, a, []) = some (.ok (), after') ∧
        after'.2.2 = (Cursor.root tree).visits none ∧
        after.2.2 <+: after'.2.2 ∧
        (r = .ok () → after.2.2 = after'.2.2) ∧
        (r = .ok () ↔ ∀ c, tree.Walked c → ∀ n ∈ c.node.shape.names, n.name?.isSome = true) := by
  have hnotes := notes_noting visit tree
  have hevents := (Cursor.root tree).filterMap_visit?_events none
  obtain ⟨noted, hnoted, hfirst, hall, hok⟩ :=
    notes_perform_up_to_fault (hevents.symm ▸ hnotes) ⟨root, [], (s, a, [])⟩
  have hvisits := notes_foldl hnotes root (s, a, [])
  rw [List.nil_append] at hnoted hvisits
  rw [hevents] at hfirst hall
  refine ⟨_, _, _, simple_eq tree _ first spare root (s, a, []),
    Walk.simple_base tree _ first' spare root (s, a, []), hvisits, ?_, ?_, ?_⟩
  · rw [hnoted, hvisits]
    exact hfirst
  · intro hr
    rw [hnoted, hvisits]
    exact hall hr
  · rw [hok, Cursor.exists_fault_iff]
    constructor
    · intro h c hc n hn
      exact Option.isSome_iff_ne_none.2 fun hname => h ⟨c, hc, n, hn, hname⟩
    · rintro h ⟨c, hc, n, hn, hname⟩
      exact Option.isSome_iff_ne_none.1 (h c hc n hn) hname

/-- The parameter that is no identifier ends the walk before the body of the function. -/
example : (Walk.simple misnamed.walkFuel misnamed
      (Visitor.everywhere (Visitor.noting fun _ _ _ world => world)) (some (table 0)) globalScope
      (ScopeStore.empty.openGlobal.2, (), [])).map (fun (_, world) => world.2.2.map Visit.key) =
    some ["Program", "Statement", "VariableDeclaration", "Statement", "FunctionDeclaration",
      "Function"] := rfl

end ScopeWalk

end TreeWalk
