/-
The reports on scopes and on counts agree.

A report on scopes follows the children of each scope from the outermost one down.  Scopes that
a tree of scopes lays out in a store are numbered in that same order, so the report lists each
scope of the store once, in the order of their numbers: `kinds_ofScopeUpTo`.

A scope walk that succeeds has laid out what the tree is read to have, a scope for each function
and for each catch clause at its places and the global one.  A count of the same tree counts the
bodies that are walked in the role of one, which functions and catch clauses have and nothing
else, `Node.countP_scopeBody`.  So the two are about the same places, and neither walk is
compared with the other.
-/
import TreeWalk.Proofs.Report.Counts
import TreeWalk.Proofs.Scope.Agreement
import TreeWalk.Proofs.Scope.Frame
import TreeWalk.Report.Scopes

namespace TreeWalk

/-! ### The scopes that a report lists -/

namespace ScopeReport

mutual
/-- The kinds of the scopes that are reported on, outer ones first. -/
def kinds : ScopeReport → List ScopeKind
  | ⟨kind, _, _, children⟩ => kind :: kindsAll children
/-- The kinds of the scopes of reports one after another. -/
def kindsAll : List ScopeReport → List ScopeKind
  | [] => []
  | r :: rest => r.kinds ++ kindsAll rest
end

end ScopeReport

namespace ScopeTree

open ScopeReport (ofScopeUpTo)

variable {s : ScopeStore}

mutual
/-- The report on a tree of scopes that stands in a store lists the scopes of the tree. -/
theorem kinds_ofScopeUpTo {around : List ScopeId} {id : ScopeId} {levels : Nat} :
    (t : ScopeTree) → s.Lists id (t.layout around id) → t.size ≤ levels →
      (ofScopeUpTo s levels id).kinds = t.kinds
  | mk kind declared opened, h, hlevels => by
    rw [layout] at h
    rw [size] at hlevels
    -- the outermost scope takes a level of its own, so one is left for each scope inside
    obtain ⟨levels, rfl⟩ := Nat.exists_eq_add_of_le' (Nat.le_of_add_left_le hlevels)
    have hinside := kindsAll_ofScopeUpTo opened h.tail (Nat.le_of_succ_le_succ hlevels)
    rw [ofScopeUpTo, ScopeStore.children, h.head, ScopeReport.kinds, kinds, hinside]
/-- The reports on trees of scopes that stand in a store one after another. -/
theorem kindsAll_ofScopeUpTo {around : List ScopeId} {next : ScopeId} {levels : Nat} :
    (ts : List ScopeTree) → s.Lists next (layoutAll around next ts) → sizeAll ts ≤ levels →
      ScopeReport.kindsAll ((ids next ts).map (ofScopeUpTo s levels)) = kindsAll ts
  | [], _, _ => rfl
  | t :: rest, h, hlevels => by
    rw [layoutAll] at h
    rw [sizeAll] at hlevels
    have hrest := h.right
    rw [length_layout] at hrest
    rw [ids, List.map_cons, ScopeReport.kindsAll, kindsAll,
      kinds_ofScopeUpTo t h.left (Nat.le_of_add_right_le hlevels),
      kindsAll_ofScopeUpTo rest hrest (Nat.le_of_add_left_le hlevels)]
end

end ScopeTree

/-! ### The scopes of a walk that succeeds -/

/-- Where a scope walk succeeds, all names to be bound are identifiers. -/
theorem ScopeWalk.names_of_run {tree : Node} {root : ScopeId} {s s' : ScopeStore}
    (h : ScopeWalk.run tree root s = some (.ok (), s')) {c : Cursor} (hc : tree.Walked c) {m : Node}
    (hm : m ∈ c.node.shape.names) : m.name?.isSome = true := by
  rcases Event.fault?_cases ((Cursor.root tree).events none) with
    hnone | ⟨before, e, after, err, hes, hbefore, he⟩
  · cases hname : m.name? with
    | some name => rfl
    | none =>
      obtain ⟨e, he, err, hfault⟩ :=
        ((Cursor.root tree).exists_fault_iff none).2 ⟨c, hc, m, hm, hname⟩
      rw [hnone e he] at hfault
      cases hfault
  · -- the walk would have ended with the fault
    rw [ScopeWalk.run_eq, hes] at h
    have hoks := congrArg Prod.fst (Option.some.inj h)
    dsimp only at hoks
    rw [ScopeWalk.perform_of_fault hbefore he] at hoks
    cases hoks

/-- Where the scope tree is made, it is laid out as it is read off the tree. -/
theorem toList_scopeTree {tree : Node} {s : ScopeStore} (h : scopeTree tree = some (.ok s)) :
    s.scopes.toList = tree.scopes.layout [] globalScope := by
  rw [scopeTree] at h
  obtain ⟨⟨r, s'⟩, hrun, hr⟩ := Option.map_eq_some_iff.1 h
  cases r with
  | error err => cases hr
  | ok _ =>
    obtain rfl : s' = s := Except.ok.inj hr
    have hgrows := ScopeWalk.grows_events (c := .root tree)
      (fun _ hc _ hm => ScopeWalk.names_of_run hrun hc hm) none
      (ScopeStore.empty.openGlobal.2.hold globalScope) globalScope [] Nat.zero_lt_one
    rw [ScopeWalk.run_eq, hgrows] at hrun
    obtain ⟨-, rfl⟩ := Prod.ext_iff.1 (Option.some.inj hrun)
    exact ScopeStore.toList_grow tree.scoping

/-- Where the scope tree is made, the report on it lists all scopes, in the order of their
numbers. -/
theorem ScopeReport.kinds_scopeTree {tree : Node} {s : ScopeStore}
    (h : scopeTree tree = some (.ok s)) :
    (ofScope s globalScope).kinds = s.scopes.toList.map Scope.kind := by
  have hlist := toList_scopeTree h
  have hsize : s.scopes.size = tree.scopes.size := by
    rw [← Array.length_toList, hlist, ScopeTree.length_layout]
  have hlists : s.Lists globalScope (tree.scopes.layout [] globalScope) := by
    intro k c hc
    rw [← hlist, Array.getElem?_toList] at hc
    rwa [show globalScope = 0 from rfl, Nat.zero_add]
  rw [hlist, ScopeTree.map_kind_layout]
  exact tree.scopes.kinds_ofScopeUpTo hlists (Nat.le_of_eq hsize.symm)

/-- Where the scope tree is made, its scopes are the global one and those that the nodes at the
places of the tree have of their own. -/
theorem perm_scopeTree {tree : Node} {s : ScopeStore} (h : scopeTree tree = some (.ok s)) :
    (s.scopes.toList.map Scope.kind).Perm
      (.global :: tree.places.flatMap fun c => c.node.shape.scopeKinds) := by
  rw [toList_scopeTree h, ← tree.map_filter_isTyped, List.flatMap_map]
  exact tree.perm_kinds_scopes globalScope

/-! ### The agreement -/

/-- The scopes of functions are as many as the places of functions. -/
theorem Node.count_function_scopeKinds (tree : Node) :
    (tree.places.flatMap fun c => c.node.shape.scopeKinds).count .function =
      tree.onward.countP (·.fallsInto .function) := by
  have hnode (n : Node) : n.shape.scopeKinds.countP (· == .function) = n.isFunction.toNat := by
    obtain ⟨shape, start, stop⟩ := n
    cases shape with
    | tryStatement block handler handlers finalizer =>
      rw [Shape.scopeKinds, List.countP_map, List.countP_eq_zero.2]
      · rfl
      · exact fun _ _ => Bool.false_ne_true
    | _ => rfl
  rw [List.count, countP_flatMap_eq fun c _ => hnode c.node, sum_map_toNat, countP_isFunction]

/-- **The reports on scopes and on counts agree.**

Where the scope tree of a tree can be made, the report on it lists one scope more than bodies are
counted, and one of a function for each function that is counted, of either type. -/
theorem ScopeReport.scopes_counted {tree : Node} {s : ScopeStore}
    (h : scopeTree tree = some (.ok s)) :
    (ofScope s globalScope).kinds = s.scopes.toList.map Scope.kind ∧
      ∃ r, StatsReport.collect tree = some (.ok r) ∧
        (ofScope s globalScope).kinds.length = 1 + r.categories.of "ScopeBody" ∧
        (ofScope s globalScope).kinds.count .function =
          r.types.of "FunctionDeclaration" + r.types.of "FunctionExpression" := by
  have hkinds := kinds_scopeTree h
  have hperm := perm_scopeTree h
  have hbodies : (StatsReport.ofTree tree).categories.of "ScopeBody" =
      tree.onward.countP (·.fallsInto .scopeBody) := StatsReport.categories_of tree .scopeBody
  refine ⟨hkinds, StatsReport.ofTree tree, StatsReport.collect_eq tree, ?_, ?_⟩
  · rw [hkinds, hperm.length_eq, List.length_cons, hbodies, tree.countP_scopeBody, Nat.add_comm]
  · rw [hkinds, hperm.count_eq, List.count_cons_of_ne (by decide), StatsReport.types_of_functions,
      tree.count_function_scopeKinds]

/-- One body is counted for each of the three scopes inside the global one, of which two are of
functions. -/
theorem ScopeReport.scopes_counted_rebinding :
    ∃ s r, scopeTree rebinding = some (.ok s) ∧ StatsReport.collect rebinding = some (.ok r) ∧
      (ofScope s globalScope).kinds = [.global, .function, .catchClause, .function] ∧
      r.categories.of "ScopeBody" = 3 ∧
      r.types.of "FunctionDeclaration" + r.types.of "FunctionExpression" = 2 := by
  obtain ⟨s, hs⟩ : ∃ s, scopeTree rebinding = some (.ok s) := ⟨_, rfl⟩
  obtain ⟨-, r, hr, hbodies, hfunctions⟩ := scopes_counted hs
  have hkinds : (ofScope s globalScope).kinds = [.global, .function, .catchClause, .function] := by
    rw [kinds_scopeTree hs, toList_scopeTree hs]
    decide
  rw [hkinds] at hbodies hfunctions
  exact ⟨s, r, hs, hr, hkinds, (Nat.add_left_cancel hbodies).symm, hfunctions.symm⟩

end TreeWalk
