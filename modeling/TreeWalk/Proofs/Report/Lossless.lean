/-
What a report on scopes shows of them, and what its text shows of the report.

A report goes down the lists of children, while the depth it gives for each scope comes from
the way back up.  That the two fit together is what `Linked` is about: a child comes after its
parent, so the levels suffice, `ofScope_eq`, and a child of a scope that is alive is one deeper
than it is, so the report is `Graded`.  With that, and with names that are plain, it can be
told from its text, whichever scopes it was made of.
-/
import TreeWalk.Proofs.Report.Lines
import TreeWalk.Proofs.Scope.Upkeep

namespace TreeWalk

open ScopeStore

namespace ScopeReport

variable {s : ScopeStore} {i : ScopeId}

/-- Where the scopes have come to their end, another level changes nothing. -/
theorem ofScopeUpTo_succ (h : s.Linked) {levels : Nat} {id : ScopeId}
    (hle : s.scopes.size ≤ id + levels) :
    ofScopeUpTo s (levels + 1) id = ofScopeUpTo s levels id := by
  induction levels generalizing id with
  | zero =>
    have hnone : s.scope id = default := scope_of_size_le hle
    rw [ofScopeUpTo, ofScopeUpTo, ScopeStore.bindings, ScopeStore.children, hnone]
    rfl
  | succ levels ih =>
    have hchildren : (s.children id).map (ofScopeUpTo s (levels + 1)) =
        (s.children id).map (ofScopeUpTo s levels) := by
      refine List.map_congr_left fun c hc => ih ?_
      have hlt : id + 1 ≤ c := (h.of_opened hc).1
      calc s.scopes.size ≤ id + 1 + levels := by rwa [Nat.add_right_comm]
        _ ≤ c + levels := Nat.add_le_add_right hlt levels
    rw [ofScopeUpTo, hchildren, ← ofScopeUpTo]

/-- **A report lists a scope, its bindings and the reports on its children, each in order.** -/
theorem ofScope_eq (h : s.Linked) (i : ScopeId) :
    ofScope s i = ⟨(s.scope i).kind, s.depth i,
      (s.bindings i).map fun (name, b) => .ofBinding name b, (s.children i).map (ofScope s)⟩ :=
  (ofScopeUpTo_succ h (Nat.le_add_left ..)).symm

/-- What is listed in the report on a scope that is alive are reports on scopes inside, by their
depth. -/
theorem exists_of_shows (h : s.Linked) {levels : Nat} {r r' : ScopeReport}
    (hr : r.Shows levels r') (hi : s.alive i = true) (hri : r = ofScope s i) :
    ∃ j, r' = ofScope s j ∧ s.depth j = s.depth i + levels := by
  induction hr generalizing i with
  | here r => exact ⟨i, hri, rfl⟩
  | inside hc _ ih =>
    rw [hri, ofScope_eq h] at hc
    obtain ⟨child, hchild, rfl⟩ := List.mem_map.1 hc
    obtain ⟨halive, hdepth⟩ := h.child hi hchild
    obtain ⟨j, hj, hlevels⟩ := ih halive rfl
    exact ⟨j, hj, by rw [hlevels, hdepth, Nat.add_right_comm, Nat.add_assoc]⟩

theorem depth_ofScope (h : s.Linked) (i : ScopeId) : (ofScope s i).depth = s.depth i := by
  rw [ofScope_eq h]

theorem graded_ofScope (h : s.Linked) (hi : s.alive i = true) : (ofScope s i).Graded := by
  intro levels r hr
  obtain ⟨j, rfl, hdepth⟩ := exists_of_shows h hr hi rfl
  rw [depth_ofScope h, depth_ofScope h, hdepth]

/-- The report on a scope is plain where all that is bound in the store is. -/
theorem plain_ofScope (h : s.Linked) (hi : s.alive i = true)
    (hplain : ∀ j < s.scopes.size, ∀ e ∈ s.bindings j, (BindingReport.ofBinding e.1 e.2).Plain) :
    (ofScope s i).Plain := by
  intro levels r hr b hb
  obtain ⟨j, rfl, -⟩ := exists_of_shows h hr hi rfl
  rw [ofScope_eq h] at hb
  obtain ⟨e, he, rfl⟩ := List.mem_map.1 hb
  by_cases hj : j < s.scopes.size
  · exact hplain j hj e he
  · rw [ScopeStore.bindings, scope_of_size_le (Nat.not_lt.1 hj)] at he
    exact absurd he List.not_mem_nil

/-- What the report on a scope is. -/
structure Faithful (s : ScopeStore) (i : ScopeId) : Prop where
  /-- It lists the scope, its bindings in order and its children in order, and so do the reports on
  those. -/
  lists : ∀ j, ofScope s j = ⟨(s.scope j).kind, s.depth j,
    (s.bindings j).map fun (name, b) => .ofBinding name b, (s.children j).map (ofScope s)⟩
  /-- Each scope that is listed is deeper by as many levels as it is listed further down. -/
  graded : ∀ ⦃levels : Nat⦄ ⦃r : ScopeReport⦄, (ofScope s i).Shows levels r →
    r.depth = s.depth i + levels
  /-- What is taken off the end of the text is one line feed. -/
  trimmed : (ofScope s i).rendered = (ofScope s i).text ++ "\n"
  /-- The report can be told from the text, among the reports on all scopes that are alive. -/
  told : ∀ ⦃t : ScopeStore⦄ ⦃j : ScopeId⦄, t.Made → t.alive j = true → (ofScope s i).Plain →
    (ofScope t j).Plain → (ofScope s i).text = (ofScope t j).text → ofScope s i = ofScope t j

/-- **The report on a scope that is alive lists all that is inside, and its text is lossless.** -/
theorem faithful_ofScope (hs : s.Made) (hi : s.alive i = true) : Faithful s i where
  lists := ofScope_eq hs.linked
  graded _ _ hr := by
    rw [← depth_ofScope hs.linked]
    exact graded_ofScope hs.linked hi hr
  trimmed := rendered_eq _
  told _ _ ht hj hplain hplain' htext :=
    text_injective ⟨hplain, graded_ofScope hs.linked hi⟩
      ⟨hplain', graded_ofScope ht.linked hj⟩ htext

/-- Names that look like lines of a report: of a binding, and of a scope. -/
def disguises : List Operation :=
  [.openGlobal, .declare 0 "x (variable)" ⟨.variable, Build.ident "x (variable)"⟩,
    .openChild 0 .function, .declare 1 "function scope"
      ⟨.argument, (Build.ident "function scope").withOffsets 9 12⟩]

/-- Another way to such scopes, on which a name is bound twice and the inner scope is let go. -/
def detour : List Operation :=
  [.openGlobal, .openChild 0 .function,
    .declare 1 "function scope" ⟨.variable, Build.ident "function scope"⟩, .drop 1,
    .declare 1 "function scope" ⟨.argument, (Build.ident "function scope").withOffsets 9 12⟩,
    .declare 0 "x (variable)" ⟨.variable, Build.ident "x (variable)"⟩]

/-- Two programs that end with the same text have the same report, though not the same store. -/
theorem faithful_ofScope_disguises :
    let s := disguises.foldl perform .empty
    let t := detour.foldl perform .empty
    ScopeStore.empty.Permits disguises ∧ ScopeStore.empty.Permits detour ∧ s.held ≠ t.held ∧
      (ofScope s 0).text = "global scope\n  x (variable) (variable)\n" ++
        "  function scope\n    function scope (argument) at 9..12" ∧
      Faithful s 0 ∧ ofScope s 0 = ofScope t 0 := by
  have hpermits : ScopeStore.empty.Permits disguises := by decide
  have hpermits' : ScopeStore.empty.Permits detour := by decide
  have hmade := (History.start.append hpermits).made
  have hmade' := (History.start.append hpermits').made
  have hfaithful := faithful_ofScope hmade (i := 0) (by decide)
  have hplain := plain_ofScope hmade.linked (i := 0) (by decide) (by decide)
  have hplain' := plain_ofScope hmade'.linked (i := 0) (by decide) (by decide)
  exact ⟨hpermits, hpermits', by decide, by decide +kernel, hfaithful,
    hfaithful.told hmade' (by decide) hplain hplain' (by decide +kernel)⟩

end ScopeReport

end TreeWalk
