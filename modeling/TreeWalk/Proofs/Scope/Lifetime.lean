/-
Which scopes are alive, and what of them a scope reaches.

A scope is alive while something on its chain is held, where its chain is the scope itself
and those it was opened inside.  So a chain splits in two: up to the last scope that is
held all are alive, and none beyond.  `living` computes the first part.  Read from a scope
that knows the rest of the chain it says one thing, `living_chain`, and the scopes above,
the parent and the depth of a scope all follow from that.

Whatever is done with scopes, a chain stays what it was when its scope was opened.  That is
what `Keeps` says of a store before and after.
-/
import TreeWalk.Proofs.Scope.Growth

namespace TreeWalk

namespace ScopeStore

variable {s : ScopeStore} {i p : ScopeId}

theorem alive_iff : s.alive i = true ↔ ∃ e ∈ i :: (s.scope i).enclosing, e ∈ s.held := by
  simp only [alive, List.any_eq_true, List.contains_iff_mem]

/-- Nothing lives of a chain of which nothing is held. -/
theorem living_eq_nil_iff {chain : List ScopeId} :
    s.living chain = [] ↔ ∀ e ∈ chain, e ∉ s.held := by
  induction chain with
  | nil => simp [living]
  | cons id around ih =>
    rw [living]
    cases hl : s.living around with
    | nil =>
      have haround := ih.1 hl
      by_cases hid : id ∈ s.held
      · simp [hid]
      · simpa [hid] using haround
    | cons e l =>
      have hsome : ¬ ∀ e ∈ around, e ∉ s.held := fun h => List.cons_ne_nil e l (hl ▸ ih.2 h)
      refine iff_of_false (List.cons_ne_nil _ _) fun h => hsome ?_
      exact fun e he => h e (List.mem_cons_of_mem _ he)

/-- **The chain of a scope that is alive lives up to where the scopes above it do; of the chain
of one that is not, nothing lives.** -/
theorem living_chain (i : ScopeId) :
    s.living (i :: (s.scope i).enclosing) = if s.alive i then i :: s.ancestors i else [] := by
  by_cases hi : s.alive i = true
  · rw [if_pos hi, living]
    cases hl : s.living (s.scope i).enclosing with
    | nil =>
      obtain ⟨e, he, hheld⟩ := alive_iff.1 hi
      rcases List.mem_cons.1 he with rfl | he
      · simp [hheld, ancestors, hl]
      · exact absurd hheld (living_eq_nil_iff.1 hl e he)
    | cons e l =>
      simp [ancestors, hl]
  · rw [if_neg hi, living_eq_nil_iff]
    exact fun e he hheld => hi (alive_iff.2 ⟨e, he, hheld⟩)

/-- Scopes that were opened inside a scope that is alive are all alive with it. -/
theorem living_append (hi : s.alive i = true) (inner : List ScopeId) :
    s.living (inner ++ i :: (s.scope i).enclosing) = inner ++ i :: s.ancestors i := by
  induction inner with
  | nil => rw [List.nil_append, living_chain, if_pos hi, List.nil_append]
  | cons e inner ih =>
    rw [List.cons_append, living, ih]
    cases inner <;> rfl

/-! ### A scope opened in another -/

section

variable (h : (s.scope i).enclosing = p :: (s.scope p).enclosing)

include h

theorem ancestors_of_opened : s.ancestors i = if s.alive p then p :: s.ancestors p else [] := by
  rw [ancestors, h, living_chain]

theorem parent?_of_opened : s.parent? i = if s.alive p then some p else none := by
  rw [parent?, ancestors_of_opened h]
  split <;> rfl

end

theorem ancestors_of_outermost (h : (s.scope i).enclosing = []) : s.ancestors i = [] := by
  rw [ancestors, h, living]

/-! ### Scopes after a change -/

theorem scope_of_size_le (h : s.scopes.size ≤ i) : s.scope i = default := by
  rw [scope, Array.getElem?_eq_none h, Option.getD_none]

theorem scope_openGlobal (s : ScopeStore) (i : ScopeId) :
    s.openGlobal.2.scope i =
      if i = s.scopes.size then ⟨.global, .empty, [], []⟩ else s.scope i := by
  simp only [scope, openGlobal, Array.getElem?_push]
  split <;> rfl

theorem scope_openChild (s : ScopeStore) (p : ScopeId) (kind : ScopeKind) (i : ScopeId) :
    (s.openChild p kind).2.scope i =
      if i = s.scopes.size then ⟨kind, .empty, p :: (s.scope p).enclosing, []⟩
      else if i = p ∧ p < s.scopes.size then
        { s.scope i with children := (s.scope i).children ++ [s.scopes.size] }
      else s.scope i := by
  simp only [scope, openChild, Array.getElem?_push, Array.size_modify, Array.getElem?_modify]
  by_cases hi : i = s.scopes.size
  · rw [if_pos hi, if_pos hi]
    rfl
  · rw [if_neg hi, if_neg hi]
    by_cases hip : i = p
    · subst hip
      by_cases hlt : i < s.scopes.size <;> simp [hlt]
    · rw [if_neg (Ne.symm hip), if_neg fun h => hip h.1]

theorem scope_declare (s : ScopeStore) (i : ScopeId) (name : String) (b : Binding) (j : ScopeId) :
    (s.declare i name b).scope j =
      if j = i ∧ i < s.scopes.size then
        { s.scope j with bindings := (s.scope j).bindings.insert name b }
      else s.scope j := by
  simp only [scope, declare, Array.getElem?_modify]
  by_cases hij : j = i
  · subst hij
    by_cases hlt : j < s.scopes.size <;> simp [hlt]
  · rw [if_neg (Ne.symm hij), if_neg fun h => hij h.1]

/-! ### What is kept -/

/-- **No scope is forgotten, and each stays of its kind and where it was opened.** -/
structure Keeps (s t : ScopeStore) : Prop where
  size : s.scopes.size ≤ t.scopes.size
  kind : ∀ i < s.scopes.size, (t.scope i).kind = (s.scope i).kind
  enclosing : ∀ i < s.scopes.size, (t.scope i).enclosing = (s.scope i).enclosing

theorem Keeps.refl (s : ScopeStore) : s.Keeps s := ⟨Nat.le_refl _, fun _ _ => rfl, fun _ _ => rfl⟩

theorem Keeps.trans {t u : ScopeStore} (hst : s.Keeps t) (htu : t.Keeps u) : s.Keeps u where
  size := Nat.le_trans hst.size htu.size
  kind i hi := (htu.kind i (Nat.lt_of_lt_of_le hi hst.size)).trans (hst.kind i hi)
  enclosing i hi := (htu.enclosing i (Nat.lt_of_lt_of_le hi hst.size)).trans (hst.enclosing i hi)

/-- A scope that is kept lives on while the same scopes are held. -/
theorem Keeps.alive {t : ScopeStore} (h : s.Keeps t) (hheld : t.held = s.held)
    (hi : i < s.scopes.size) (halive : s.alive i = true) : t.alive i = true := by
  rw [alive_iff, h.enclosing i hi, hheld]
  exact alive_iff.1 halive

/-- What is held does not matter to what is kept. -/
theorem Keeps.of_scopes_eq {t : ScopeStore} (h : t.scopes = s.scopes) : s.Keeps t := by
  have hscope (i : ScopeId) : t.scope i = s.scope i := by rw [scope, h, scope]
  refine ⟨Nat.le_of_eq (congrArg Array.size h.symm), ?_, ?_⟩ <;> exact fun i _ => by rw [hscope]

theorem keeps_openGlobal (s : ScopeStore) : s.Keeps s.openGlobal.2 := by
  refine ⟨by simp [openGlobal], ?_, ?_⟩ <;> intro i hi <;>
    rw [scope_openGlobal, if_neg (Nat.ne_of_lt hi)]

theorem keeps_openChild (s : ScopeStore) (p : ScopeId) (kind : ScopeKind) :
    s.Keeps (s.openChild p kind).2 := by
  refine ⟨s.size_openChild kind ▸ Nat.le_succ _, ?_, ?_⟩ <;> intro i hi <;>
    rw [scope_openChild, if_neg (Nat.ne_of_lt hi)] <;> split <;> rfl

theorem keeps_declare (s : ScopeStore) (i : ScopeId) (name : String) (b : Binding) :
    s.Keeps (s.declare i name b) := by
  refine ⟨s.size_declare name b ▸ Nat.le_refl _, ?_, ?_⟩ <;> intro j _ <;>
    rw [scope_declare] <;> split <;> rfl

end ScopeStore

end TreeWalk
