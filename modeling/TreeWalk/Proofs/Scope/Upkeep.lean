/-
What scope walks and programs keep true of a store.

A scope walk changes its store in two ways only: it opens a scope in another, and it
declares an identifier under its own name.  `Upkept` says of a property that both keep it,
so every walk does, wherever it starts and however it ends: `Upkept.run`.

`Linked` is such a property, and the operations of programs keep it as well: a child is
opened after its parent and goes on the chain of its parent.  So it holds of all that is
`Made`, by operations and by walks in any order.
-/
import TreeWalk.Proofs.Scope.History

namespace TreeWalk

namespace ScopeStore

/-! ### What walks keep -/

/-- A property that is kept when a scope is opened in another, and when an identifier is declared
under its own name. -/
structure Upkept (P : ScopeStore → Prop) : Prop where
  openChild : ∀ {s : ScopeStore} (p : ScopeId) (kind : ScopeKind), P s → P (s.openChild p kind).2
  declare : ∀ {s : ScopeStore} (i : ScopeId) (kind : BindingKind) {name : String} {n : Node},
    n.name? = some name → P s → P (s.declare i name ⟨kind, n⟩)

namespace Upkept

open ScopeWalk (Place)

variable {P : ScopeStore → Prop}

/-- Each event that does not fail keeps the property. -/
theorem step (h : Upkept P) {e : Event} {p p' : Place Unit}
    (hstep : ScopeWalk.step .empty p e = .ok p') (hp : P p.world.1) : P p'.world.1 := by
  cases e with
  | visits v =>
    obtain rfl := Except.ok.inj hstep
    exact hp
  | opens kind =>
    obtain rfl := Except.ok.inj hstep
    exact h.openChild _ kind hp
  | binds outside kind n role =>
    rw [ScopeWalk.step] at hstep
    cases hn : n.name? with
    | none =>
      rw [hn] at hstep
      cases hstep
    | some name =>
      rw [hn] at hstep
      obtain rfl := Except.ok.inj hstep
      exact h.declare _ kind hn hp
  | closes =>
    obtain rfl := Except.ok.inj hstep
    exact hp

/-- Events keep the property, up to the first that fails. -/
theorem perform (h : Upkept P) (es : List Event) {p : Place Unit} (hp : P p.world.1) :
    P (ScopeWalk.perform .empty es p).2.world.1 := by
  induction es generalizing p with
  | nil => exact hp
  | cons e es ih =>
    rw [ScopeWalk.perform]
    cases hstep : ScopeWalk.step .empty p e with
    | error err => exact hp
    | ok p' => exact ih (h.step hstep hp)

/-- **A scope walk keeps the property, whatever comes of it.** -/
theorem run (h : Upkept P) {tree : Node} {root : ScopeId} {s s' : ScopeStore} {r : Outcome}
    (hrun : ScopeWalk.run tree root s = some (r, s')) (hs : P s) : P s' := by
  rw [ScopeWalk.run_eq] at hrun
  obtain ⟨-, rfl⟩ := Prod.ext_iff.1 (Option.some.inj hrun)
  exact h.perform _ hs

end Upkept

/-- A scope tree is what a walk leaves of a store with one scope. -/
theorem run_of_scopeTree {tree : Node} {s : ScopeStore} (h : scopeTree tree = some (.ok s)) :
    ScopeWalk.run tree globalScope (empty.openGlobal.2.hold globalScope) = some (.ok (), s) := by
  rw [scopeTree] at h
  obtain ⟨⟨r, s'⟩, hrun, hr⟩ := Option.map_eq_some_iff.1 h
  cases r with
  | error err => cases hr
  | ok _ =>
    obtain rfl : s' = s := Except.ok.inj hr
    exact hrun

/-! ### Children and their parents -/

/-- **Children come after their parents, and lie where their parents do.** -/
structure Linked (s : ScopeStore) : Prop where
  of_opened : ∀ {p c : ScopeId}, s.Opened p c →
    p < c ∧ c < s.scopes.size ∧ (s.scope c).enclosing = p :: (s.scope p).enclosing

variable {s t : ScopeStore} {i p c : ScopeId}

namespace Linked

theorem of_scopes_eq (h : s.Linked) (hscopes : t.scopes = s.scopes) : t.Linked := by
  have hscope (i : ScopeId) : t.scope i = s.scope i := by rw [scope, hscopes, scope]
  refine ⟨fun {p c} hc => ?_⟩
  rw [Opened, children, hscope] at hc
  rw [hscope, hscope, hscopes]
  exact h.of_opened hc

theorem openGlobal (h : s.Linked) : s.openGlobal.2.Linked := by
  have hsize : s.openGlobal.2.scopes.size = s.scopes.size + 1 := by
    rw [ScopeStore.openGlobal, Array.size_push]
  refine ⟨fun {p c} hc => ?_⟩
  rw [Opened, children, scope_openGlobal] at hc
  by_cases hp : p = s.scopes.size
  · rw [if_pos hp] at hc
    exact absurd hc List.not_mem_nil
  · rw [if_neg hp] at hc
    obtain ⟨hlt, hsmall, hinner⟩ := h.of_opened hc
    rw [scope_openGlobal, scope_openGlobal, if_neg hp, if_neg (Nat.ne_of_lt hsmall), hsize]
    exact ⟨hlt, Nat.lt_succ_of_lt hsmall, hinner⟩

theorem openChild (h : s.Linked) (p : ScopeId) (kind : ScopeKind) :
    (s.openChild p kind).2.Linked := by
  have hkeeps := s.keeps_openChild p kind
  have hold {q c : ScopeId} (hq : q < s.scopes.size) (hc : s.Opened q c) :
      q < c ∧ c < (s.openChild p kind).2.scopes.size ∧
        ((s.openChild p kind).2.scope c).enclosing =
          q :: ((s.openChild p kind).2.scope q).enclosing := by
    obtain ⟨hlt, hsmall, hinner⟩ := h.of_opened hc
    rw [hkeeps.enclosing c hsmall, hkeeps.enclosing q hq]
    exact ⟨hlt, Nat.lt_of_lt_of_le hsmall hkeeps.size, hinner⟩
  refine ⟨fun {q c} hc => ?_⟩
  rw [Opened, children, scope_openChild] at hc
  by_cases hnew : q = s.scopes.size
  · rw [if_pos hnew] at hc
    exact absurd hc List.not_mem_nil
  rw [if_neg hnew] at hc
  by_cases hqp : q = p ∧ p < s.scopes.size
  · obtain ⟨rfl, hlt⟩ := hqp
    rw [if_pos ⟨rfl, hlt⟩] at hc
    rcases List.mem_append.1 hc with hc | hc
    · exact hold hlt hc
    · -- the child that was opened now
      obtain rfl := List.mem_singleton.1 hc
      refine ⟨hlt, lt_size_openChild kind, ?_⟩
      rw [hkeeps.enclosing q hlt, scope_openChild, if_pos rfl]
  · rw [if_neg hqp] at hc
    exact hold (Nat.lt_trans (h.of_opened hc).1 (h.of_opened hc).2.1) hc

theorem declare (h : s.Linked) (i : ScopeId) (name : String) (b : Binding) :
    (s.declare i name b).Linked := by
  have hchildren (j : ScopeId) : (s.declare i name b).children j = s.children j := by
    rw [children, scope_declare]
    split <;> rfl
  refine ⟨fun {p c} hc => ?_⟩
  rw [Opened, hchildren] at hc
  rw [size_declare, enclosing_declare, enclosing_declare]
  exact h.of_opened hc

theorem perform (h : s.Linked) (op : Operation) : (s.perform op).Linked := by
  cases op with
  | openGlobal => exact h.openGlobal.of_scopes_eq rfl
  | openChild p kind => exact (h.openChild p kind).of_scopes_eq rfl
  | declare i name b => exact h.declare i name b
  | take i => exact h.of_scopes_eq rfl
  | takeChildren i => exact h.of_scopes_eq (by rw [ScopeStore.perform, foldl_hold])
  | takeParent i =>
    refine h.of_scopes_eq ?_
    rw [ScopeStore.perform]
    cases s.parent? i <;> rfl
  | drop i => exact h.of_scopes_eq rfl

theorem upkept : Upkept Linked where
  openChild p kind h := h.openChild p kind
  declare i kind _ n _ h := h.declare i _ ⟨kind, n⟩

/-- A child of a scope that is alive is alive, and one deeper. -/
theorem child (h : s.Linked) (hp : s.alive p = true) (hc : s.Opened p c) :
    s.alive c = true ∧ s.depth c = s.depth p + 1 := by
  have hinner := (h.of_opened hc).2.2
  constructor
  · obtain ⟨e, he, hheld⟩ := alive_iff.1 hp
    refine alive_iff.2 ⟨e, ?_, hheld⟩
    rw [hinner]
    exact List.mem_cons_of_mem _ he
  · rw [depth, ancestors_of_opened hinner, if_pos hp, List.length_cons, depth]

end Linked

/-! ### Stores that come about -/

/-- The store is what operations of a program and scope walks, in any order, have made of the store
without scopes. -/
inductive Made : ScopeStore → Prop where
  | start : Made .empty
  | step {s : ScopeStore} {op : Operation} (h : Made s) (hop : s.Allows op) : Made (s.perform op)
  | walk {s s' : ScopeStore} {tree : Node} {root : ScopeId} {r : Outcome} (h : Made s)
    (hroot : s.alive root = true) (hrun : ScopeWalk.run tree root s = some (r, s')) : Made s'

theorem History.made {ops : List Operation} (h : History ops s) : Made s := by
  induction h with
  | start => exact .start
  | step _ hop ih => exact ih.step hop

/-- The scope tree of a tree comes about so. -/
theorem Made.of_scopeTree {tree : Node} (h : scopeTree tree = some (.ok s)) : Made s := by
  have hallows : empty.Allows .openGlobal := trivial
  have hstart : Made (empty.openGlobal.2.hold globalScope) := Made.start.step hallows
  exact hstart.walk (by decide) (run_of_scopeTree h)

theorem Made.linked (h : s.Made) : s.Linked := by
  induction h with
  | start => exact ⟨fun hc => absurd hc List.not_mem_nil⟩
  | step _ _ ih => exact ih.perform _
  | walk _ _ hrun ih => exact Linked.upkept.run hrun ih

end ScopeStore

end TreeWalk
