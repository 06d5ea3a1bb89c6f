/-
How far a scope walk comes.

A scope walk performs its events up to the first name that is no identifier.  What it
leaves is what the events before that one brought, and at that point scopes may still be
open.  `brought` says what a list of events brings to each of the open scopes, counted from
the current one outwards, whether or not the list leaves the scopes that it opens.

Read from its end, a list of events is easy to account for: what the later events bring to
a scope that an event opens is what that scope comes with.  So one induction over the list
gives the store, `perform_grow`, and a list may be cut off anywhere.
-/
import TreeWalk.Proofs.Scope.Events
import TreeWalk.Proofs.Scope.Reference

namespace TreeWalk

/-! ### Events that fail -/

/-- How an event fails: only a name that is no identifier does. -/
def Event.fault? : Event → Option WalkError
  | .binds _ _ n role =>
    match n.name? with
    | some _ => none
    | none => some (.malformedNode role n.type)
  | _ => none

namespace ScopeWalk

variable {α : Type} {visitors : OrderedMap (Visitor (ScopeStore × α) ScopeId)}

theorem step_of_fault {e : Event} {err : WalkError} (h : e.fault? = some err) (s : Place α) :
    step visitors s e = .error err := by
  cases e with
  | binds outside kind n role =>
    rw [Event.fault?] at h
    rw [step]
    cases hn : n.name? with
    | some name => rw [hn] at h; cases h
    | none =>
      rw [hn] at h
      exact congrArg Except.error (Option.some.inj h)
  | _ => cases h

theorem exists_step_of_fault_none {e : Event} (h : e.fault? = none) (s : Place α) :
    ∃ s', step visitors s e = .ok s' := by
  cases e with
  | binds outside kind n role =>
    rw [Event.fault?] at h
    rw [step]
    cases hn : n.name? with
    | some name => exact ⟨_, rfl⟩
    | none => rw [hn] at h; cases h
  | _ => exact ⟨_, rfl⟩

/-- Events that do not fail are all performed. -/
theorem perform_of_fault_none {es : List Event} (h : ∀ e ∈ es, e.fault? = none) (s : Place α) :
    (perform visitors es s).1 = .ok () := by
  induction es generalizing s with
  | nil => rfl
  | cons e es ih =>
    obtain ⟨s', hs⟩ : ∃ s', step visitors s e = .ok s' :=
      exists_step_of_fault_none (h e (List.mem_cons_self ..)) s
    rw [perform, hs]
    exact ih (fun e' he => h e' (List.mem_cons_of_mem _ he)) s'

/-- The events before the first that fails are performed, and it is how the others fail. -/
theorem perform_of_fault {before after : List Event} {e : Event} {err : WalkError}
    (h : ∀ e ∈ before, e.fault? = none) (he : e.fault? = some err) (s : Place α) :
    perform visitors (before ++ e :: after) s =
      (.error err, (perform visitors before s).2) := by
  have hbefore : perform visitors before s = (.ok (), (perform visitors before s).2) :=
    Prod.ext (perform_of_fault_none h s) rfl
  rw [perform_append, hbefore]
  show perform visitors (e :: after) (perform visitors before s).2 = _
  rw [perform, step_of_fault he]

end ScopeWalk

/-- Either no event fails, or there is a first one that does. -/
theorem Event.fault?_cases (es : List Event) :
    (∀ e ∈ es, e.fault? = none) ∨
      ∃ before e after err, es = before ++ e :: after ∧ (∀ e ∈ before, e.fault? = none) ∧
        e.fault? = some err := by
  induction es with
  | nil => exact .inl (by simp)
  | cons e es ih =>
    cases he : e.fault? with
    | some err => exact .inr ⟨[], e, es, err, rfl, by simp, he⟩
    | none =>
      rcases ih with hall | ⟨before, e', after, err, rfl, hbefore, he'⟩
      · refine .inl ?_
        intro e' hmem
        rcases List.mem_cons.1 hmem with rfl | hmem
        · exact he
        · exact hall e' hmem
      · refine .inr ⟨e :: before, e', after, err, rfl, ?_, he'⟩
        intro d hmem
        rcases List.mem_cons.1 hmem with rfl | hmem
        · exact he
        · exact hbefore d hmem

/-! ### What events bring -/

namespace ScopeWalk

open Scoping

/-- What events bring to the scope that lies so many levels out from the current one. -/
def brought : List Event → Nat → Scoping
  | [], _ => .empty
  | .visits _ :: es, k => brought es k
  | .opens kind :: es, 0 => scope kind (brought es 0) ++ brought es 1
  | .opens _ :: es, k + 1 => brought es (k + 2)
  | .binds false kind n _ :: es, 0 => bound kind n ++ brought es 0
  | .binds false _ _ _ :: es, k + 1 => brought es (k + 1)
  | .binds true kind n _ :: es, 1 => bound kind n ++ brought es 1
  | .binds true _ _ _ :: es, k => brought es k
  | .closes :: _, 0 => .empty
  | .closes :: es, k + 1 => brought es k

end ScopeWalk

namespace ScopeStore

/-- The store with something brought to each of the scopes listed. -/
def growAll (s : ScopeStore) : List ScopeId → (Nat → Scoping) → ScopeStore
  | [], _ => s
  | i :: ids, f => (s.grow i (f 0)).growAll ids fun k => f (k + 1)

theorem growAll_empty (s : ScopeStore) (ids : List ScopeId) :
    s.growAll ids (fun _ => .empty) = s := by
  induction ids with
  | nil => rfl
  | cons i ids ih => rw [growAll, grow_empty, ih]

/-- The ids listed are those of scopes that are open inside one another. -/
structure Open (s : ScopeStore) (ids : List ScopeId) : Prop where
  nodup : ids.Nodup
  lt : ∀ i ∈ ids, i < s.scopes.size

namespace Open

variable {s : ScopeStore} {i : ScopeId} {ids : List ScopeId}

theorem openChild (h : s.Open (i :: ids)) (kind : ScopeKind) :
    (s.openChild i kind).2.Open (s.scopes.size :: i :: ids) := by
  constructor
  · refine List.nodup_cons.2 ⟨?_, h.nodup⟩
    intro hmem
    exact Nat.lt_irrefl _ (h.lt _ hmem)
  · intro j hj
    rw [size_openChild]
    rcases List.mem_cons.1 hj with rfl | hj
    · exact Nat.lt_succ_self _
    · exact Nat.lt_succ_of_lt (h.lt j hj)

theorem declare (h : s.Open ids) (j : ScopeId) (name : String) (b : Binding) :
    (s.declare j name b).Open ids := by
  refine ⟨h.nodup, ?_⟩
  intro k hk
  rw [size_declare]
  exact h.lt k hk

theorem tail (h : s.Open (i :: ids)) : s.Open ids :=
  ⟨(List.nodup_cons.1 h.nodup).2, fun j hj => h.lt j (List.mem_cons_of_mem _ hj)⟩

theorem head_lt (h : s.Open (i :: ids)) : i < s.scopes.size := h.lt i (List.mem_cons_self ..)

end Open

end ScopeStore

namespace ScopeWalk

open ScopeStore Scoping

/-- **Events that do not fail grow the open scopes by what they bring.** -/
theorem perform_grow {es : List Event} (hes : ∀ e ∈ es, e.fault? = none) {s : ScopeStore}
    {i : ScopeId} {around : List ScopeId} (hopen : s.Open (i :: around))
    (hlevel : level es around.length ≠ none) :
    (perform .empty es ⟨i, around, (s, ())⟩).2.world.1 = s.growAll (i :: around) (brought es) := by
  induction es generalizing s i around with
  | nil => exact (growAll_empty s (i :: around)).symm
  | cons e es ih =>
    have hrest := fun d hd => hes d (List.mem_cons_of_mem e hd)
    cases e with
    | visits v =>
      have hstep : step .empty ⟨i, around, (s, ())⟩ (.visits v) = .ok ⟨i, around, (s, ())⟩ := rfl
      rw [perform, hstep]
      have hsame : brought (.visits v :: es) = brought es := by
        funext k
        rw [brought]
      rw [hsame]
      exact ih hrest hopen hlevel
    | opens kind =>
      have hstep : step .empty ⟨i, around, (s, ())⟩ (.opens kind) =
          .ok ⟨s.scopes.size, i :: around, ((s.openChild i kind).2, ())⟩ := rfl
      have hinner := ih hrest (hopen.openChild kind) hlevel
      rw [perform, hstep, hinner, growAll, growAll, growAll, grow_openChild,
        grow_grow _ _ hopen.head_lt]
      rfl
    | binds outside kind n role =>
      have hfault := hes _ (List.mem_cons_self ..)
      rw [Event.fault?] at hfault
      cases hn : n.name? with
      | none => rw [hn] at hfault; cases hfault
      | some name =>
        have hbound : bound kind n = .declare name ⟨kind, n⟩ := by rw [bound, hn]
        cases outside with
        | false =>
          have hstep : step .empty ⟨i, around, (s, ())⟩ (.binds false kind n role) =
              .ok ⟨i, around, (s.declare i name ⟨kind, n⟩, ())⟩ := by
            rw [step, hn]
            rfl
          have hdeclared := ih hrest (hopen.declare i name ⟨kind, n⟩) hlevel
          rw [perform, hstep, hdeclared, growAll, growAll, declare_eq_grow,
            grow_grow _ _ hopen.head_lt, ← hbound]
          rfl
        | true =>
          cases around with
          | nil => exact absurd rfl hlevel
          | cons a around =>
            have hstep : step .empty ⟨i, a :: around, (s, ())⟩ (.binds true kind n role) =
                .ok ⟨i, a :: around, (s.declare a name ⟨kind, n⟩, ())⟩ := by
              rw [step, hn]
              rfl
            have ha : a < s.scopes.size := hopen.tail.head_lt
            have hne : a ≠ i := by
              rintro rfl
              exact (List.nodup_cons.1 hopen.nodup).1 (List.mem_cons_self ..)
            have hsize : a < (s.grow i (brought es 0)).scopes.size := by
              rw [size_grow]
              exact Nat.lt_of_lt_of_le ha (Nat.le_add_right _ _)
            have hdeclared := ih hrest (hopen.declare a name ⟨kind, n⟩) hlevel
            rw [perform, hstep, hdeclared, growAll, growAll, ← declare_grow ha hne,
              declare_eq_grow, grow_grow _ _ hsize, ← hbound]
            rfl
    | closes =>
      cases around with
      | nil => exact absurd rfl hlevel
      | cons a around =>
        have hstep : step .empty ⟨i, a :: around, (s, ())⟩ .closes =
            .ok ⟨a, around, (s, ())⟩ := rfl
        have hleft := ih hrest hopen.tail hlevel
        rw [perform, hstep, hleft]
        show _ = (s.grow i .empty).growAll (a :: around) (brought es)
        rw [grow_empty]

/-- The events of a node keep the level as far as they go. -/
theorem level_of_prefix {as bs : List Event} {d : Nat} (h : level (as ++ bs) d ≠ none) :
    level as d ≠ none := by
  intro hnone
  rw [level_append, hnone] at h
  exact h rfl

/-- What the first events of a node bring to the scope that they start in. -/
theorem perform_events_grow {c : Cursor} {role : Option Category} {before after : List Event}
    (hes : c.events role = before ++ after) (hbefore : ∀ e ∈ before, e.fault? = none)
    {s : ScopeStore} {i : ScopeId} (hi : i < s.scopes.size) :
    (perform .empty before ⟨i, [], (s, ())⟩).2.world.1 = s.grow i (brought before 0) := by
  have hopen : s.Open [i] := ⟨by simp, by simpa using hi⟩
  have hlevel : level before ([] : List ScopeId).length ≠ none := by
    have hall : level (before ++ after) 0 ≠ none := by
      rw [← hes]
      exact fun hnone => Option.some_ne_none _ ((level_events c role 0).symm.trans hnone)
    exact level_of_prefix hall
  exact perform_grow hbefore hopen hlevel

/-- **A scope walk leaves what the events before the first that fails bring.** -/
theorem perform_events (c : Cursor) (role : Option Category) {s : ScopeStore} {i : ScopeId}
    (hi : i < s.scopes.size) :
    ∃ before after, c.events role = before ++ after ∧ (∀ e ∈ before, e.fault? = none) ∧
      (perform .empty (c.events role) ⟨i, [], (s, ())⟩).2.world.1 = s.grow i (brought before 0) ∧
      (after = [] ∧ (perform .empty (c.events role) ⟨i, [], (s, ())⟩).1 = .ok () ∨
        ∃ e rest err, after = e :: rest ∧ e.fault? = some err ∧
          (perform .empty (c.events role) ⟨i, [], (s, ())⟩).1 = .error err) := by
  rcases Event.fault?_cases (c.events role) with hall | ⟨before, e, rest, err, hes, hbefore, he⟩
  · have hes : c.events role = c.events role ++ [] := (List.append_nil _).symm
    exact ⟨_, [], hes, hall, perform_events_grow hes hall hi,
      .inl ⟨rfl, perform_of_fault_none hall _⟩⟩
  · have hperform : perform .empty (c.events role) ⟨i, [], (s, ())⟩ =
        (.error err, (perform .empty before ⟨i, [], (s, ())⟩).2) := by
      rw [hes]
      exact perform_of_fault hbefore he _
    refine ⟨before, e :: rest, hes, hbefore, ?_, .inr ⟨e, rest, err, rfl, he, ?_⟩⟩
    · rw [hperform]
      exact perform_events_grow hes hbefore hi
    · rw [hperform]

end ScopeWalk

end TreeWalk
