/-
What a scope walk leaves alone.

A scope walk changes the scope that it starts from and opens scopes inside that one.  All
other scopes are afterwards what they were.  In the scope itself nothing is lost or moved:
scopes opened there come after those that were, a name keeps its place, and what a name
stands for changes only to a variable or a function.

A walk brings to its scope what its events up to some point bring, so this is a matter of
what a `Scoping` does to a store, `frame_grow`, and of what events bind in the scope that
they start in.  They bind names there in two ways only: a variable directly, and a function
from inside the scope just opened for it.
-/
import Mathlib.Logic.Relation
import TreeWalk.Proofs.OrderedMap.Insertion
import TreeWalk.Proofs.Scope.Fault

namespace TreeWalk

/-! ### The scopes that are laid out -/

namespace ScopeStore

/-- The second scope was opened directly in the first. -/
def Opened (s : ScopeStore) (a b : ScopeId) : Prop := b ∈ s.children a

/-- The scopes listed stand in the store, from a number on. -/
def Lists (s : ScopeStore) (next : ScopeId) (cs : List Scope) : Prop :=
  ∀ k c, cs[k]? = some c → s.scopes[next + k]? = some c

namespace Lists

variable {s : ScopeStore} {next : ScopeId} {c : Scope} {as bs cs : List Scope}

theorem head (h : s.Lists next (c :: cs)) : s.scope next = c := by
  have hc : s.scopes[next]? = some c := h 0 c rfl
  rw [scope, hc, Option.getD_some]

theorem tail (h : s.Lists next (c :: cs)) : s.Lists (next + 1) cs := by
  intro k d hd
  have hk := h (k + 1) d hd
  rwa [← Nat.add_assoc, Nat.add_right_comm] at hk

theorem left (h : s.Lists next (as ++ bs)) : s.Lists next as := by
  intro k d hd
  have hk : k < as.length := (List.getElem?_eq_some_iff.1 hd).1
  exact h k d (by rw [List.getElem?_append_left hk, hd])

theorem right (h : s.Lists next (as ++ bs)) : s.Lists (next + as.length) bs := by
  intro k d hd
  rw [Nat.add_assoc]
  refine h (as.length + k) d ?_
  rw [List.getElem?_append_right (Nat.le_add_right ..), Nat.add_sub_cancel_left, hd]

end Lists

end ScopeStore

namespace ScopeTree

open Relation

variable {s : ScopeStore}

mutual
/-- All scopes of a tree that stands in a store lie inside its outermost one. -/
theorem reaches_layout {around : List ScopeId} {id : ScopeId} : (t : ScopeTree) →
    s.Lists id (t.layout around id) → ∀ {j}, id ≤ j → j < id + t.size →
      ReflTransGen s.Opened id j
  | mk kind declared opened, h, j, hle, hlt => by
    rw [layout] at h
    rw [size] at hlt
    rcases Nat.eq_or_lt_of_le hle with rfl | hinside
    · exact .refl
    · have hlast : j < id + 1 + sizeAll opened := by
        rw [Nat.add_right_comm]
        exact hlt
      obtain ⟨k, hk, hreach⟩ := reaches_layoutAll opened h.tail hinside hlast
      have hopened : s.Opened id k := by
        rw [ScopeStore.Opened, ScopeStore.children, h.head]
        exact hk
      exact .head hopened hreach
/-- All scopes of trees that stand in a store lie inside the outermost ones. -/
theorem reaches_layoutAll {around : List ScopeId} {next : ScopeId} : (ts : List ScopeTree) →
    s.Lists next (layoutAll around next ts) → ∀ {j}, next ≤ j → j < next + sizeAll ts →
      ∃ k ∈ ids next ts, ReflTransGen s.Opened k j
  | [], _, _, hle, hlt => absurd hlt (Nat.not_lt.2 hle)
  | t :: rest, h, j, hle, hlt => by
    rw [layoutAll] at h
    rw [sizeAll] at hlt
    rcases Nat.lt_or_ge j (next + t.size) with hin | hout
    · exact ⟨next, List.mem_cons_self .., reaches_layout t h.left hle hin⟩
    · have hrest := h.right
      rw [length_layout] at hrest
      rw [← Nat.add_assoc] at hlt
      obtain ⟨k, hk, hreach⟩ := reaches_layoutAll rest hrest hout hlt
      exact ⟨k, List.mem_cons_of_mem _ hk, hreach⟩
end

mutual
/-- All scopes of a tree know the scopes that it was laid out in. -/
theorem suffix_enclosing_layout {around : List ScopeId} {id : ScopeId} {c : Scope} :
    (t : ScopeTree) → c ∈ t.layout around id → around <:+ c.enclosing
  | mk kind declared opened, h => by
    rw [layout] at h
    rcases List.mem_cons.1 h with rfl | h
    · exact List.suffix_refl _
    · exact (List.suffix_cons id around).trans (suffix_enclosing_layoutAll opened h)
theorem suffix_enclosing_layoutAll {around : List ScopeId} {next : ScopeId} {c : Scope} :
    (ts : List ScopeTree) → c ∈ layoutAll around next ts → around <:+ c.enclosing
  | [], h => by cases h
  | t :: rest, h => by
    rw [layoutAll] at h
    rcases List.mem_append.1 h with h | h
    · exact suffix_enclosing_layout t h
    · exact suffix_enclosing_layoutAll rest h
end

end ScopeTree

/-! ### The frame of a scope -/

/-- How names are bound from inside a scope in the scope itself: as variables and functions. -/
def BindingKind.Ordinary (kind : BindingKind) : Prop := kind = .variable ∨ kind = .function

namespace ScopeStore

/-- **What is left alone by work in a scope**, from the store before to the store after. -/
structure Frame (s : ScopeStore) (i : ScopeId) (s' : ScopeStore) : Prop where
  held : s'.held = s.held
  /-- Other scopes stay what they were, with their bindings and the scopes opened in them. -/
  others : ∀ j < s.scopes.size, j ≠ i → s'.scope j = s.scope j
  kind : (s'.scope i).kind = (s.scope i).kind
  enclosing : (s'.scope i).enclosing = (s.scope i).enclosing
  /-- Scopes opened in the scope come after those that were there. -/
  children : s.children i <+: s'.children i
  /-- Names bound in the scope come after those that were there. -/
  names : s.names i <+: s'.names i
  /-- What a name stands for changes only to a variable or a function. -/
  bound : ∀ {name b}, s'.get? i name = some b → s.get? i name = some b ∨ b.kind.Ordinary
  /-- No scope is forgotten. -/
  size : s.scopes.size ≤ s'.scopes.size
  /-- New scopes were opened in the scope, or in one of them, and know that. -/
  created : ∀ j, s.scopes.size ≤ j → j < s'.scopes.size →
    Relation.TransGen s'.Opened i j ∧ i :: (s.scope i).enclosing <:+ (s'.scope j).enclosing

theorem Frame.refl {s : ScopeStore} {i : ScopeId} : s.Frame i s where
  held := rfl
  others _ _ _ := rfl
  kind := rfl
  enclosing := rfl
  children := List.prefix_refl _
  names := List.prefix_refl _
  bound h := .inl h
  size := Nat.le_refl _
  created _ hle hlt := absurd hlt (Nat.not_lt.2 hle)

variable {s : ScopeStore} {i : ScopeId}

theorem scope_grow_self (sc : Scoping) (h : i < s.scopes.size) :
    (s.grow i sc).scope i = sc.addTo s.scopes.size (s.scope i) := by
  have hsome : s.scopes[i]? = some s.scopes[i] := Array.getElem?_eq_getElem h
  simp [scope, grow, h, Array.getElem?_append, Array.getElem_modify]

theorem scope_grow_of_ne (sc : Scoping) {j : ScopeId} (h : j < s.scopes.size) (hne : j ≠ i) :
    (s.grow i sc).scope j = s.scope j := by
  simp [scope, grow, h, Array.getElem?_append, Array.getElem_modify, Ne.symm hne]

theorem lists_grow (sc : Scoping) : (s.grow i sc).Lists s.scopes.size
    (ScopeTree.layoutAll (i :: (s.scope i).enclosing) s.scopes.size sc.opened) := by
  intro k c hc
  simp [grow, Array.getElem?_append, hc]

/-- **What is brought to a scope leaves the rest alone.** -/
theorem frame_grow {sc : Scoping} (hi : i < s.scopes.size)
    (hsc : ∀ e ∈ sc.declared, e.2.kind.Ordinary) : s.Frame i (s.grow i sc) where
  held := rfl
  others j hj hne := scope_grow_of_ne sc hj hne
  kind := by
    rw [scope_grow_self sc hi]
    rfl
  enclosing := enclosing_grow sc hi
  children := by
    rw [children, children, scope_grow_self sc hi]
    exact List.prefix_append ..
  names := by
    rw [names, names, scope_grow_self sc hi]
    exact OrderedMap.keys_prefix_insertAll sc.declared _
  bound {name b} h := by
    rw [get?, scope_grow_self sc hi] at h
    rcases OrderedMap.mem_of_get?_insertAll h with hget | hmem
    · exact .inl hget
    · exact .inr (hsc _ hmem)
  size := by
    rw [size_grow]
    exact Nat.le_add_right ..
  created j hle hlt := by
    have hlists := lists_grow (s := s) (i := i) sc
    rw [size_grow] at hlt
    obtain ⟨k, hk, hreach⟩ := ScopeTree.reaches_layoutAll sc.opened hlists hle hlt
    have hopened : (s.grow i sc).Opened i k := by
      rw [Opened, children, scope_grow_self sc hi]
      exact List.mem_append_right _ hk
    refine ⟨.head' hopened hreach, ?_⟩
    obtain ⟨d, rfl⟩ := Nat.exists_eq_add_of_le hle
    have hd : d < (ScopeTree.layoutAll (i :: (s.scope i).enclosing) s.scopes.size
        sc.opened).length := by
      rw [ScopeTree.length_layoutAll]
      omega
    have hscope : (s.grow i sc).scope (s.scopes.size + d) = _ := congrArg (·.getD default)
      (hlists d _ (List.getElem?_eq_getElem hd))
    rw [hscope]
    exact ScopeTree.suffix_enclosing_layoutAll _ (List.getElem_mem hd)

end ScopeStore

/-! ### What events bind in the scope that they start in -/

namespace ScopeWalk

/-- What the events bind in the scope that lies so many levels out is a variable or a function. -/
def Ordinary : List Event → Nat → Prop
  | [], _ => True
  | .visits _ :: es, k => Ordinary es k
  | .opens _ :: es, k => Ordinary es (k + 1)
  | .binds outside kind _ _ :: es, k => (k = outside.toNat → kind.Ordinary) ∧ Ordinary es k
  | .closes :: es, k => Ordinary es (k - 1)

/-- What is brought to a scope is bound there. -/
theorem Ordinary.brought {es : List Event} {k : Nat} (h : Ordinary es k) :
    ∀ e ∈ (brought es k).declared, e.2.kind.Ordinary := by
  induction es generalizing k with
  | nil => simp [ScopeWalk.brought, Scoping.empty]
  | cons e es ih =>
    have hbound (kind : BindingKind) (n : Node) (hkind : kind.Ordinary)
        (hrest : ∀ e ∈ (ScopeWalk.brought es k).declared, e.2.kind.Ordinary) :
        ∀ e ∈ (Scoping.bound kind n ++ ScopeWalk.brought es k).declared, e.2.kind.Ordinary := by
      intro e he
      rcases List.mem_append.1 he with he | he
      · unfold Scoping.bound at he
        split at he
        · obtain rfl := List.mem_singleton.1 he
          exact hkind
        · cases he
      · exact hrest e he
    cases e with
    | visits v =>
      rw [ScopeWalk.brought]
      exact ih h
    | opens kind =>
      cases k with
      | zero => exact ih (k := 1) h
      | succ k => exact ih (k := k + 2) h
    | binds outside kind n role =>
      obtain ⟨hkind, hrest⟩ := h
      have hrest := ih hrest
      cases outside with
      | false =>
        cases k with
        | zero => exact hbound kind n (hkind rfl) hrest
        | succ k => exact hrest
      | true =>
        rcases k with _ | _ | k
        · exact hrest
        · exact hbound kind n (hkind rfl) hrest
        · exact hrest
    | closes =>
      cases k with
      | zero => simp [ScopeWalk.brought, Scoping.empty]
      | succ k => exact ih (k := k) h

/-- The first of some events bind what they do. -/
theorem Ordinary.of_prefix {as bs : List Event} {k : Nat} (h : Ordinary (as ++ bs) k) :
    Ordinary as k := by
  induction as generalizing k with
  | nil => trivial
  | cons e es ih =>
    cases e with
    | binds outside kind n role => exact ⟨h.1, ih h.2⟩
    | _ => exact ih h

theorem ordinary_append {as bs : List Event} {k d : Nat} (hlevel : level as k = some d)
    (has : Ordinary as k) (hbs : Ordinary bs d) : Ordinary (as ++ bs) k := by
  induction as generalizing k with
  | nil =>
    obtain rfl := Option.some.inj hlevel
    exact hbs
  | cons e es ih =>
    cases e with
    | visits v => exact ih hlevel has
    | opens kind => exact ih hlevel has
    | binds outside kind n role =>
      refine ⟨has.1, ih ?_ has.2⟩
      cases outside with
      | false => exact hlevel
      | true =>
        rw [level] at hlevel
        exact (Option.ite_none_left_eq_some.1 hlevel).2
    | closes =>
      rw [level] at hlevel
      exact ih (Option.ite_none_left_eq_some.1 hlevel).2 has

theorem ordinary_flatMap {β : Type} {f : β → List Event} {bs : List β} {k : Nat}
    (hlevel : ∀ b ∈ bs, level (f b) k = some k) (h : ∀ b ∈ bs, Ordinary (f b) k) :
    Ordinary (bs.flatMap f) k := by
  induction bs with
  | nil => trivial
  | cons b bs ih =>
    rw [List.flatMap_cons]
    refine ordinary_append (hlevel b (List.mem_cons_self ..)) (h b (List.mem_cons_self ..)) ?_
    exact ih (fun b' hb => hlevel b' (List.mem_cons_of_mem _ hb))
      fun b' hb => h b' (List.mem_cons_of_mem _ hb)

/-- Parts that keep the level and bind only what they may can be left out. -/
theorem ordinary_expand {stages : List (Stage Node)} {walk : Part Node → List Event}
    (h : ∀ p, .walks p ∈ stages → ∀ k, level (walk p) k = some k ∧ Ordinary (walk p) k) {k : Nat}
    (hown : Ordinary (stages.flatMap fun stage => stage.expand id fun _ => []) k) :
    Ordinary (stages.flatMap fun stage => stage.expand id walk) k := by
  induction stages generalizing k with
  | nil => trivial
  | cons stage rest ih =>
    have hrest := fun {k} => ih (k := k) fun p hp => h p (List.mem_cons_of_mem _ hp)
    cases stage with
    | opens kind => exact hrest hown
    | binds outside kind a role => exact ⟨hown.1, hrest hown.2⟩
    | walks p =>
      obtain ⟨hlevel, hp⟩ := h p (List.mem_cons_self ..) k
      exact ordinary_append hlevel hp (hrest hown)
    | closes => exact hrest hown

/-- A node binds variables in the scope around it, and a function its name from inside its own. -/
theorem ordinary_stages (s : Shape Node) (k : Nat) :
    Ordinary (s.stages.flatMap fun stage => stage.expand id fun _ => []) k := by
  have hwalks (ps : List (Part Node)) :
      Ordinary ((ps.map Stage.walks).flatMap fun stage => stage.expand id fun _ => []) k := by
    rw [List.flatMap_map]
    exact ordinary_flatMap (fun _ _ => rfl) fun _ _ => trivial
  have hinner : k + 1 ≠ (false).toNat := Nat.succ_ne_zero k
  cases s with
  | function form name params body =>
    have hparams : Ordinary (params.map fun a =>
        .binds false .argument a "parameter identifier") (k + 1) := by
      rw [List.map_eq_flatMap]
      exact ordinary_flatMap (fun _ _ => rfl) fun _ _ => ⟨fun hk => absurd hk hinner, trivial⟩
    have hparamsLevel : level (params.map fun a =>
        .binds false .argument a "parameter identifier") (k + 1) = some (k + 1) := by
      rw [List.map_eq_flatMap]
      exact level_flatMap (fun _ _ _ => rfl) _
    have hname : Ordinary (name.toList.map (Event.named form) ++ [.closes]) (k + 1) := by
      cases name with
      | none => trivial
      | some a =>
        cases form with
        | declaration => exact ⟨fun _ => .inr rfl, trivial⟩
        | expression => exact ⟨fun hk => absurd hk hinner, trivial⟩
    rw [Shape.events_function, List.nil_append, List.append_assoc]
    exact ordinary_append hparamsLevel hparams hname
  | tryStatement block handler handlers finalizer =>
    have hfinalizer : (Part.opt .finalizer .statement finalizer).flatMap
        (fun _ => ([] : List Event)) = [] := List.flatMap_eq_nil_iff.2 fun _ _ => rfl
    rw [Shape.events_tryStatement, List.nil_append, hfinalizer, List.append_nil]
    refine ordinary_flatMap (fun _ _ => rfl) ?_
    intro clause _
    exact ⟨fun hk => absurd hk hinner, trivial⟩
  | variableDeclaration declarations kind =>
    rw [Shape.events_variableDeclaration]
    refine ordinary_flatMap ?_ ?_
    · rintro ⟨⟨id, init⟩, i⟩ _
      cases init <;> rfl
    · rintro ⟨⟨id, init⟩, i⟩ _
      cases init <;> exact ⟨fun _ => .inl rfl, trivial⟩
  | _ => exact hwalks _

/-- **The events of a node bind variables and functions in the scope that they start in.** -/
theorem ordinary_events (c : Cursor) (role : Option Category) (k : Nat) :
    Ordinary (c.events role) k := by
  obtain ⟨n, trail⟩ := c
  induction n using Node.walked_induction generalizing trail role k with
  | step n ih =>
    have hvisits : Ordinary ((n.keysIn role).map fun key => .visits ⟨key, ⟨n, trail⟩⟩) k := by
      induction n.keysIn role with
      | nil => trivial
      | cons key keys ih => exact ih
    have hlevel : level ((n.keysIn role).map fun key => .visits ⟨key, ⟨n, trail⟩⟩) k = some k := by
      induction n.keysIn role with
      | nil => rfl
      | cons key keys ih => exact ih
    have hparts : ∀ p, .walks p ∈ n.shape.stages → ∀ k,
        level (((Cursor.mk n trail).part p).events (some p.role)) k = some k ∧
          Ordinary (((Cursor.mk n trail).part p).events (some p.role)) k := by
      intro p hp k
      have hwalked : p ∈ n.shape.walked := by
        rw [← Shape.filterMap_part?_stages]
        exact List.mem_filterMap.2 ⟨_, hp, rfl⟩
      exact ⟨level_events _ _ k, ih p hwalked (some p.role) k (p.steps ++ trail)⟩
    rw [Cursor.events_eq]
    exact ordinary_append hlevel hvisits (ordinary_expand hparts (ordinary_stages n.shape k))

/-! ### The frame of a walk -/

/-- What a walk does to its scope, finished or not, leaves the rest alone. -/
theorem frame_perform_events (c : Cursor) (role : Option Category) {s : ScopeStore} {i : ScopeId}
    (hi : i < s.scopes.size) :
    s.Frame i (perform .empty (c.events role) ⟨i, [], (s, ())⟩).2.world.1 := by
  obtain ⟨before, after, hes, -, hstore, -⟩ := perform_events c role hi
  have hall : Ordinary (before ++ after) 0 := hes ▸ ordinary_events c role 0
  rw [hstore]
  exact ScopeStore.frame_grow hi hall.of_prefix.brought

/-- What is no function is not walked in the role of one. -/
theorem walk_of_not_plays {t : Table (ScopeStore × Unit) ScopeId}
    (ht : t.Runs Category.function.name function) {c : Cursor} {role : Option Category}
    (h : ¬ c.node.Plays role) (fuel : Nat) (i : ScopeId) (m : Memory (ScopeStore × Unit)) :
    ∃ r, Walker.walk ⟨t, .silent⟩ (fuel + 1) c i role m = some (r, m) := by
  obtain ⟨rfl, hfunction⟩ := Classical.not_imp.1 h
  have hscript : function c i = (Script.malformed "function" c.node :
      Script (ScopeStore × Unit) ScopeId Unit) := by
    obtain ⟨⟨shape, start, stop⟩, trail⟩ := c
    cases shape with
    | function form id params body => exact absurd rfl hfunction
    | _ => rfl
  have hdispatch := Walker.dispatch_of_runs (w := ⟨t, .silent⟩) ht
    (Walker.walk ⟨t, .silent⟩ fuel) c i m
  rw [hscript] at hdispatch
  by_cases hf : m.found.isSome = true
  · exact ⟨.ok (), by rw [Walker.walk, if_pos hf]⟩
  · exact ⟨.error (.malformedNode "function" c.node.type), by
      rw [Walker.walk, if_neg hf]
      exact hdispatch⟩

/-- **A scope walk changes the scope that it starts from and what it opens inside, and no more.**

This is so for every node, walked in any role or in none, from any scope of a store, and
whether the walk comes to its end or fails. -/
theorem walk_frame (first : Nat) {fuel : Nat} {c : Cursor} (hfuel : 4 * c.node.height ≤ fuel)
    (role : Option Category) {i : ScopeId} {m : Memory (ScopeStore × Unit)}
    (hi : i < m.world.1.scopes.size) :
    ∃ r m', Walker.walk ⟨table first, .silent⟩ fuel c i role m = some (r, m') ∧
      m.world.1.Frame i m'.world.1 := by
  by_cases hr : c.node.Plays role
  · rw [walk_silent, walk_stages .empty (walksStages_table first) hfuel i hr, account]
    split
    · exact ⟨_, m, rfl, .refl⟩
    · exact ⟨_, _, rfl, frame_perform_events c role hi⟩
  · obtain ⟨fuel, rfl⟩ : ∃ k, fuel = k + 1 :=
      Nat.exists_eq_add_one.2 (Nat.lt_of_lt_of_le (Nat.mul_pos (by decide) c.node.height_pos) hfuel)
    obtain ⟨r, hwalk⟩ := walk_of_not_plays (runs_function first) hr fuel i m
    exact ⟨r, m, hwalk, .refl⟩

/-- A walk that fails in a scope opened inside another, where something is bound before. -/
theorem walk_frame_misnamed :
    4 * misnamed.height ≤ misnamed.walkFuel ∧ 1 < surroundings.scopes.size ∧
      ∃ r m', Walker.walk ⟨table 0, .silent⟩ misnamed.walkFuel (.root misnamed) 1
          (some .statement) (.initial (surroundings, ())) = some (r, m') ∧
        surroundings.Frame 1 m'.world.1 := by
  have hsize : 1 < surroundings.scopes.size := by decide
  refine ⟨Nat.le_refl _, hsize, ?_⟩
  exact walk_frame 0 (c := .root misnamed) (Nat.le_refl _) (some .statement)
    (m := .initial (surroundings, ())) hsize

/-- What a walk of a whole tree from a scope leaves alone. -/
theorem run_frame {tree : Node} {root : ScopeId} {s s' : ScopeStore} {r : Outcome}
    (hroot : root < s.scopes.size) (h : run tree root s = some (r, s')) : s.Frame root s' := by
  rw [run_eq] at h
  obtain ⟨-, rfl⟩ := Prod.ext_iff.1 (Option.some.inj h)
  exact frame_perform_events (.root tree) none hroot

end ScopeWalk

end TreeWalk
