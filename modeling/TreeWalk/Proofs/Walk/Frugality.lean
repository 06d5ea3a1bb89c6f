/-
Handlers that walk nothing twice.

A handler of the default table sends the node on in its next role, or it walks the parts: in
either case what it asks for is listed beforehand, by `Arrival.next`.  A table is frugal if the
walks that its handlers ask for are always among those listed, in that order and none of them
twice.  Scope walks have handlers of their own, and they are frugal too.

An override that walks nothing, or does no more than call the handler that it replaces, leaves
a table frugal.  `Table.Modest` are the tables that come about in this way, layer on layer.
-/
import TreeWalk.Proofs.Scope.Stages
import TreeWalk.Proofs.Walk.Arrivals

namespace TreeWalk

variable {ω σ α β : Type}

/-! ### What is asked for, and how often -/

namespace Script

/-- The walks that the script asks for are among the given ones, in their order and each at most
as often as it is given. -/
def AsksFrom : Script ω σ α → List Arrival → Prop
  | done _, _ => True
  | read next, as => ∀ w, (next w).AsksFrom as
  | write _ next, as => next.AsksFrom as
  | keys next, as => ∀ ks, (next ks).AsksFrom as
  | walk c _ role next, as =>
    ∃ rest, (⟨c, role⟩ :: rest).Sublist as ∧ ∀ r, (next r).AsksFrom rest

/-- The script asks for no walk. -/
abbrev Idle (s : Script ω σ α) : Prop := s.AsksFrom []

variable {as bs : List Arrival} {s : Script ω σ α}

theorem AsksFrom.mono (h : s.AsksFrom as) (hsub : as.Sublist bs) : s.AsksFrom bs := by
  induction s with
  | done r => trivial
  | read next ih => exact fun w => ih w (h w)
  | write w next ih => exact ih h
  | keys next ih => exact fun ks => ih ks (h ks)
  | walk c st role next ih =>
    obtain ⟨rest, hrest, hnext⟩ := h
    exact ⟨rest, hrest.trans hsub, hnext⟩

theorem AsksFrom.bind {f : α → Script ω σ β} (hs : s.AsksFrom as) (hf : ∀ a, (f a).AsksFrom bs) :
    (s.bind f).AsksFrom (as ++ bs) := by
  induction s generalizing as with
  | done r =>
    cases r with
    | error e => trivial
    | ok a => exact (hf a).mono (List.sublist_append_right as bs)
  | read next ih => exact fun w => ih w (hs w)
  | write w next ih => exact ih hs
  | keys next ih => exact fun ks => ih ks (hs ks)
  | walk c st role next ih =>
    obtain ⟨rest, hrest, hnext⟩ := hs
    exact ⟨rest ++ bs, hrest.append_right bs, fun r => ih r (hnext r)⟩

/-- Trying a script asks for what it asks for. -/
theorem AsksFrom.attempt (h : s.AsksFrom as) : s.attempt.AsksFrom as := by
  induction s generalizing as with
  | done r => trivial
  | read next ih => exact fun w => ih w (h w)
  | write w next ih => exact ih h
  | keys next ih => exact fun ks => ih ks (h ks)
  | walk c st role next ih =>
    obtain ⟨rest, hrest, hnext⟩ := h
    exact ⟨rest, hrest, fun r => ih r (hnext r)⟩

theorem asksFrom_go (c : Cursor) (st : σ) (role : Option Category) :
    (go (ω := ω) c st role).AsksFrom [⟨c, role⟩] :=
  ⟨[], List.Sublist.refl _, fun _ => trivial⟩

/-- Walking parts asks for each of them once. -/
theorem asksFrom_goParts (c : Cursor) (st : σ) (ps : List (Part Node)) :
    (goParts (ω := ω) c st ps).AsksFrom (ps.map fun p => ⟨c.part p, some p.role⟩) := by
  induction ps with
  | nil => trivial
  | cons p rest ih => exact (asksFrom_go (c.part p) st (some p.role)).bind fun _ => ih

end Script

/-- Going through stages asks for each part that is walked once. -/
theorem ScopeWalk.asksFrom_goStages (c : Cursor) (stages : List (Stage Node)) (scope : ScopeId)
    (around : List ScopeId) :
    (goStages (α := α) c stages scope around).AsksFrom
      ((stages.filterMap Stage.part?).map fun p => ⟨c.part p, some p.role⟩) := by
  induction stages generalizing scope around with
  | nil => trivial
  | cons stage rest ih =>
    cases stage with
    | opens kind =>
      have hopen : (openScope (α := α) scope kind).Idle := fun _ => trivial
      exact hopen.bind fun inner => ih inner (scope :: around)
    | binds outside kind n role =>
      have hbind (s : ScopeId) : (bindName (α := α) s n kind role).Idle := by
        unfold bindName
        split
        · exact fun _ => trivial
        · trivial
      exact (hbind _).bind fun _ => ih scope around
    | walks p =>
      have hp := Script.asksFrom_go (ω := ScopeStore × α) (c.part p) scope (some p.role)
      exact hp.bind fun _ => ih scope around
    | closes => exact ih _ _

/-! ### What a node is walked on as -/

namespace Arrival

/-- The key that the node is dispatched under first. -/
def key (a : Arrival) : String := dispatchKey a.cursor a.role

/-- What the handler of that key walks: the node in its next role, or the parts. -/
def next (a : Arrival) : List Arrival :=
  match a.role with
  | none => if a.cursor.node.isFunction then [⟨a.cursor, some .function⟩] else a.parts
  | some .statement => [⟨a.cursor, none⟩]
  | some .expression => [⟨a.cursor, none⟩]
  | some .scopeBody => [⟨a.cursor, some .statement⟩]
  | some .forInit =>
    if a.cursor.node.isVariableDeclaration then [⟨a.cursor, none⟩]
    else [⟨a.cursor, some .expression⟩]
  | some .function => a.parts

/-- A node is sent on with one key less, or its parts are walked under its last key. -/
theorem next_cases (a : Arrival) :
    (∃ role, a.next = [⟨a.cursor, role⟩] ∧ a.keys = a.key :: a.cursor.node.keysIn role) ∨
      (a.next = a.parts ∧ a.keys = [a.key]) := by
  obtain ⟨c, role⟩ := a
  match role with
  | none =>
    by_cases hf : c.node.isFunction = true
    · refine .inl ⟨some .function, if_pos hf, ?_⟩
      show c.node.ownKeys = _
      rw [Node.ownKeys, if_pos hf]
      rfl
    · refine .inr ⟨if_neg hf, ?_⟩
      show c.node.ownKeys = _
      rw [Node.ownKeys, if_neg hf]
      rfl
  | some .statement => exact .inl ⟨none, rfl, rfl⟩
  | some .expression => exact .inl ⟨none, rfl, rfl⟩
  | some .scopeBody => exact .inl ⟨some .statement, rfl, rfl⟩
  | some .forInit =>
    by_cases hv : c.node.isVariableDeclaration = true
    · exact .inl ⟨none, if_pos hv, if_pos hv⟩
    · exact .inl ⟨some .expression, if_neg hv, if_neg hv⟩
  | some .function => exact .inr ⟨rfl, rfl⟩

/-- A node goes through no key twice. -/
theorem nodup_keys (a : Arrival) : a.keys.Nodup := by
  induction hlength : a.keys.length generalizing a with
  | zero =>
    rw [List.length_eq_zero_iff.1 hlength]
    exact List.nodup_nil
  | succ k ih =>
    rcases a.next_cases with ⟨role, -, hkeys⟩ | ⟨-, hkeys⟩
    · obtain ⟨inner, hinner, hnot⟩ := a.cursor.exists_keysIn a.role
      have hrest : a.cursor.node.keysIn role = inner :=
        (List.cons.inj (hkeys.symm.trans hinner)).2
      rw [hkeys, List.nodup_cons, hrest]
      refine ⟨hnot, ?_⟩
      rw [hkeys, List.length_cons] at hlength
      exact hrest ▸ ih ⟨a.cursor, role⟩ (Nat.succ.inj hlength)
    · rw [hkeys]
      exact List.pairwise_singleton _ _

/-- **The visits are the first dispatch and those of what is walked on.** -/
theorem visits_eq_next (a : Arrival) :
    a.visits = ⟨a.key, a.cursor⟩ :: a.next.flatMap visits := by
  rw [visits, Cursor.visits_eq]
  rcases a.next_cases with ⟨role, hnext, hkeys⟩ | ⟨hnext, hkeys⟩
  · rw [show a.cursor.node.keysIn a.role = _ from hkeys, hnext, List.flatMap_singleton, visits,
      Cursor.visits_eq]
    rfl
  · rw [show a.cursor.node.keysIn a.role = _ from hkeys, hnext, parts, List.flatMap_map]
    rfl

end Arrival

/-! ### Frugal tables -/

namespace Table

/-- The handlers ask for no more than what a node is walked on as. -/
def Frugal (t : Table ω σ) : Prop :=
  ∀ (a : Arrival) h, t.get? a.key = some h → ∀ st, (h.run a.cursor st).AsksFrom a.next

/-- What is run under a key is what the handler of the key does. -/
theorem Runs.eq_of_get? {t : Table ω σ} {key : String} {p : Procedure ω σ} (hp : t.Runs key p)
    {h : Handler ω σ} (hget : t.get? key = some h) : h.run = p := by
  rw [Runs, hget] at hp
  exact Option.some.inj hp

/-- A table that sends nodes on as the default table does is frugal if the handlers of inner keys
walk no part twice, and that of functions nothing where the node is none. -/
theorem Redirects.frugal {t : Table ω σ} (ht : t.Redirects)
    (hinner : ∀ c : Cursor, ∃ p, t.Runs c.node.innerKey p ∧
      ∀ role st, (p c st).AsksFrom (Arrival.mk c role).parts)
    {function : Procedure ω σ} (hfunction : t.Runs Category.function.name function)
    (hmalformed : ∀ c st, c.node.isFunction = false → (function c st).Idle) : t.Frugal := by
  rintro ⟨c, role⟩ h hget st
  obtain ⟨inner, hruns, hparts⟩ := hinner c
  match role with
  | none =>
    by_cases hf : c.node.isFunction = true
    · have hrun : t.Runs (dispatchKey c none) Default.asFunction := by
        obtain ⟨⟨shape, start, stop⟩, trail⟩ := c
        cases shape <;> try cases hf
        case function form id params body =>
          cases form
          · exact ht.functionDeclaration
          · exact ht.functionExpression
      rw [hrun.eq_of_get? hget, Arrival.next, if_pos hf]
      exact Script.asksFrom_go c st (some .function)
    · have hkey : c.node.innerKey = dispatchKey c none := if_neg hf
      rw [hkey] at hruns
      rw [hruns.eq_of_get? hget, Arrival.next, if_neg hf]
      exact hparts none st
  | some .statement =>
    rw [ht.statement.eq_of_get? hget]
    exact Script.asksFrom_go c st none
  | some .expression =>
    rw [ht.expression.eq_of_get? hget]
    exact Script.asksFrom_go c st none
  | some .scopeBody =>
    rw [ht.scopeBody.eq_of_get? hget]
    exact Script.asksFrom_go c st (some .statement)
  | some .forInit =>
    rw [ht.forInit.eq_of_get? hget, Default.forInit, Arrival.next]
    by_cases hv : c.node.isVariableDeclaration = true
    · rw [if_pos hv, if_pos hv]
      exact Script.asksFrom_go c st none
    · rw [if_neg hv, if_neg hv]
      exact Script.asksFrom_go c st (some .expression)
  | some .function =>
    by_cases hf : c.node.isFunction = true
    · have hkey : c.node.innerKey = dispatchKey c (some .function) := if_pos hf
      rw [hkey] at hruns
      rw [hruns.eq_of_get? hget]
      exact hparts (some .function) st
    · rw [hfunction.eq_of_get? hget]
      exact (hmalformed c st (by simpa using hf)).mono (List.nil_sublist _)

end Table

/-- The default table is frugal. -/
theorem Default.frugal_table (first : Nat) : (table first : Table ω σ).Frugal := by
  have hmem : (Category.function.name, function) ∈ @procedures ω σ := by
    simp [procedures, Category.name]
  refine (redirects_table first).frugal ?_ (runs_table first hmem) ?_
  · intro c
    obtain ⟨p, hp, hparts⟩ := (walksParts_table first).inner c
    refine ⟨p, hp, ?_⟩
    intro role st
    rw [hparts]
    exact Script.asksFrom_goParts c st c.node.shape.walked
  · intro c st hf
    unfold function
    split
    · simp [Node.isFunction, *] at hf
    · trivial

/-- The table of scope walks is frugal. -/
theorem ScopeWalk.frugal_table (first : Nat) :
    (table first : Table (ScopeStore × α) ScopeId).Frugal := by
  refine (walksStages_table first).toRedirects.frugal ?_ (runs_function first) ?_
  · intro c
    obtain ⟨p, hp, hstages⟩ := (walksStages_table first).inner c
    refine ⟨p, hp, ?_⟩
    intro role st
    rw [hstages, Arrival.parts, ← Shape.filterMap_part?_stages]
    exact asksFrom_goStages c c.node.shape.stages st []
  · intro c st hf
    unfold function
    split
    · simp [Node.isFunction, *] at hf
    · trivial

/-! ### Overrides that leave the walking to what they replace -/

/-- Whenever it is called, the first handler asks for no walk, or it calls the second one once, with
the same node and state, and asks for no walk before or after. -/
def Handler.Defers (h g : Handler ω σ) : Prop :=
  ∀ c st, (h.run c st).Idle ∨
    ∃ (before : Script ω σ Unit) (after : Except WalkError Unit → Script ω σ Unit),
      before.Idle ∧ (∀ r, (after r).Idle) ∧
        h.run c st = do before; let r ← (g.run c st).attempt; after r

/-- A handler that never asks for a walk defers to any. -/
theorem Handler.Defers.of_idle {h : Handler ω σ} (hidle : ∀ c st, (h.run c st).Idle)
    (g : Handler ω σ) : h.Defers g := fun c st => .inl (hidle c st)

/-- What comes of a script that is tried is what the script comes to. -/
theorem Script.attempt_bind_done (s : Script ω σ α) : (s.attempt.bind fun r => done r) = s := by
  induction s with
  | done r => rfl
  | read next ih => exact congrArg read (funext ih)
  | write w next ih => exact congrArg (write w) ih
  | keys next ih => exact congrArg keys (funext ih)
  | walk c st role next ih => exact congrArg (walk c st role) (funext ih)

/-- A handler that does nothing but call another defers to it. -/
theorem Handler.Defers.of_run_eq {h g : Handler ω σ} (hrun : h.run = g.run) : h.Defers g := by
  intro c st
  refine .inr ⟨pure (), .done, trivial, fun _ => trivial, ?_⟩
  rw [hrun]
  exact (g.run c st).attempt_bind_done.symm

/-- Overrides that defer to what they replace leave a table frugal. -/
theorem Table.Frugal.layer {overrides base : Table ω σ} (hbase : base.Frugal)
    (hdefers : ∀ key g h, base.get? key = some g → overrides.get? key = some h → h.Defers g) :
    (layer overrides base).Frugal := by
  intro a h hget st
  rw [get?_layer] at hget
  obtain ⟨g, hg, rfl⟩ := Option.map_eq_some_iff.1 hget
  have hasks := hbase a g hg st
  cases hover : overrides.get? a.key with
  | none => exact hasks
  | some h =>
    rcases hdefers a.key g h hg hover a.cursor st with hidle | ⟨before, after, hb, ha, hrun⟩
    · exact hidle.mono (List.nil_sublist _)
    · rw [Option.getD_some, hrun]
      have hafter := hasks.attempt.bind ha
      rw [List.append_nil] at hafter
      exact hb.bind fun _ => hafter

/-- A table made from that of default walks or that of scope walks, by overrides each of which
defers to the handler that it replaces. -/
inductive Table.Modest : {ω σ : Type} → Table ω σ → Prop
  | default {ω σ : Type} (first : Nat) : Modest (Default.table first : Table ω σ)
  | scopes {α : Type} (first : Nat) :
    Modest (ScopeWalk.table first : Table (ScopeStore × α) ScopeId)
  | layer {ω σ : Type} {overrides base : Table ω σ} (hbase : Modest base)
    (hdefers : ∀ key g h, base.get? key = some g → overrides.get? key = some h → h.Defers g) :
    Modest (layer overrides base)

/-- Such a table is frugal. -/
theorem Table.Modest.frugal {t : Table ω σ} (h : t.Modest) : t.Frugal := by
  induction h with
  | default first => exact Default.frugal_table first
  | scopes first => exact ScopeWalk.frugal_table first
  | layer hbase hdefers ih => exact ih.layer hdefers

/-- The default table has a handler for each type and each category. -/
theorem Default.mem_keys_table (first : Nat) {key : String} (h : key ∈ StatsReport.keys) :
    key ∈ (table first : Table ω σ).keys := by
  have hsubset : StatsReport.keys ⊆ (procedures : List (String × Procedure ω σ)).map Prod.fst := by
    have h : StatsReport.keys ⊆ (@procedures Unit Unit).map Prod.fst := by decide
    exact h
  obtain ⟨⟨key, p⟩, hmem, rfl⟩ := List.mem_map.1 (hsubset h)
  obtain ⟨g, hget, -⟩ := Option.map_eq_some_iff.1 (runs_table first hmem)
  exact (OrderedMap.mem_keys_iff _ key).2 ⟨g, hget⟩

/-- Such a table has a handler for each key that nodes are dispatched under. -/
theorem Table.Modest.dispatchKey_mem {t : Table ω σ} (h : t.Modest) (c : Cursor)
    (role : Option Category) : dispatchKey c role ∈ t.keys := by
  have hkey : dispatchKey c role ∈ StatsReport.keys := by
    obtain ⟨inner, hinner, -⟩ := c.exists_keysIn role
    exact c.node.keysIn_subset role (hinner ▸ List.mem_cons_self)
  induction h with
  | default first => exact Default.mem_keys_table first hkey
  | scopes first =>
    rw [ScopeWalk.table, keys_layer]
    exact Default.mem_keys_table first hkey
  | layer hbase hdefers ih =>
    rw [keys_layer]
    exact ih

end TreeWalk
