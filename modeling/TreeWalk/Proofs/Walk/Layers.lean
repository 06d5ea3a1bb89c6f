/-
The dispatches of one node.

A node that is reached in a role is not handed to the handler of its type at once: the
entry of the role sends it on, and so does that of its type where the node is a
function.  `Node.keysIn` lists the keys it goes through on the way, the outermost first;
the last of them is `Node.innerKey`, whose handler is the one that walks the parts.

So the dispatches of one node lie inside one another like layers around that handler.
`Observer.layers` is what a walk does with them, and `walk_eq_layers` says that a walk
of a node does just that, through any table whose entries for roles and functions send
nodes on as those of the default table do.  There are at most four layers, which is
why four units of fuel for each level of a tree suffice.
-/
import TreeWalk.Proofs.OrderedMap.Insertion
import TreeWalk.Walk.Drivers

namespace TreeWalk

/-! ### What an entry of a table does -/

namespace Table

variable {ω σ : Type}

/-- What the table does under a key is the procedure. -/
def Runs (t : Table ω σ) (key : String) (p : Procedure ω σ) : Prop :=
  (t.get? key).map Handler.run = some p

theorem keys_ofProcedures (first : Nat) (ps : List (String × Procedure ω σ)) :
    (ps.mapIdx fun i (key, p) => (key, (⟨first + i, p⟩ : Handler ω σ))).map Prod.fst =
      ps.map Prod.fst := by
  refine List.ext_getElem (by simp) ?_
  intro j hj hj'
  simp

/-- A table made from procedures runs them. -/
theorem runs_ofProcedures (first : Nat) {ps : List (String × Procedure ω σ)}
    (hn : (ps.map Prod.fst).Nodup) {key : String} {p : Procedure ω σ} (h : (key, p) ∈ ps) :
    (ofProcedures first ps).Runs key p := by
  obtain ⟨i, hi, hget⟩ := List.getElem_of_mem h
  have hmem : (key, (⟨first + i, p⟩ : Handler ω σ)) ∈
      ps.mapIdx fun i (key, p) => (key, (⟨first + i, p⟩ : Handler ω σ)) := by
    rw [List.mem_mapIdx]
    exact ⟨i, hi, by rw [hget]⟩
  rw [Runs, ofProcedures, OrderedMap.get?_ofList (keys_ofProcedures first ps ▸ hn) hmem]
  rfl

/-- A table made from procedures has nothing under other keys. -/
theorem get?_ofProcedures_of_not_mem (first : Nat) {ps : List (String × Procedure ω σ)}
    {key : String} (h : key ∉ ps.map Prod.fst) : (ofProcedures first ps).get? key = none :=
  OrderedMap.get?_ofList_of_not_mem (keys_ofProcedures first ps ▸ h)

/-- Overrides run in place of what the base has under their keys. -/
theorem runs_layer {overrides base : Table ω σ} {key : String} {p q : Procedure ω σ}
    (hp : overrides.Runs key p) (hq : base.Runs key q) : (layer overrides base).Runs key p := by
  obtain ⟨g, hg, hrun⟩ := Option.map_eq_some_iff.1 hp
  obtain ⟨h, hh, -⟩ := Option.map_eq_some_iff.1 hq
  rw [Runs, get?_layer, hh, Option.map_some, hg, Option.getD_some, Option.map_some, hrun]

/-- What is not overridden runs as it does in the base. -/
theorem runs_layer_of_none {overrides base : Table ω σ} {key : String} {p : Procedure ω σ}
    (hnone : overrides.get? key = none) (hp : base.Runs key p) :
    (layer overrides base).Runs key p := by
  obtain ⟨h, hh, hrun⟩ := Option.map_eq_some_iff.1 hp
  rw [Runs, get?_layer, hh, Option.map_some, hnone, Option.getD_none, Option.map_some, hrun]

end Table

namespace Default

variable {ω σ : Type}

theorem nodup_keys_procedures : ((@procedures ω σ).map Prod.fst).Nodup := by
  have h : ((@procedures Unit Unit).map Prod.fst).Nodup := by decide
  exact h

/-- The default table runs what is listed for it. -/
theorem runs_table (first : Nat) {key : String} {p : Procedure ω σ} (h : (key, p) ∈ procedures) :
    (table first : Table ω σ).Runs key p :=
  Table.runs_ofProcedures first nodup_keys_procedures h

end Default

/-! ### Keys -/

namespace Node

/-- Whether the node is a function, as a statement or as an expression. -/
def isFunction (n : Node) : Bool :=
  match n.shape with
  | .function .. => true
  | _ => false

/-- The key whose handler walks the parts of the node. -/
def innerKey (n : Node) : String := if n.isFunction then Category.function.name else n.typeName

/-- The keys that the node goes through under its own type, the outermost first. -/
def ownKeys (n : Node) : List String :=
  if n.isFunction then [n.typeName, Category.function.name] else [n.typeName]

/-- The keys that a node reached in a role, or in none, is dispatched under, the outermost
first. -/
def keysIn (n : Node) : Option Category → List String
  | none => n.ownKeys
  | some .statement => Category.statement.name :: n.ownKeys
  | some .expression => Category.expression.name :: n.ownKeys
  | some .scopeBody => Category.scopeBody.name :: Category.statement.name :: n.ownKeys
  | some .forInit =>
    if n.isVariableDeclaration then Category.forInit.name :: n.ownKeys
    else Category.forInit.name :: Category.expression.name :: n.ownKeys
  | some .function => [Category.function.name]

/-- Whether the node can play the role: only a function plays that of functions. -/
def Plays (n : Node) (role : Option Category) : Prop :=
  role = some .function → n.isFunction = true

theorem plays_none (n : Node) : n.Plays none := fun h => nomatch h

/-- A node goes through four keys at most. -/
theorem length_keysIn (n : Node) (role : Option Category) : (n.keysIn role).length ≤ 4 := by
  have hown : n.ownKeys.length ≤ 2 := by
    rw [ownKeys]
    split <;> simp
  rcases role with _ | role
  · exact Nat.le_trans hown (by decide)
  · cases role <;> simp only [keysIn]
    case forInit => split <;> simp only [List.length_cons] <;> omega
    all_goals simp only [List.length_cons, List.length_nil]; omega

end Node

/-- The first key of a node is the one that it is dispatched under, and the others are others. -/
theorem Cursor.exists_keysIn (c : Cursor) (role : Option Category) :
    ∃ inner, c.node.keysIn role = dispatchKey c role :: inner ∧ dispatchKey c role ∉ inner := by
  have hne (k : Category) : k.name ≠ c.node.typeName := k.name_ne_typeName c.node.type
  have hown (k : Category) (hk : k ≠ .function) : k.name ∉ c.node.ownKeys := by
    have hname : k.name ≠ Category.function.name := by
      cases k <;> simp [Category.name] at hk ⊢
    unfold Node.ownKeys
    split <;> simp [hne, hname]
  match role with
  | none =>
    by_cases hf : c.node.isFunction = true
    · refine ⟨[Category.function.name], by simp [Node.keysIn, Node.ownKeys, hf, dispatchKey], ?_⟩
      simpa [dispatchKey] using (hne .function).symm
    · exact ⟨[], by simp [Node.keysIn, Node.ownKeys, hf, dispatchKey], by simp⟩
  | some .statement => exact ⟨c.node.ownKeys, rfl, hown .statement (by decide)⟩
  | some .expression => exact ⟨c.node.ownKeys, rfl, hown .expression (by decide)⟩
  | some .scopeBody =>
    refine ⟨Category.statement.name :: c.node.ownKeys, rfl, ?_⟩
    have hstatement : Category.scopeBody.name ≠ Category.statement.name := by decide
    rw [List.mem_cons, not_or]
    exact ⟨hstatement, hown .scopeBody (by decide)⟩
  | some .forInit =>
    by_cases hv : c.node.isVariableDeclaration = true
    · exact ⟨c.node.ownKeys, by simp [Node.keysIn, hv, dispatchKey], hown .forInit (by decide)⟩
    · refine ⟨Category.expression.name :: c.node.ownKeys,
        by simp [Node.keysIn, hv, dispatchKey], ?_⟩
      have hexpression : Category.forInit.name ≠ Category.expression.name := by decide
      rw [List.mem_cons, not_or]
      exact ⟨hexpression, hown .forInit (by decide)⟩
  | some .function => exact ⟨[], rfl, by simp⟩

/-! ### Layers -/

namespace Observer

variable {ω σ : Type}

/-- What a walk does around each of the keys, with the dispatch under the last inside. -/
def layers (obs : Observer ω σ) (c : Cursor) (st : σ) (inner : Memory ω → Run ω Unit) :
    List String → Memory ω → Run ω Unit
  | [], m => inner m
  | key :: keys, m =>
    if m.found.isSome then some (.ok (), m)
    else obs.surround key c st (layers obs c st inner keys) m

end Observer

/-- The entries for roles and for functions send a node on as those of the default table do. -/
structure Table.Redirects {ω σ : Type} (t : Table ω σ) : Prop where
  statement : t.Runs Category.statement.name Default.ownType
  expression : t.Runs Category.expression.name Default.ownType
  scopeBody : t.Runs Category.scopeBody.name Default.scopeBody
  forInit : t.Runs Category.forInit.name Default.forInit
  functionDeclaration : t.Runs NodeType.functionDeclaration.name Default.asFunction
  functionExpression : t.Runs NodeType.functionExpression.name Default.asFunction

/-- The keys of the entries that send a node on. -/
def Table.redirecting : List String :=
  [Category.statement.name, Category.expression.name, Category.scopeBody.name,
    Category.forInit.name, NodeType.functionDeclaration.name, NodeType.functionExpression.name]

/-- Nodes are sent on as before where none of the entries that do so is overridden. -/
theorem Table.Redirects.layer {ω σ : Type} {overrides base : Table ω σ} (h : base.Redirects)
    (hnone : ∀ key ∈ redirecting, overrides.get? key = none) :
    (layer overrides base).Redirects where
  statement := runs_layer_of_none (hnone _ (by simp [redirecting])) h.statement
  expression := runs_layer_of_none (hnone _ (by simp [redirecting])) h.expression
  scopeBody := runs_layer_of_none (hnone _ (by simp [redirecting])) h.scopeBody
  forInit := runs_layer_of_none (hnone _ (by simp [redirecting])) h.forInit
  functionDeclaration :=
    runs_layer_of_none (hnone _ (by simp [redirecting])) h.functionDeclaration
  functionExpression :=
    runs_layer_of_none (hnone _ (by simp [redirecting])) h.functionExpression

/-- The default table sends nodes on as it does. -/
theorem Default.redirects_table {ω σ : Type} (first : Nat) :
    (Default.table first : Table ω σ).Redirects where
  statement := runs_table first (by simp [procedures, Category.name])
  expression := runs_table first (by simp [procedures, Category.name])
  scopeBody := runs_table first (by simp [procedures, Category.name])
  forInit := runs_table first (by simp [procedures, Category.name])
  functionDeclaration := runs_table first (by simp [procedures, NodeType.name])
  functionExpression := runs_table first (by simp [procedures, NodeType.name])

namespace Walker

variable {ω σ : Type} {w : Walker ω σ}

/-- A dispatch runs what the table does under the key. -/
theorem dispatch_of_runs {key : String} {p : Procedure ω σ} (h : w.table.Runs key p)
    (walk : Cursor → σ → Option Category → Memory ω → Run ω Unit) (c : Cursor) (st : σ)
    (m : Memory ω) : w.dispatch walk key c st m = (p c st).exec walk w.table.keys m := by
  obtain ⟨handler, hget, rfl⟩ := Option.map_eq_some_iff.1 h
  rw [dispatch, hget]

/-- A walk adds a layer where the node is sent on. -/
theorem walk_of_redirect {c : Cursor} (role : Option Category) {next : Option Category}
    {p : Procedure ω σ} (h : w.table.Runs (dispatchKey c role) p) {st : σ}
    (hp : p c st = .go c st next) {fuel : Nat} {inner : Memory ω → Run ω Unit} {keys : List String}
    (hw : w.walk fuel c st next = w.observer.layers c st inner keys) :
    w.walk (fuel + 1) c st role =
      w.observer.layers c st inner (dispatchKey c role :: keys) := by
  funext m
  have hd : w.dispatch (w.walk fuel) (dispatchKey c role) c st =
      w.observer.layers c st inner keys := by
    funext m
    rw [dispatch_of_runs h, hp, Script.exec_go, hw]
  simp only [walk, Observer.layers, hd]

/-- The innermost layer is the dispatch itself. -/
theorem walk_single (c : Cursor) (role : Option Category) (fuel : Nat) (st : σ) :
    w.walk (fuel + 1) c st role =
      w.observer.layers c st (w.dispatch (w.walk fuel) (dispatchKey c role) c st)
        [dispatchKey c role] := by
  funext m
  simp only [walk, Observer.layers]

theorem walk_own (h : w.table.Redirects) (c : Cursor) (fuel : Nat) (st : σ) :
    w.walk (fuel + c.node.ownKeys.length) c st none =
      w.observer.layers c st (w.dispatch (w.walk fuel) c.node.innerKey c st) c.node.ownKeys := by
  by_cases hf : c.node.isFunction = true
  · have hrun : w.table.Runs (dispatchKey c none) Default.asFunction := by
      obtain ⟨⟨shape, start, stop⟩, trail⟩ := c
      cases shape <;> try cases hf
      case function form id params body =>
        cases form
        · exact h.functionDeclaration
        · exact h.functionExpression
    rw [Node.ownKeys, Node.innerKey, if_pos hf, if_pos hf]
    exact walk_of_redirect none hrun rfl (walk_single c (some .function) fuel st)
  · rw [Node.ownKeys, Node.innerKey, if_neg hf, if_neg hf]
    exact walk_single c none fuel st

/-- **The dispatches of one node are layers around the one under its inner key.** -/
theorem walk_eq_layers (h : w.table.Redirects) {c : Cursor} {role : Option Category}
    (hr : c.node.Plays role) (fuel : Nat) (st : σ) :
    w.walk (fuel + (c.node.keysIn role).length) c st role =
      w.observer.layers c st (w.dispatch (w.walk fuel) c.node.innerKey c st)
        (c.node.keysIn role) := by
  have hown := walk_own h c fuel st
  have hstatement := walk_of_redirect (some .statement) h.statement rfl hown
  have hexpression := walk_of_redirect (some .expression) h.expression rfl hown
  match role with
  | none => exact hown
  | some .statement => exact hstatement
  | some .expression => exact hexpression
  | some .scopeBody => exact walk_of_redirect (some .scopeBody) h.scopeBody rfl hstatement
  | some .forInit =>
    rw [Node.keysIn]
    by_cases hv : c.node.isVariableDeclaration = true
    · rw [if_pos hv]
      exact walk_of_redirect (some .forInit) h.forInit (by rw [Default.forInit, if_pos hv]) hown
    · rw [if_neg hv]
      exact walk_of_redirect (some .forInit) h.forInit (by rw [Default.forInit, if_neg hv])
        hexpression
  | some .function =>
    rw [Node.innerKey, if_pos (hr rfl)]
    exact walk_single c (some .function) fuel st

end Walker

end TreeWalk
