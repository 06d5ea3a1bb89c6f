/-
A walk is what it does at each node.

What a walk makes of a node is layers around its inner handler, and that handler asks
for nothing but walks of the node's parts.  Parts are lower than the node, so an account
of a walk that is right at each node, given that it is right at the parts, is right
altogether: `walk_eq_of_layers`.  The induction over trees is made here once, for every
table that walks the parts and every observer, and the fuel is left behind with it.
Elsewhere a walk is accounted for one node at a time.

Through the default table no walk fails, so there an account need only say what becomes
of the memory: `walk_eq_of_parts`.
-/
import TreeWalk.Proofs.Walk.Handlers

namespace TreeWalk

/-! ### What a script asks for -/

namespace Script

variable {ω σ α β : Type} {P : Cursor → Option Category → Prop}

/-- Every walk that the script may ask for is among those allowed. -/
def Asks (P : Cursor → Option Category → Prop) : Script ω σ α → Prop
  | done _ => True
  | read next => ∀ w, (next w).Asks P
  | write _ next => next.Asks P
  | keys next => ∀ ks, (next ks).Asks P
  | walk c _ role next => P c role ∧ ∀ r, (next r).Asks P

theorem Asks.bind {s : Script ω σ α} {f : α → Script ω σ β} (hs : s.Asks P)
    (hf : ∀ a, (f a).Asks P) : (s.bind f).Asks P := by
  induction s with
  | done r =>
    rcases r with e | a
    · trivial
    · exact hf a
  | read next ih => exact fun w => ih w (hs w)
  | write w next ih => exact ih hs
  | keys next ih => exact fun ks => ih ks (hs ks)
  | walk c st role next ih => exact ⟨hs.1, fun r => ih r (hs.2 r)⟩

/-- A script that asks only for walks that two accounts agree on runs the same with both. -/
theorem exec_congr {walk walk' : Cursor → σ → Option Category → Memory ω → Run ω Unit}
    {keys : List String} (h : ∀ c st role, P c role → walk c st role = walk' c st role)
    {s : Script ω σ α} (hs : s.Asks P) (m : Memory ω) :
    s.exec walk keys m = s.exec walk' keys m := by
  induction s generalizing m with
  | done r => rfl
  | read next ih => exact ih m.world (hs m.world) m
  | write w next ih => exact ih hs _
  | keys next ih => exact ih keys (hs keys) m
  | walk c st role next ih =>
    rw [exec, exec, h c st role hs.1]
    cases walk' c st role m with
    | none => rfl
    | some p => exact ih p.1 (hs.2 p.1) p.2

end Script

/-! ### Tables that walk the parts -/

/-- The walk of a part under its role. -/
def Cursor.IsPart (c d : Cursor) (role : Option Category) : Prop :=
  ∃ p ∈ c.node.shape.walked, d = c.part p ∧ role = some p.role

/-- No part plays the role of functions: only the entries of the function types do that. -/
theorem Shape.role_ne_function {α : Type} {s : Shape α} {p : Part α} (h : p ∈ s.walked) :
    p.role ≠ .function := by
  cases s <;> simp [walked, Part.mem_opt, Part.mem_inEach, Part.mem_each] at h <;>
    grind [Part.one, Part.under, Part.mem_inEach, Part.mem_opt, Part.mem_each]

/-- A part can play its role. -/
theorem Cursor.IsPart.plays {c d : Cursor} {role : Option Category} (h : c.IsPart d role) :
    d.node.Plays role := by
  obtain ⟨p, hp, rfl, rfl⟩ := h
  intro hrole
  exact absurd (Option.some.inj hrole) (Shape.role_ne_function hp)

/-- The table sends nodes on as the default table does, and the handler of a node's inner key
asks for nothing but walks of the parts. -/
structure Table.Descends {ω σ : Type} (t : Table ω σ) : Prop extends Table.Redirects t where
  inner : ∀ c : Cursor, ∃ p, t.Runs c.node.innerKey p ∧ ∀ st, (p c st).Asks c.IsPart

/-- Walking parts asks for walks of them. -/
theorem Script.asks_goParts {ω σ : Type} {c : Cursor} (st : σ) {ps : List (Part Node)}
    (h : ∀ p ∈ ps, p ∈ c.node.shape.walked) : (goParts (ω := ω) c st ps).Asks c.IsPart := by
  induction ps with
  | nil => trivial
  | cons p rest ih =>
    have hp : (go (ω := ω) (c.part p) st (some p.role)).Asks c.IsPart :=
      ⟨⟨p, h p (List.mem_cons_self ..), rfl, rfl⟩, fun _ => trivial⟩
    exact hp.bind fun _ => ih fun q hq => h q (List.mem_cons_of_mem _ hq)

/-- The handler of a node's inner key walks the parts with the state unchanged and does nothing
else. -/
structure Table.WalksParts {ω σ : Type} (t : Table ω σ) : Prop extends Table.Redirects t where
  inner : ∀ c : Cursor, ∃ p, t.Runs c.node.innerKey p ∧
    ∀ st, p c st = Script.goParts c st c.node.shape.walked

theorem Table.WalksParts.descends {ω σ : Type} {t : Table ω σ} (h : t.WalksParts) :
    t.Descends where
  toRedirects := h.toRedirects
  inner c := by
    obtain ⟨p, hp, hparts⟩ := h.inner c
    refine ⟨p, hp, ?_⟩
    intro st
    rw [hparts]
    exact Script.asks_goParts st fun _ hq => hq

/-- The default table walks the parts. -/
theorem Default.walksParts_table {ω σ : Type} (first : Nat) :
    (table first : Table ω σ).WalksParts where
  toRedirects := redirects_table first
  inner c := by
    obtain ⟨p, hp, hparts⟩ := exists_inner (ω := ω) (σ := σ) c.node
    exact ⟨p, runs_table first hp, fun st => hparts c st rfl⟩

/-! ### Accounts of a walk -/

namespace Walker

variable {ω σ : Type} {w : Walker ω σ}

/-- A dispatch under an inner key comes to the same with walks that agree on the parts. -/
theorem dispatch_inner_congr (h : w.table.Descends)
    {walk walk' : Cursor → σ → Option Category → Memory ω → Run ω Unit} {c : Cursor}
    (hw : ∀ d st role, c.IsPart d role → walk d st role = walk' d st role) (st : σ) :
    w.dispatch walk c.node.innerKey c st = w.dispatch walk' c.node.innerKey c st := by
  obtain ⟨p, hrun, hasks⟩ := h.inner c
  funext m
  rw [dispatch_of_runs hrun, dispatch_of_runs hrun]
  exact Script.exec_congr hw (hasks st) m

/-- **An account of a walk that is right at each node, given the parts, is the walk.** -/
theorem walk_eq_of_layers (w : Walker ω σ) (h : w.table.Descends)
    (account : Cursor → σ → Option Category → Memory ω → Run ω Unit)
    (ha : ∀ c st role, c.node.Plays role → account c st role =
      w.observer.layers c st (w.dispatch account c.node.innerKey c st) (c.node.keysIn role))
    {fuel : Nat} {c : Cursor} (hfuel : 4 * c.node.height ≤ fuel) (st : σ)
    {role : Option Category} (hr : c.node.Plays role) :
    w.walk fuel c st role = account c st role := by
  obtain ⟨n, trail⟩ := c
  induction n using Node.walked_induction generalizing trail fuel st role with
  | step n ih =>
    have hfuel : 4 * n.height ≤ fuel := hfuel
    have hkeys := n.length_keysIn role
    have hpos := n.height_pos
    obtain ⟨rest, rfl⟩ : ∃ k, fuel = k + (n.keysIn role).length :=
      ⟨fuel - (n.keysIn role).length, by omega⟩
    have hparts : ∀ d st role', (Cursor.mk n trail).IsPart d role' →
        w.walk rest d st role' = account d st role' := by
      intro d st role' hd
      have hplays := hd.plays
      obtain ⟨p, hp, rfl, rfl⟩ := hd
      refine ih p hp st (p.steps ++ trail) ?_ hplays
      have hlt : p.child.height < n.height := Node.height_lt (Shape.child_mem_of_mem_walked hp)
      show 4 * p.child.height ≤ rest
      omega
    rw [ha ⟨n, trail⟩ st role hr, ← dispatch_inner_congr h hparts st]
    exact walk_eq_layers h.toRedirects hr rest st

/-- Walks of parts that all succeed change the memory one after another. -/
theorem exec_goParts {walk : Cursor → σ → Option Category → Memory ω → Run ω Unit}
    {keys : List String} {c : Cursor} {st : σ} {f : Part Node → Memory ω → Memory ω}
    {ps : List (Part Node)}
    (h : ∀ p ∈ ps, ∀ m, walk (c.part p) st (some p.role) m = some (.ok (), f p m)) (m : Memory ω) :
    (Script.goParts c st ps).exec walk keys m = some (.ok (), ps.foldl (fun m p => f p m) m) := by
  induction ps generalizing m with
  | nil => rfl
  | cons p rest ih =>
    have hp := h p (List.mem_cons_self ..) m
    have hrest := ih (fun q hq => h q (List.mem_cons_of_mem _ hq)) (f p m)
    show ((Script.go (c.part p) st (some p.role)).bind fun _ =>
      Script.goParts c st rest).exec walk keys m = _
    rw [Script.exec_bind, Script.exec_go, hp]
    exact hrest

/-- A dispatch under an inner key changes the memory part by part. -/
theorem dispatch_inner (h : w.table.WalksParts)
    (account : Cursor → σ → Option Category → Memory ω → Memory ω) (c : Cursor) (st : σ) :
    w.dispatch (fun c st role m => some (.ok (), account c st role m)) c.node.innerKey c st =
      fun m => some (.ok (), c.node.shape.walked.foldl
        (fun m p => account (c.part p) st (some p.role) m) m) := by
  obtain ⟨p, hrun, hparts⟩ := h.inner c
  funext m
  rw [dispatch_of_runs hrun, hparts]
  exact exec_goParts (fun p _ m => rfl) m

/-- **A walk that only walks parts ends well, with the memory that an account of it says.** -/
theorem walk_eq_of_parts (w : Walker ω σ) (h : w.table.WalksParts)
    (account : Cursor → σ → Option Category → Memory ω → Memory ω)
    (ha : ∀ c st role m, c.node.Plays role →
      w.observer.layers c st
        (fun m => some (.ok (), c.node.shape.walked.foldl
          (fun m p => account (c.part p) st (some p.role) m) m))
        (c.node.keysIn role) m = some (.ok (), account c st role m))
    {fuel : Nat} {c : Cursor} (hfuel : 4 * c.node.height ≤ fuel) (st : σ)
    {role : Option Category} (hr : c.node.Plays role) (m : Memory ω) :
    w.walk fuel c st role m = some (.ok (), account c st role m) := by
  rw [walk_eq_of_layers w h.descends (fun c st role m => some (.ok (), account c st role m)) ?_
    hfuel st hr]
  intro c st role hr
  funext m
  rw [dispatch_inner h, ha c st role m hr]

end Walker

end TreeWalk
