/-
Walks through equal tables.

Equal tables of a program have the same handlers under the same keys, and may differ in the
order of the keys.  A handler can see that order, since it may ask for the keys of the table
that it is walked through.  So walks through the two tables are the same where handlers do not
mind the order: whatever it is, they ask for the same walks and leave the same world.

To compare what a handler does under two orders, the keys are told to its script beforehand,
`Script.answered`.  From there on the walks are equal for every fuel, `Walker.walk_congr`, by
induction on the fuel, and with the walks all that is done by them.
-/
import TreeWalk.Proofs.Table.Equality
import TreeWalk.Proofs.Walk.Wrapping

namespace TreeWalk

variable {ω σ α β : Type}

/-! ### Being told the keys -/

namespace Script

/-- The script that has been told the keys of the table. -/
def answered (ks : List String) : Script ω σ α → Script ω σ α
  | done r => done r
  | read next => read fun w => (next w).answered ks
  | write w next => write w (next.answered ks)
  | keys next => (next ks).answered ks
  | walk c st role next => walk c st role fun r => (next r).answered ks

/-- Asking for the keys is being told them. -/
theorem exec_answered (walk : Cursor → σ → Option Category → Memory ω → Run ω Unit)
    (ks ks' : List String) (s : Script ω σ α) (m : Memory ω) :
    (s.answered ks).exec walk ks' m = s.exec walk ks m := by
  induction s generalizing m with
  | done r => rfl
  | read next ih => exact ih m.world m
  | write w next ih => exact ih { m with world := w }
  | keys next ih => exact ih ks m
  | walk c st role next ih =>
    simp only [answered, exec]
    cases walk c st role m with
    | none => rfl
    | some p => exact ih p.1 p.2

theorem answered_beside (ks : List String) (s : Script ω σ α) :
    (s.beside (β := β)).answered ks = (s.answered ks).beside := by
  induction s with
  | done r => rfl
  | read next ih => exact congrArg read (funext fun w => ih w.1)
  | write w next ih => exact congrArg read (funext fun v => congrArg (write (w, v.2)) ih)
  | keys next ih => exact ih ks
  | walk c st role next ih => exact congrArg (walk c st role) (funext ih)

/-- Scripts that match in one and the same world run alike. -/
theorem Matches.exec_eq {walk : Cursor → σ → Option Category → Memory ω → Run ω Unit}
    {ks : List String} {s t : Script ω σ α} {m : Memory ω} (h : Matches Eq m.world m.world s t) :
    s.exec walk ks m = t.exec walk ks m := by
  have hagree (m n : Memory ω) (h : Memory.Agree Eq Eq m n) : m = n := by
    obtain ⟨world, path, found⟩ := m
    obtain ⟨world', path', found'⟩ := n
    obtain ⟨rfl, hkept⟩ := h
    obtain ⟨rfl, rfl⟩ := Prod.mk.inj hkept
    rfl
  have hwalk : ∀ c st role (m n : Memory ω), Memory.Agree Eq Eq m n →
      Run.Related (Memory.Agree Eq Eq) (walk c st role m) (walk c st role n) := by
    intro c st role m n hmn
    obtain rfl := hagree m n hmn
    cases walk c st role m with
    | none => exact .unfinished
    | some p => exact .finished p.1 ⟨rfl, rfl⟩
  rcases (h.exec hwalk ks rfl rfl (rfl : m.kept = m.kept)).cases with
    ⟨hs, ht⟩ | ⟨r, m', n', hs, ht, hmn⟩
  · rw [hs, ht]
  · rw [hs, ht, hagree m' n' hmn]

end Script

/-- The handler does not mind the order of the keys: told them in one order or in another, it asks
for the same walks in the same worlds and comes to the same end. -/
def Handler.OrderBlind (h : Handler ω σ) : Prop :=
  ∀ c st w {ks ks' : List String}, ks.Nodup → ks.Perm ks' →
    Script.Matches Eq w w ((h.run c st).answered ks) ((h.run c st).answered ks')

/-- No handler of the table minds the order of the keys. -/
def Table.OrderBlind (t : Table ω σ) : Prop := ∀ key h, t.get? key = some h → h.OrderBlind

/-- Overrides that do not mind the order, over handlers that do not. -/
theorem Table.OrderBlind.layer {o b : Table ω σ} (ho : o.OrderBlind) (hb : b.OrderBlind) :
    (Table.layer o b).OrderBlind :=
  forall_get?_layer ho hb

/-- Noting calls has nothing to do with the order of the keys. -/
theorem Table.OrderBlind.noted {t : Table ω σ} (ht : t.OrderBlind) : t.noted.OrderBlind := by
  intro key h hget
  rw [Table.noted, OrderedMap.get?_mapValues, Option.map_eq_some_iff] at hget
  obtain ⟨g, hg, rfl⟩ := hget
  intro c st w ks ks' hnodup hperm
  have hmatches : Script.Matches (fun w v => id w = id v) w.1 w.1 ((g.run c st).answered ks)
      ((g.run c st).answered ks') := ht key g hg c st w.1 hnodup hperm
  refine .readLeft (.readRight (.writeLeft (.writeRight ?_)))
  rw [Script.answered_beside, Script.answered_beside]
  exact hmatches.beside (w.2 ++ [Act.handle ⟨key, c, st⟩ w.1])

/-! ### Tables with the same handlers -/

namespace Walker

variable {a b : Table ω σ}

/-- Where handlers do not mind the order of the keys, it does not show in a dispatch. -/
theorem dispatch_congr (hsame : ∀ key, a.get? key = b.get? key) (ha : a.OrderBlind)
    (o : Observer ω σ) (walk : Cursor → σ → Option Category → Memory ω → Run ω Unit)
    (key : String) (c : Cursor) (st : σ) (m : Memory ω) :
    dispatch ⟨a, o⟩ walk key c st m = dispatch ⟨b, o⟩ walk key c st m := by
  have hperm : a.keys.Perm b.keys := by
    refine Table.keys_perm fun key => ?_
    rw [Table.identity?, Table.identity?, hsame]
  simp only [dispatch, ← hsame key]
  cases hget : a.get? key with
  | none => rfl
  | some h =>
    have hmatches := ha key h hget c st m.world a.nodup hperm
    calc (h.run c st).exec walk a.keys m
        = ((h.run c st).answered a.keys).exec walk [] m := (Script.exec_answered ..).symm
      _ = ((h.run c st).answered b.keys).exec walk [] m := hmatches.exec_eq
      _ = (h.run c st).exec walk b.keys m := Script.exec_answered ..

/-- **Walks through tables with the same handlers are the same**, whatever is done around the
dispatches. -/
theorem walk_congr (hsame : ∀ key, a.get? key = b.get? key) (ha : a.OrderBlind)
    (o : Observer ω σ) (fuel : Nat) : walk ⟨a, o⟩ fuel = walk ⟨b, o⟩ fuel := by
  induction fuel with
  | zero => rfl
  | succ fuel ih =>
    funext c st role m
    have hdispatch : dispatch ⟨a, o⟩ (walk ⟨a, o⟩ fuel) (dispatchKey c role) c st =
        dispatch ⟨b, o⟩ (walk ⟨b, o⟩ fuel) (dispatchKey c role) c st := by
      funext m
      rw [dispatch_congr hsame ha, ih]
    simp only [walk, hdispatch]

theorem run_congr (hsame : ∀ key, a.get? key = b.get? key) (ha : a.OrderBlind) (o : Observer ω σ) :
    run ⟨a, o⟩ = run ⟨b, o⟩ := by
  funext fuel tree st w
  rw [run, run, walk_congr hsame ha]

end Walker

/-- **Every walk comes to the same through the one table and through the other**: to the same
outcome and the same world, or to no end in either within the fuel. -/
structure Table.Interchangeable (a b : Table ω σ) : Prop where
  simple : ∀ fuel tree visitors st w,
    Walk.simple fuel tree visitors (some a) st w = Walk.simple fuel tree visitors (some b) st w
  ancestor : ∀ fuel tree visitors st w,
    Walk.ancestor fuel tree visitors (some a) st w = Walk.ancestor fuel tree visitors (some b) st w
  /-- Under overrides that do not mind the order of the keys either, -/
  recursive : ∀ overrides : Table ω σ, overrides.OrderBlind → ∀ fuel tree st w,
    Walk.recursive fuel tree st overrides (some a) w =
      Walk.recursive fuel tree st overrides (some b) w
  /-- and as overrides themselves, over any base. -/
  overriding : ∀ base fuel tree st w,
    Walk.recursive fuel tree st a base w = Walk.recursive fuel tree st b base w
  findAt : ∀ fuel tree start stop test st w,
    Walk.findAt fuel tree start stop test (some a) st w =
      Walk.findAt fuel tree start stop test (some b) st w
  findAround : ∀ fuel tree pos test st w,
    Walk.findAround fuel tree pos test (some a) st w =
      Walk.findAround fuel tree pos test (some b) st w

/-- Tables with the same handlers, which do not mind the order of the keys. -/
theorem Table.OrderBlind.interchangeable {a b : Table ω σ} (ha : a.OrderBlind)
    (hsame : ∀ key, a.get? key = b.get? key) : a.Interchangeable b where
  simple fuel tree visitors st w := by
    simp only [Walk.simple, Walk.baseTable, Option.getD_some, Walker.run_congr hsame ha]
  ancestor fuel tree visitors st w := by
    simp only [Walk.ancestor, Walk.baseTable, Option.getD_some, Walker.run_congr hsame ha]
  recursive overrides hoverrides fuel tree st w := by
    have hlayer : ∀ key, (Table.layer overrides a).get? key =
        (Table.layer overrides b).get? key := by
      intro key
      rw [get?_layer, get?_layer, hsame]
    simp only [Walk.recursive, Walk.baseTable, Option.getD_some,
      Walker.run_congr hlayer (hoverrides.layer ha)]
  overriding base fuel tree st w := by
    simp only [Walk.recursive, layer_congr fun key _ => hsame key]
  findAt fuel tree start stop test st w := by
    simp only [Walk.findAt, Walk.find, Walk.baseTable, Option.getD_some,
      Walker.run_congr hsame ha]
  findAround fuel tree pos test st w := by
    simp only [Walk.findAround, Walk.find, Walk.baseTable, Option.getD_some,
      Walker.run_congr hsame ha]

/-! ### Equal tables of a program -/

/-- **Equal tables are interchangeable.**

Take the tables that a program has after any operations.  Equality is an equivalence among them,
and two of them are equal just when they have the same keys and one and the same handler under
each, in whatever order the keys were inserted.  If they are equal and no handler minds the order
of the keys, then every kind of walk comes to the same through both, whatever the tree, the state
and the world, and so it does where the handlers note their calls: those are the same calls, in
the same order and in the same worlds. -/
theorem Stock.equal_interchangeable (ops : List (Operation ω σ)) :
    (Equivalence fun a b : {t // t ∈ (after ops).tables} => Table.equal a.1 b.1 = true) ∧
      ∀ a ∈ (after ops).tables, ∀ b ∈ (after ops).tables,
        (Table.equal a b = true ↔ (∀ key, key ∈ a.keys ↔ key ∈ b.keys) ∧
          ∀ key g h, a.get? key = some g → b.get? key = some h → g = h) ∧
        (Table.equal a b = true → a.OrderBlind →
          a.Interchangeable b ∧ a.noted.Interchangeable b.noted) := by
  refine ⟨⟨fun a => Table.equal_refl a.1, Table.equal_symm, Table.equal_trans⟩, ?_⟩
  intro a ha b hb
  constructor
  · rw [equal_iff_same ha hb]
    exact OrderedMap.forall_get?_eq_iff
  · intro hequal hblind
    have hsame := (equal_iff_same ha hb).1 hequal
    refine ⟨hblind.interchangeable hsame, hblind.noted.interchangeable ?_⟩
    intro key
    rw [Table.noted, Table.noted, OrderedMap.get?_mapValues, OrderedMap.get?_mapValues, hsame]

/-- A handler of calls that counts the keys of the table and then walks what is called. -/
def countKeys : Procedure Nat Nat := fun c st => .keys fun ks => .read fun n =>
  .write (n + ks.length) <|
    match c.node.shape with
    | .call _ callee _ => .go (c.down [.field .callee] callee) (st + 1) none
    | _ => .malformed "call expression" c.node

/-- A handler of names that adds the state to what has been counted. -/
def addState : Procedure Nat Nat := fun _ st => .modify (· + st)

/-- A table, and another with the same handlers put in the other way round. -/
def insertions : List (Stock.Operation Nat Nat) :=
  [.new, .insert 0 "CallExpression" countKeys, .insert 0 "Identifier" addState, .new,
    .insertHandler 1 "Identifier" 1, .insertHandler 1 "CallExpression" 0]

/-- Walks of `f(x)` through the two tables, with visitors that change what is counted. -/
theorem Stock.equal_interchangeable_insertions :
    ∃ a ∈ (after insertions).tables, ∃ b ∈ (after insertions).tables,
      a.keys = ["CallExpression", "Identifier"] ∧ b.keys = ["Identifier", "CallExpression"] ∧
      Table.equal a b = true ∧ a.OrderBlind ∧
      Walk.simple 2 Walk.callOfF Walk.meddling (some a) 5 1 =
        Walk.simple 2 Walk.callOfF Walk.meddling (some b) 5 1 ∧
      Walk.simple 2 Walk.callOfF Walk.meddling (some a) 5 1 = some (.ok (), 16) := by
  let a : Table Nat Nat := (OrderedMap.empty.insert "CallExpression" ⟨0, countKeys⟩).insert
    "Identifier" ⟨1, addState⟩
  let b : Table Nat Nat := (OrderedMap.empty.insert "Identifier" ⟨1, addState⟩).insert
    "CallExpression" ⟨0, countKeys⟩
  have htables : (after insertions).tables = [a, b] := rfl
  have ha : a ∈ (after insertions).tables := htables ▸ List.mem_cons_self
  have hb : b ∈ (after insertions).tables := htables ▸ List.mem_cons_of_mem _ List.mem_cons_self
  have hcalls : Handler.OrderBlind ⟨0, countKeys⟩ := by
    intro c st w ks ks' _ hperm
    show Script.Matches Eq w w (Script.read _) (Script.read _)
    rw [hperm.length_eq]
    cases c.node.shape <;> exact .refl w _
  have hnames : Handler.OrderBlind ⟨1, addState⟩ := by
    intro c st w ks ks' _ _
    exact .refl w _
  have hblind : a.OrderBlind := by
    intro key h hget
    rw [OrderedMap.get?_insert, OrderedMap.get?_insert] at hget
    split at hget
    · exact Option.some.inj hget ▸ hnames
    · split at hget
      · exact Option.some.inj hget ▸ hcalls
      · cases hget
  have hequal : Table.equal a b = true := by decide
  obtain ⟨-, hlaws⟩ := equal_interchangeable insertions
  obtain ⟨hwalks, -⟩ := (hlaws a ha b hb).2 hequal hblind
  exact ⟨a, ha, b, hb, by decide, by decide, hequal, hblind,
    hwalks.simple 2 Walk.callOfF Walk.meddling 5 1, rfl⟩

end TreeWalk
