/-
Watching a walk does not change it.

Visitors and tests may do as they like as long as the handlers see nothing of it.  What
handlers see of the world is a view: a table reads no more than a view if its handlers do
the same in worlds that look the same, and an observer is inert if it never changes how the
world looks, skips no node and finds none.  A walk with an inert observer goes like a silent
one, `simulates_silent`.

To speak of the calls that a walk makes, a table can take them down: each of its handlers
then notes what it is called with, in a part of the world that nothing else sees.  That does
not change the walk either, `simulates_recorded`.  So all kinds of walk make the same calls
of the handlers of a table and come to the same end, `drivers_agree`.
-/
import TreeWalk.Proofs.Table.Overrides
import TreeWalk.Proofs.Walk.Simulation
import TreeWalk.Syntax.Build

namespace TreeWalk

variable {ω σ α β V : Type}

/-! ### What is seen and what is not -/

/-- The handlers do the same in worlds that look the same. -/
def Table.Reads (view : ω → V) (t : Table ω σ) : Prop :=
  ∀ key h, t.get? key = some h → ∀ c st w v, view w = view v →
    Script.Matches (fun w v => view w = view v) w v (h.run c st) (h.run c st)

/-- No table reads more than the world. -/
theorem Table.reads_id (t : Table ω σ) : t.Reads id := by
  rintro key h - c st w _ rfl
  exact .refl w _

/-- What is done around a dispatch does not show, keeps no node from being walked and finds none. -/
def Observer.Inert (view : ω → V) : Observer ω σ → Prop
  | silent => True
  | before visitors => ∀ key visit, visitors.get? key = some visit →
    ∀ c st w, view (visit c st w) = view w
  | after visitors => ∀ key visit, visitors.get? key = some visit →
    ∀ c st path w, view (visit c st path w) = view w
  | search test target => (∀ n, target.covers n = true) ∧
    ∀ key c w, (test key c w).1 = false ∧ view (test key c w).2 = view w

/-- Worlds that look the same, in walks that have found nothing. -/
abbrev Memory.Alike (view : ω → V) : Memory ω → Memory ω → Prop :=
  Memory.Agree (fun w v => view w = view v) fun p q => p.2 = none ∧ q.2 = none

/-- What an inert observer does around a dispatch makes no difference. -/
theorem Observer.Inert.surround {view : ω → V} {o : Observer ω σ} (ho : o.Inert view)
    (key : String) (c : Cursor) (st : σ) {d e : Memory ω → Run ω Unit}
    (hd : ∀ m n, Memory.Alike view m n → Run.Related (Memory.Alike view) (d m) (e n))
    (m n : Memory ω) (hm : Memory.Alike view m n) :
    Run.Related (Memory.Alike view) (o.surround key c st d m) (e n) := by
  cases o with
  | silent => exact hd m n hm
  | before visitors =>
    rw [Observer.surround]
    cases hv : visitors.get? key with
    | none => exact hd m n hm
    | some visit =>
      have hvisit : view (visit c st m.world) = view m.world := ho key visit hv c st m.world
      exact hd _ n ⟨hvisit.trans hm.world, hm.kept⟩
  | after visitors =>
    have hentered : Memory.Alike view (if (!m.onTop c) = true then m.push c else m) n := by
      split
      · exact ⟨hm.world, hm.kept⟩
      · exact hm
    have hleft (entered : Bool) {m' n' : Memory ω} (h : Memory.Alike view m' n') :
        Memory.Alike view (if entered = true then m'.pop else m') n' := by
      split
      · exact ⟨h.world, h.kept⟩
      · exact h
    rw [Observer.surround]
    rcases (hd _ n hentered).cases with ⟨hp, hq⟩ | ⟨r, m', n', hp, hq, hm'⟩
    · simp only [hp, hq]
      exact .unfinished
    · simp only [hp, hq]
      refine .finished r (hleft _ ?_)
      cases r with
      | error err => exact hm'
      | ok u =>
        cases hv : visitors.get? key with
        | none => exact hm'
        | some visit =>
          have hvisit := ho key visit hv c st m'.path.reverse m'.world
          exact ⟨hvisit.trans hm'.world, hm'.kept⟩
  | search test target =>
    obtain ⟨hcovers, htest⟩ := ho
    rw [Observer.surround, if_pos (hcovers c.node)]
    rcases (hd m n hm).cases with ⟨hp, hq⟩ | ⟨r, m', n', hp, hq, hm'⟩
    · rw [hp, hq]
      exact .unfinished
    · rw [hp, hq]
      cases r with
      | error err => exact .finished _ hm'
      | ok u =>
        have htest := htest key c m'.world
        show Run.Related _ (if _ then _ else _) _
        split
        · revert htest
          cases test key c m'.world with
          | mk accepted world =>
            rintro ⟨rfl, hseen⟩
            exact .finished _ ⟨hseen.trans hm'.world, rfl, hm'.kept.2⟩
        · exact .finished _ hm'

/-- **A walk with an inert observer goes like a silent one.** -/
theorem simulates_silent {view : ω → V} {t : Table ω σ} {o : Observer ω σ} (ht : t.Reads view)
    (ho : o.Inert view) :
    Walker.Simulates (fun w v => view w = view v) (fun p q => p.2 = none ∧ q.2 = none)
      ⟨t, o⟩ ⟨t, .silent⟩ where
  keys := rfl
  handlers key := by
    show Option.Rel _ (t.get? key) (t.get? key)
    cases hget : t.get? key with
    | none => exact .none
    | some h => exact .some (ht key h hget)
  found hkept := by rw [hkept.1, hkept.2]
  surround key c st := ho.surround key c st

/-! ### Taking down calls -/

/-- A handler called for a node in a state, by the key that it was found under. -/
structure Call (σ : Type) where
  key : String
  cursor : Cursor
  state : σ

namespace Script

/-- The script in a world that has another part. -/
def beside : Script ω σ α → Script (ω × β) σ α
  | done r => done r
  | read next => read fun w => (next w.1).beside
  | write w next => read fun v => write (w, v.2) next.beside
  | keys next => keys fun ks => (next ks).beside
  | walk c st role next => walk c st role fun r => (next r).beside

/-- The other part does not matter. -/
theorem matches_beside (s : Script ω σ α) (w : ω) (b : β) :
    Matches (fun (p : ω × β) v => p.1 = v) (w, b) w s.beside s := by
  induction s generalizing w b with
  | done r =>
    refine .done ?_ r
    rfl
  | read next ih => exact .readLeft (.readRight (ih w w b))
  | write w' next ih => exact .readLeft (.writeLeft (.writeRight (ih w' b)))
  | keys next ih => exact .keys fun ks => ih ks w b
  | walk c st role next ih =>
    refine .walk ?_ c st role ?_
    · rfl
    · rintro r ⟨w, b⟩ _ rfl
      exact ih r w b

/-- Scripts that match still do in worlds with another part, which they leave alone. -/
theorem Matches.beside {view : ω → V} {w v : ω} {s t : Script ω σ α}
    (h : Matches (fun w v => view w = view v) w v s t) (b : β) :
    Matches (fun (p q : ω × β) => (view p.1, p.2) = (view q.1, q.2)) (w, b) (v, b) s.beside
      t.beside := by
  induction h generalizing b with
  | done h r => exact .done (by rw [h]) r
  | readLeft h ih => exact .readLeft (ih b)
  | readRight h ih => exact .readRight (ih b)
  | writeLeft h ih => exact .readLeft (.writeLeft (ih b))
  | writeRight h ih => exact .readRight (.writeRight (ih b))
  | keys h ih => exact .keys fun ks => ih ks b
  | walk h c st role hnext ih =>
    refine .walk (by rw [h]) c st role ?_
    rintro r ⟨w, b⟩ ⟨v, _⟩ hwv
    obtain ⟨hview, rfl⟩ := Prod.mk.inj hwv
    exact ih r w v hview b

/-- A script in a world that has another part makes no difference by that part. -/
theorem reads_beside (s : Script ω σ α) (w : ω) (b b' : β) :
    Matches (fun (p q : ω × β) => p.1 = q.1) (w, b) (w, b') s.beside s.beside := by
  induction s generalizing w b b' with
  | done r =>
    refine .done ?_ r
    rfl
  | read next ih => exact .readLeft (.readRight (ih w w b b'))
  | write w' next ih =>
    exact .readLeft (.writeLeft (.readRight (.writeRight (ih w' b b'))))
  | keys next ih => exact .keys fun ks => ih ks w b b'
  | walk c st role next ih =>
    refine .walk ?_ c st role ?_
    · rfl
    · rintro r ⟨w, b⟩ ⟨_, b'⟩ rfl
      exact ih r w b b'

end Script

/-- The table in a world that has another part. -/
def Table.beside (t : Table ω σ) : Table (ω × β) σ :=
  t.mapValues fun _ h => ⟨h.id, fun c st => (h.run c st).beside⟩

/-- Handlers do not read a part of the world that was not there for them. -/
theorem Table.reads_beside (t : Table ω σ) : (t.beside (β := β)).Reads Prod.fst := by
  rintro key h hget c st ⟨w, b⟩ ⟨_, b'⟩ rfl
  rw [Table.beside, OrderedMap.get?_mapValues] at hget
  obtain ⟨g, -, rfl⟩ := Option.map_eq_some_iff.1 hget
  exact (g.run c st).reads_beside w b b'

/-- The handler of a key, taking down its calls. -/
def Handler.recorded (key : String) (h : Handler ω σ) : Handler (ω × List (Call σ)) σ where
  id := h.id
  run c st := .read fun (w, calls) => .write (w, calls ++ [⟨key, c, st⟩]) (h.run c st).beside

/-- The table with handlers that take down their calls. -/
def Table.recorded (t : Table ω σ) : Table (ω × List (Call σ)) σ :=
  t.mapValues Handler.recorded

/-- A visitor in a world that has another part. -/
def Visitor.beside (visit : Visitor ω σ) : Visitor (ω × β) σ :=
  fun c st w => (visit c st w.1, w.2)

/-- A visitor of paths in a world that has another part. -/
def PathVisitor.beside (visit : PathVisitor ω σ) : PathVisitor (ω × β) σ :=
  fun c st path w => (visit c st path w.1, w.2)

/-- A test in a world that has another part. -/
def Test.beside (test : Test ω) : Test (ω × β) :=
  fun key c w => ((test key c w.1).1, ((test key c w.1).2, w.2))

/-- What is done around a dispatch, in a world that has another part. -/
def Observer.beside : Observer ω σ → Observer (ω × β) σ
  | silent => silent
  | before visitors => before (visitors.mapValues fun _ => Visitor.beside)
  | after visitors => after (visitors.mapValues fun _ => PathVisitor.beside)
  | search test target => search test.beside target

/-- What handlers read they still read where they take down their calls. -/
theorem Table.Reads.recorded {view : ω → V} {t : Table ω σ} (ht : t.Reads view) :
    t.recorded.Reads fun p => (view p.1, p.2) := by
  rintro key h hget c st ⟨w, calls⟩ ⟨v, _⟩ hwv
  obtain ⟨hview, rfl⟩ := Prod.mk.inj hwv
  rw [Table.recorded, OrderedMap.get?_mapValues] at hget
  obtain ⟨g, hg, rfl⟩ := Option.map_eq_some_iff.1 hget
  exact .readLeft (.readRight (.writeLeft (.writeRight ((ht key g hg c st w v hview).beside _))))

/-- An inert observer is inert beside another part of the world. -/
theorem Observer.Inert.beside {view : ω → V} {o : Observer ω σ} (ho : o.Inert view) :
    (o.beside (β := β)).Inert fun p => (view p.1, p.2) := by
  cases o with
  | silent => trivial
  | before visitors =>
    intro key visit hget c st w
    rw [OrderedMap.get?_mapValues] at hget
    obtain ⟨visit, hvisit, rfl⟩ := Option.map_eq_some_iff.1 hget
    exact congrArg (·, w.2) (ho key visit hvisit c st w.1)
  | after visitors =>
    intro key visit hget c st path w
    rw [OrderedMap.get?_mapValues] at hget
    obtain ⟨visit, hvisit, rfl⟩ := Option.map_eq_some_iff.1 hget
    exact congrArg (·, w.2) (ho key visit hvisit c st path w.1)
  | search test target =>
    refine ⟨ho.1, ?_⟩
    intro key c w
    obtain ⟨hrejected, hseen⟩ := ho.2 key c w.1
    exact ⟨hrejected, congrArg (·, w.2) hseen⟩

/-- Worlds that are the same but for another part, in walks that keep the same. -/
abbrev Memory.Same : Memory (ω × β) → Memory ω → Prop := Memory.Agree (fun p v => p.1 = v) Eq

/-- What is done around a dispatch leaves another part of the world alone. -/
theorem Observer.surround_beside (o : Observer ω σ) (key : String) (c : Cursor) (st : σ)
    {d : Memory (ω × β) → Run (ω × β) Unit} {e : Memory ω → Run ω Unit}
    (hd : ∀ m n, Memory.Same m n → Run.Related Memory.Same (d m) (e n)) (m : Memory (ω × β))
    (n : Memory ω) (hm : Memory.Same m n) :
    Run.Related Memory.Same (o.beside.surround key c st d m) (o.surround key c st e n) := by
  obtain ⟨⟨w, b⟩, path, found⟩ := m
  obtain ⟨v, path', found'⟩ := n
  obtain ⟨rfl, hkept⟩ := hm
  obtain ⟨rfl, rfl⟩ := Prod.mk.inj hkept
  cases o with
  | silent => exact hd _ _ ⟨rfl, rfl⟩
  | before visitors =>
    rw [Observer.beside, Observer.surround, Observer.surround, OrderedMap.get?_mapValues]
    cases visitors.get? key with
    | none => exact hd _ _ ⟨rfl, rfl⟩
    | some visit => exact hd _ _ ⟨rfl, rfl⟩
  | after visitors =>
    have honTop : Memory.onTop ⟨w, path, found⟩ c = Memory.onTop ⟨(w, b), path, found⟩ c := rfl
    have hentered : Memory.Same
        (if (!Memory.onTop ⟨(w, b), path, found⟩ c) = true then
          Memory.push ⟨(w, b), path, found⟩ c else ⟨(w, b), path, found⟩)
        (if (!Memory.onTop ⟨(w, b), path, found⟩ c) = true then
          Memory.push ⟨w, path, found⟩ c else ⟨w, path, found⟩) := by
      split <;> exact ⟨rfl, rfl⟩
    have hleft (entered : Bool) {m : Memory (ω × β)} {n : Memory ω} (h : Memory.Same m n) :
        Memory.Same (if entered = true then m.pop else m)
          (if entered = true then n.pop else n) := by
      obtain ⟨hpath, hfound⟩ := Prod.mk.inj h.kept
      split
      · exact ⟨h.world, Prod.ext (congrArg List.tail hpath) hfound⟩
      · exact h
    simp only [Observer.beside, Observer.surround, OrderedMap.get?_mapValues, honTop]
    rcases (hd _ _ hentered).cases with ⟨hp, hq⟩ | ⟨r, m, n, hp, hq, hm⟩
    · simp only [hp, hq]
      exact .unfinished
    · simp only [hp, hq]
      refine .finished r (hleft _ ?_)
      cases r with
      | error err => exact hm
      | ok u =>
        cases visitors.get? key with
        | none => exact hm
        | some visit =>
          have hpath : m.path = n.path := (Prod.mk.inj hm.kept).1
          refine ⟨?_, hm.kept⟩
          show visit c st m.path.reverse m.world.1 = visit c st n.path.reverse n.world
          rw [hpath, hm.world]
  | search test target =>
    refine related_search ?_ target key c st hd _ _ ⟨rfl, rfl⟩
    rintro key c ⟨w, b⟩ _ rfl
    exact ⟨rfl, rfl⟩

/-- **Taking down the calls does not change a walk.** -/
theorem simulates_recorded (t : Table ω σ) (o : Observer ω σ) :
    Walker.Simulates (fun p v => p.1 = v) Eq ⟨t.recorded, o.beside⟩ ⟨t, o⟩ where
  keys := OrderedMap.keys_mapValues _ t
  handlers := by
    refine Table.rel_mapValues ?_ t
    rintro key h c st ⟨w, calls⟩ _ rfl
    exact .readLeft (.writeLeft ((h.run c st).matches_beside w _))
  found hkept := by rw [hkept]
  surround key c st := o.surround_beside key c st


/-! ### The kinds of walk -/

namespace Walk

/-- A run that can be told by its outcome, the view of the world that it leaves and its calls of
handlers: those are what the run with calls taken down comes to, which is otherwise the same. -/
structure Comes {ρ : Type} (view : ω → V) (run : Option (ρ × ω))
    (recorded : Option (ρ × ω × List (Call σ))) (result : Option (ρ × V × List (Call σ))) :
    Prop where
  same : recorded.map (fun (r, w, _) => (r, w)) = run
  result : recorded.map (fun (r, w, calls) => (r, view w, calls)) = result

section

variable {view : ω → V} {t : Table ω σ} {o : Observer ω σ}

/-- What a walk with an inert observer comes to: what the silent walk does, and nothing found. -/
theorem run_inert (ht : t.Reads view) (ho : o.Inert view) (fuel : Nat) (tree : Node) (st : σ)
    (w : ω) :
    (Walker.run ⟨t, o⟩ fuel tree st w).map (fun (r, w, found) => (r, view w, found)) =
      (Walker.run ⟨t, .silent⟩ fuel tree st w).map fun (r, w, _) => (r, view w, none) := by
  rcases (simulates_silent ht ho).run ⟨rfl, rfl⟩ fuel tree st (rfl : view w = view w) with
    ⟨ha, hb⟩ | ⟨r, m, n, ha, hb, hagree⟩
  · rw [ha, hb]
    rfl
  · obtain ⟨hview, hfound, -⟩ := hagree
    rw [ha, hb]
    show some (r, view m.world, m.found) = some (r, view n.world, none)
    rw [hview, show m.found = none from hfound]

/-- A run is the run with its calls taken down, without them. -/
theorem run_recorded (t : Table ω σ) (o : Observer ω σ) (fuel : Nat) (tree : Node) (st : σ) (w : ω)
    (calls : List (Call σ)) :
    (Walker.run ⟨t.recorded, o.beside⟩ fuel tree st (w, calls)).map
        (fun (r, (w, _), found) => (r, w, found)) =
      Walker.run ⟨t, o⟩ fuel tree st w := by
  rcases (simulates_recorded t o).run rfl fuel tree st (rfl : (w, calls).1 = w) with
    ⟨ha, hb⟩ | ⟨r, m, n, ha, hb, hagree⟩
  · rw [ha, hb]
    rfl
  · obtain ⟨hworld, hkept⟩ := hagree
    rw [ha, hb]
    show some (r, m.world.1, m.found) = some (r, n.world, n.found)
    rw [hworld, (Prod.mk.inj hkept).2]

/-- What the silent walk comes to, with its calls taken down. -/
def silently (view : ω → V) (t : Table ω σ) (fuel : Nat) (tree : Node) (st : σ) (w : ω) :
    Option (Outcome × V × List (Call σ)) :=
  (Walker.run ⟨t.recorded, .silent⟩ fuel tree st (w, [])).map
    fun (r, (w, calls), _) => (r, view w, calls)

/-- A walk with an inert observer comes to what the silent walk does, where the outcome may say
what was found as well. -/
theorem comes_silently {ρ : Type} (answer : Outcome → Option Cursor → ρ) (ht : t.Reads view)
    (ho : o.Inert view) (fuel : Nat) (tree : Node) (st : σ) (w : ω) :
    Comes view
      ((Walker.run ⟨t, o⟩ fuel tree st w).map fun (r, w, found) => (answer r found, w))
      ((Walker.run ⟨t.recorded, o.beside⟩ fuel tree st (w, [])).map
        fun (r, w, found) => (answer r found, w))
      ((silently view t fuel tree st w).map fun (r, v, calls) => (answer r none, v, calls)) where
  same := by
    rw [← run_recorded t o fuel tree st w [], Option.map_map, Option.map_map]
    rfl
  result := by
    have hrun := run_inert ht.recorded (ho.beside (β := List (Call σ))) fuel tree st (w, [])
    have hanswer := congrArg (Option.map fun (r, (v, calls), found) => (answer r found, v, calls))
      hrun
    rw [Option.map_map, Option.map_map] at hanswer
    rw [silently, Option.map_map, Option.map_map]
    exact hanswer

end

/-- **Watching a walk does not change it.**

Take a table, visitors and a test that nothing accepts, where the visitors and the test change
nothing that the handlers of the table read.  Walking a tree through the table with visitors on
the way down, with visitors on the way up, with no overrides and in search of a node at no given
offset comes to the same: the same calls of the handlers in the same order, the same outcome,
with nothing found, and a world that looks the same; and if the fuel suffices for one of the
walks, it does for all. -/
theorem drivers_agree {view : ω → V} {t : Table ω σ} (ht : t.Reads view)
    {visitors : OrderedMap (Visitor ω σ)} (hvisitors : (Observer.before visitors).Inert view)
    {pathVisitors : OrderedMap (PathVisitor ω σ)}
    (hpathVisitors : (Observer.after pathVisitors).Inert view) {test : Test ω}
    (htest : ∀ key c w, (test key c w).1 = false ∧ view (test key c w).2 = view w) (fuel : Nat)
    (tree : Node) (st : σ) (w : ω) :
    ∃ result : Option (Outcome × V × List (Call σ)),
      Comes view (simple fuel tree visitors (some t) st w)
        (simple fuel tree (visitors.mapValues fun _ => Visitor.beside) (some t.recorded) st
          (w, [])) result ∧
      Comes view (ancestor fuel tree pathVisitors (some t) st w)
        (ancestor fuel tree (pathVisitors.mapValues fun _ => PathVisitor.beside)
          (some t.recorded) st (w, [])) result ∧
      Comes view (recursive fuel tree st .empty (some t) w)
        (recursive fuel tree st .empty (some t.recorded) (w, [])) result ∧
      Comes view (findAt fuel tree none none test (some t) st w)
        (findAt fuel tree none none test.beside (some t.recorded) st (w, []))
        (result.map fun (r, v, calls) => (r.map fun _ => none, v, calls)) := by
  have hsame : (silently view t fuel tree st w).map (fun (r, v, calls) => (r, v, calls)) =
      silently view t fuel tree st w := Option.map_id' ..
  refine ⟨silently view t fuel tree st w, ?_, ?_, ?_, ?_⟩
  · have hsimple := comes_silently (fun r _ => r) ht hvisitors fuel tree st w
    rw [hsame] at hsimple
    exact hsimple
  · have hancestor := comes_silently (fun r _ => r) ht hpathVisitors fuel tree st w
    rw [hsame] at hancestor
    exact hancestor
  · have hsilent : (Observer.silent : Observer ω σ).Inert view := trivial
    have hrecursive := comes_silently (fun r _ => r) ht hsilent fuel tree st w
    rw [hsame] at hrecursive
    rw [recursive, recursive, baseTable, baseTable, Option.getD_some, Option.getD_some,
      Table.layer_empty, Table.layer_empty]
    exact hrecursive
  · have hsearch : (Observer.search test (.offsets none none) : Observer ω σ).Inert view :=
      ⟨Target.covers_open, htest⟩
    exact comes_silently (fun r found => r.map fun _ => found) ht hsearch fuel tree st w

/-- A table whose handler of calls minds no failure, walks what is called again with another state,
and counts. -/
def insistent : Table Nat Nat :=
  Table.ofProcedures 0 [
    ("CallExpression", fun c st =>
      match c.node.shape with
      | .call _ callee _ => do
        let _ ← (Script.go (c.down [.field .callee] callee) st (some .expression)).attempt
        Script.modify (· + 1)
        Script.go (c.down [.field .callee] callee) (st + 1) none
      | _ => Script.malformed "call expression" c.node),
    ("Identifier", fun _ _ => pure ())]

/-- Visitors of names that count beside the handlers. -/
def counting : OrderedMap (Visitor (Nat × Nat) Nat) :=
  .ofList [("Identifier", fun _ _ w => (w.1, w.2 + 1))]

/-- Visitors of names that take the length of the path beside the handlers. -/
def measuring : OrderedMap (PathVisitor (Nat × Nat) Nat) :=
  .ofList [("Identifier", fun _ _ path w => (w.1, path.length))]

/-- A test that counts beside the handlers and accepts nothing. -/
def refusing : Test (Nat × Nat) := fun _ _ w => (false, w.1, w.2 + 1)

/-- The call `f(x)`. -/
def callOfF : Node := Build.call (Build.ident "f") [Build.ident "x"]

/-- The drivers on `f(x)`, where what is called is walked twice, once in vain. -/
theorem drivers_agree_insistent :
    ∃ result : Option (Outcome × Nat × List (Call Nat)),
      Comes Prod.fst (simple 3 callOfF counting (some insistent.beside) 5 (0, 0))
        (simple 3 callOfF (counting.mapValues fun _ => Visitor.beside)
          (some (insistent.beside.recorded)) 5 ((0, 0), [])) result ∧
      result.map (fun (_, n, calls) => (n, calls.map fun c => (c.key, c.state))) =
        some (1, [("CallExpression", 5), ("Identifier", 6)]) := by
  have hcounting : (Observer.before counting).Inert Prod.fst := by
    intro key visit hget c st w
    simp only [counting, OrderedMap.ofList, List.foldl, OrderedMap.get?_insert,
      OrderedMap.get?_empty] at hget
    split at hget
    · obtain rfl := Option.some.inj hget
      rfl
    · cases hget
  have hmeasuring : (Observer.after measuring).Inert Prod.fst := by
    intro key visit hget c st path w
    simp only [measuring, OrderedMap.ofList, List.foldl, OrderedMap.get?_insert,
      OrderedMap.get?_empty] at hget
    split at hget
    · obtain rfl := Option.some.inj hget
      rfl
    · cases hget
  have hrefusing : ∀ key c w, (refusing key c w).1 = false ∧ (refusing key c w).2.1 = w.1 :=
    fun _ _ _ => ⟨rfl, rfl⟩
  obtain ⟨result, hsimple, -⟩ := drivers_agree insistent.reads_beside hcounting hmeasuring
    hrefusing 3 callOfF 5 (0, 0)
  refine ⟨result, hsimple, ?_⟩
  rw [← hsimple.result]
  decide

end Walk

end TreeWalk
