/-
The path of a walk with visitors on the way up.

Such a walk keeps a path.  A call pushes its node, unless the node is on top already, and
what it pushed it pops when its dispatch ends, well or not.  Between the push and the pop
stands a handler that may call for any walks it likes and mind no failure of theirs, so the
path is right only if every one of those calls leaves it as it was: `walk_ofWorld`.

What the path ought to be is said without one.  `walkOpen` is the walk with no memory of its
own: each call hands the nodes of the calls that are open down to the calls inside it, and
shows a visitor those nodes with repeats merged.  The two walks are the same,
`walk_eq_walkOpen`: the path in the memory is always the open calls, merged.
-/
import Mathlib.Data.List.Destutter
import TreeWalk.Proofs.Walk.Simulation

namespace TreeWalk

variable {ω σ α : Type}

/-! ### Open calls -/

/-- The cursors stand at different places. -/
abbrev Cursor.Elsewhere (c d : Cursor) : Prop := c.trail ≠ d.trail

/-- The path to the innermost of the open calls, whose nodes are given from it outwards: the
outermost node first, and a node that is called again at its own place once. -/
def openPath (opened : List Cursor) : List Cursor :=
  opened.reverse.destutter Cursor.Elsewhere

/-- A node is merged with the call around it only: one that is called again further in is there
twice. -/
example (a b : Node) :
    openPath [⟨a, []⟩, ⟨b, [.field .body]⟩, ⟨a, []⟩, ⟨a, []⟩] =
      [⟨a, []⟩, ⟨b, [.field .body]⟩, ⟨a, []⟩] := rfl

/-- A node that comes last is merged where it stands at the place of the one before it. -/
theorem destutter_concat (cs : List Cursor) (c : Cursor) :
    (cs ++ [c]).destutter Cursor.Elsewhere =
      if (cs.destutter Cursor.Elsewhere).getLast?.any (·.samePlace c) then
        cs.destutter Cursor.Elsewhere
      else cs.destutter Cursor.Elsewhere ++ [c] := by
  cases cs with
  | nil => rfl
  | cons a cs =>
    simp only [List.cons_append, List.destutter_cons']
    induction cs generalizing a with
    | nil =>
      by_cases h : a.Elsewhere c
      · simp [h]
      · simp [not_not.1 h]
    | cons b cs ih =>
      by_cases h : a.Elsewhere b
      · have hlast : (a :: cs.destutter' Cursor.Elsewhere b).getLast? =
            (cs.destutter' Cursor.Elsewhere b).getLast? :=
          List.getLast?_cons_of_ne_nil (List.destutter'_ne_nil _ _)
        simp only [List.cons_append, List.destutter'_cons_pos _ h, ih b, hlast]
        exact apply_ite (List.cons a) _ _ _
      · simp only [List.cons_append, List.destutter'_cons_neg _ h]
        exact ih a

namespace Memory

/-- The memory inside a call: the node is on top of the path. -/
def enter (m : Memory ω) (c : Cursor) : Memory ω := if m.onTop c then m else m.push c

theorem world_enter (m : Memory ω) (c : Cursor) : (m.enter c).world = m.world := by
  unfold Memory.enter
  split <;> rfl

/-- A memory in a walk that searches for nothing, whose path is that of the open calls. -/
structure Follows (m : Memory ω) (opened : List Cursor) : Prop where
  path : m.path.reverse = openPath opened
  found : m.found = none

/-- Inside a call the path is that of one more open call. -/
theorem Follows.enter {m : Memory ω} {opened : List Cursor} (h : m.Follows opened) (c : Cursor) :
    (m.enter c).Follows (c :: opened) := by
  have honTop : m.onTop c = (openPath opened).getLast?.any (·.samePlace c) := by
    rw [← h.path, List.getLast?_reverse, onTop]
    cases m.path <;> rfl
  have hpath : openPath (c :: opened) =
      if m.onTop c then openPath opened else openPath opened ++ [c] := by
    rw [honTop, openPath, List.reverse_cons, destutter_concat]
    rfl
  unfold Memory.enter
  by_cases hc : m.onTop c = true
  · rw [if_pos hc]
    exact ⟨by rw [hpath, if_pos hc, h.path], h.found⟩
  · rw [if_neg hc]
    refine ⟨?_, h.found⟩
    rw [hpath, if_neg hc, ← h.path]
    exact List.reverse_cons

end Memory

/-! ### Around a dispatch -/

/-- What comes of the world alone, beside what a walk keeps for itself. -/
def Run.ofWorld (m : Memory ω) (p : Option (Except WalkError α × ω)) : Run ω α :=
  p.map fun (r, w) => (r, { m with world := w })

namespace Observer

/-- Tells the visitor of a key how to come to a node there.  Of a dispatch that has failed nobody
is told. -/
def tellAfter (visitors : OrderedMap (PathVisitor ω σ)) (key : String) (c : Cursor) (st : σ)
    (path : List Cursor) : Outcome → ω → ω
  | .ok (), w =>
    match visitors.get? key with
    | some visit => visit c st path w
    | none => w
  | .error _, w => w

/-- A dispatch that changes the world alone is told of with the path inside, and then left. -/
theorem surround_after (visitors : OrderedMap (PathVisitor ω σ)) (key : String) (c : Cursor)
    (st : σ) {dispatch : Memory ω → Run ω Unit} {m : Memory ω} {p : Option (Outcome × ω)}
    (hd : dispatch (m.enter c) = Run.ofWorld (m.enter c) p) :
    (after visitors).surround key c st dispatch m =
      Run.ofWorld m (p.map fun (r, w) =>
        (r, tellAfter visitors key c st (m.enter c).path.reverse r w)) := by
  have hentered : (if (!m.onTop c) = true then m.push c else m) = m.enter c := by
    unfold Memory.enter
    cases m.onTop c <;> rfl
  have hleft (w : ω) : (if (!m.onTop c) = true then Memory.pop { m.enter c with world := w }
      else { m.enter c with world := w }) = { m with world := w } := by
    unfold Memory.enter
    cases m.onTop c <;> rfl
  unfold surround
  simp only [hentered, hd]
  cases p with
  | none => rfl
  | some p =>
    obtain ⟨r, w⟩ := p
    simp only [Run.ofWorld, Option.map_some]
    cases r with
    | error e => simp only [hleft, tellAfter]
    | ok u =>
      unfold tellAfter
      cases visitors.get? key <;> simp only [hleft]

end Observer

/-! ### The walk without a path -/

/-- Runs a script on the world alone, given what becomes of the walks it asks for. -/
def Script.execWorld (walk : Cursor → σ → Option Category → ω → Option (Outcome × ω))
    (keys : List String) : Script ω σ α → ω → Option (Except WalkError α × ω)
  | .done r, w => some (r, w)
  | .read next, w => (next w).execWorld walk keys w
  | .write w next, _ => next.execWorld walk keys w
  | .keys next, w => (next keys).execWorld walk keys w
  | .walk c st role next, w =>
    match walk c st role w with
    | none => none
    | some (r, w) => (next r).execWorld walk keys w

/-- Hands a node to the handler of a key, in the world alone. -/
def Table.dispatchWorld (t : Table ω σ)
    (walk : Cursor → σ → Option Category → ω → Option (Outcome × ω)) (key : String) (c : Cursor)
    (st : σ) (w : ω) : Option (Outcome × ω) :=
  match t.get? key with
  | some h => (h.run c st).execWorld walk t.keys w
  | none => some (.error (.unknownType key), w)

/-- A walk with visitors on the way up that is handed the nodes of the open calls, the innermost
first, and shows its visitors the path that they make. -/
def Walk.walkOpen (t : Table ω σ) (visitors : OrderedMap (PathVisitor ω σ)) :
    Nat → List Cursor → Cursor → σ → Option Category → ω → Option (Outcome × ω)
  | 0, _, _, _, _, _ => none
  | fuel + 1, opened, c, st, role, w =>
    let key := dispatchKey c role
    (t.dispatchWorld (walkOpen t visitors fuel (c :: opened)) key c st w).map fun (r, w) =>
      (r, Observer.tellAfter visitors key c st (openPath (c :: opened)) r w)

/-- Where the walks that a script asks for are walks of the world alone, so is the script. -/
theorem Script.exec_eq_execWorld {walk : Cursor → σ → Option Category → Memory ω → Run ω Unit}
    {walk' : Cursor → σ → Option Category → ω → Option (Outcome × ω)} {keys : List String}
    {m : Memory ω}
    (h : ∀ c st role w, walk c st role { m with world := w } =
      Run.ofWorld m (walk' c st role w)) (s : Script ω σ α) :
    ∀ w, s.exec walk keys { m with world := w } =
      Run.ofWorld m (s.execWorld walk' keys w) := by
  induction s with
  | done r =>
    intro w
    rfl
  | read next ih =>
    intro w
    exact ih w w
  | write w' next ih =>
    intro w
    exact ih w'
  | keys next ih =>
    intro w
    exact ih keys w
  | walk c st role next ih =>
    intro w
    rw [exec, execWorld, h c st role w]
    cases walk' c st role w with
    | none => rfl
    | some p => exact ih p.1 p.2

/-- Where the walks inside a dispatch are walks of the world alone, so is the dispatch. -/
theorem Walker.dispatch_eq_dispatchWorld (w : Walker ω σ)
    {walk : Cursor → σ → Option Category → Memory ω → Run ω Unit}
    {walk' : Cursor → σ → Option Category → ω → Option (Outcome × ω)} {m : Memory ω}
    (h : ∀ c st role v, walk c st role { m with world := v } =
      Run.ofWorld m (walk' c st role v)) (key : String) (c : Cursor) (st : σ) :
    w.dispatch walk key c st m =
      Run.ofWorld m (w.table.dispatchWorld walk' key c st m.world) := by
  unfold Walker.dispatch Table.dispatchWorld
  cases w.table.get? key with
  | none => rfl
  | some handler => exact Script.exec_eq_execWorld h _ _

namespace Walk

/-- **The path of a walk is that of the open calls.** -/
theorem walk_eq_walkOpen (t : Table ω σ) (visitors : OrderedMap (PathVisitor ω σ)) :
    ∀ (fuel : Nat) (opened : List Cursor) (c : Cursor) (st : σ) (role : Option Category)
      (m : Memory ω), m.Follows opened →
        Walker.walk ⟨t, .after visitors⟩ fuel c st role m =
          Run.ofWorld m (walkOpen t visitors fuel opened c st role m.world) := by
  intro fuel
  induction fuel with
  | zero =>
    intro opened c st role m _
    rfl
  | succ fuel ih =>
    intro opened c st role m hm
    have hinner := hm.enter c
    have hwalk : ∀ d st role w, Walker.walk ⟨t, .after visitors⟩ fuel d st role
        { m.enter c with world := w } =
          Run.ofWorld (m.enter c) (walkOpen t visitors fuel (c :: opened) d st role w) := by
      intro d st role w
      exact ih (c :: opened) d st role { m.enter c with world := w } ⟨hinner.path, hinner.found⟩
    have hdispatch := Walker.dispatch_eq_dispatchWorld ⟨t, .after visitors⟩ hwalk
      (dispatchKey c role) c st
    unfold Walker.walk walkOpen
    rw [if_neg (by simp [hm.found]), Observer.surround_after visitors _ c st hdispatch,
      hinner.path, Memory.world_enter]

end Walk

/-! ### Calls leave the path as it was -/

/-- Where the walks that a script asks for change the world alone, so does the script. -/
theorem Script.exec_ofWorld {walk : Cursor → σ → Option Category → Memory ω → Run ω Unit}
    (h : ∀ c st role m, ∃ p, walk c st role m = Run.ofWorld m p) (keys : List String)
    (s : Script ω σ α) : ∀ m, ∃ p, s.exec walk keys m = Run.ofWorld m p := by
  induction s with
  | done r =>
    intro m
    exact ⟨some (r, m.world), rfl⟩
  | read next ih =>
    intro m
    exact ih m.world m
  | write w next ih =>
    intro m
    exact ih { m with world := w }
  | keys next ih =>
    intro m
    exact ih keys m
  | walk c st role next ih =>
    intro m
    obtain ⟨p, hp⟩ := h c st role m
    unfold exec
    rw [hp]
    cases p with
    | none => exact ⟨none, rfl⟩
    | some p => exact ih p.1 { m with world := p.2 }

namespace Walk

/-- A dispatch changes the world alone where the walks inside it do. -/
theorem dispatch_ofWorld (w : Walker ω σ)
    {walk : Cursor → σ → Option Category → Memory ω → Run ω Unit}
    (h : ∀ c st role m, ∃ p, walk c st role m = Run.ofWorld m p) (key : String) (c : Cursor)
    (st : σ) (m : Memory ω) : ∃ p, w.dispatch walk key c st m = Run.ofWorld m p := by
  unfold Walker.dispatch
  cases w.table.get? key with
  | none => exact ⟨some (.error (.unknownType key), m.world), rfl⟩
  | some handler => exact Script.exec_ofWorld h _ _ m

/-- **A call changes the world alone**, whether it fails or not: its path it leaves as it was. -/
theorem walk_ofWorld (t : Table ω σ) (visitors : OrderedMap (PathVisitor ω σ)) :
    ∀ (fuel : Nat) (c : Cursor) (st : σ) (role : Option Category) (m : Memory ω),
      ∃ p, Walker.walk ⟨t, .after visitors⟩ fuel c st role m = Run.ofWorld m p := by
  intro fuel
  induction fuel with
  | zero =>
    intro c st role m
    exact ⟨none, rfl⟩
  | succ fuel ih =>
    intro c st role m
    unfold Walker.walk
    by_cases hm : m.found.isSome = true
    · exact ⟨some (.ok (), m.world), by rw [if_pos hm]; rfl⟩
    · obtain ⟨p, hp⟩ := dispatch_ofWorld ⟨t, .after visitors⟩ ih (dispatchKey c role) c st
        (m.enter c)
      rw [if_neg hm]
      exact ⟨_, Observer.surround_after visitors _ c st hp⟩

/-- **In a walk with visitors on the way up the path is that of the open calls.** -/
theorem ancestor_path (fuel : Nat) (tree : Node) (visitors : OrderedMap (PathVisitor ω σ))
    (base : Option (Table ω σ)) (st : σ) (world : ω) :
    ancestor fuel tree visitors base st world =
        walkOpen (baseTable base) visitors fuel [] (.root tree) st none world ∧
      (∀ fuel c st role (m : Memory ω) r m',
        Walker.walk ⟨baseTable base, .after visitors⟩ fuel c st role m = some (r, m') →
          m'.path = m.path) ∧
      ∀ fuel c st role (m : Memory ω) e m', m.found = none →
        Walker.walk ⟨baseTable base, .after visitors⟩ (fuel + 1) c st role m =
            some (.error e, m') →
          ∃ inside, Walker.dispatch ⟨baseTable base, .after visitors⟩
              (Walker.walk ⟨baseTable base, .after visitors⟩ fuel) (dispatchKey c role) c st
              (m.enter c) = some (.error e, inside) ∧ m'.world = inside.world := by
  refine ⟨?_, ?_, ?_⟩
  · have hwalk := walk_eq_walkOpen (baseTable base) visitors fuel [] (.root tree) st none
      (.initial world) ⟨rfl, rfl⟩
    unfold ancestor Walker.run
    rw [hwalk, Option.map_map]
    unfold Run.ofWorld
    rw [Option.map_map]
    exact Option.map_id' ..
  · intro fuel c st role m r m' hw
    obtain ⟨p, hp⟩ := walk_ofWorld (baseTable base) visitors fuel c st role m
    rw [hp] at hw
    obtain ⟨q, -, hq⟩ := Option.map_eq_some_iff.1 hw
    obtain ⟨-, rfl⟩ := Prod.mk.inj hq
    rfl
  · intro fuel c st role m e m' hm hw
    obtain ⟨p, hp⟩ := dispatch_ofWorld ⟨baseTable base, .after visitors⟩
      (walk_ofWorld (baseTable base) visitors fuel) (dispatchKey c role) c st (m.enter c)
    unfold Walker.walk at hw
    rw [if_neg (by simp [hm]), Observer.surround_after visitors _ c st hp] at hw
    cases p with
    | none => cases hw
    | some p =>
      obtain ⟨r, w⟩ := p
      obtain ⟨hr, rfl⟩ := Prod.mk.inj (Option.some.inj hw)
      subst hr
      exact ⟨_, hp, rfl⟩

end Walk

end TreeWalk
