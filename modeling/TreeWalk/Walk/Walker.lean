/-
Walks.

A walk hands nodes to the handlers of a table; a handler walks further nodes through
the same table, and so on down.  What differs between kinds of walk is what is done
around each dispatch: nothing, a visit before it, a visit after it with the path to
the node, or a test in search of a node.

Handlers may walk their own node again, or any other, as often as they like, so not
every walk ends.  The fuel is the number of walks that may be open inside one another;
`none` says that it did not suffice, and never that something failed.
-/
import TreeWalk.Walk.Table

namespace TreeWalk

/-! ### What a walk keeps -/

/-- The world around a walk, and what the walk keeps for itself. -/
structure Memory (ω : Type) where
  world : ω
  /-- The nodes of the open walks, the innermost first, each once for as long as it stays. -/
  path : List Cursor
  /-- The node a search has settled on. -/
  found : Option Cursor

namespace Memory

variable {ω : Type}

/-- What a walk starts with. -/
def initial (world : ω) : Memory ω := ⟨world, [], none⟩

/-- Whether the node is the innermost one on the path already. -/
def onTop (m : Memory ω) (c : Cursor) : Bool :=
  match m.path with
  | top :: _ => top.samePlace c
  | [] => false

/-- Enters a node. -/
def push (m : Memory ω) (c : Cursor) : Memory ω := { m with path := c :: m.path }

/-- Leaves the innermost node. -/
def pop (m : Memory ω) : Memory ω := { m with path := m.path.tail }

end Memory

/-! ### What is done around a dispatch -/

/-- Told of a node before it is dispatched. -/
abbrev Visitor (ω σ : Type) := Cursor → σ → ω → ω

/-- Told of a node after its dispatch, with the path from the root to it. -/
abbrev PathVisitor (ω σ : Type) := Cursor → σ → List Cursor → ω → ω

/-- Whether the node is one that a search is for, under the key of a dispatch. -/
abbrev Test (ω : Type) := String → Cursor → ω → Bool × ω

/-- Where a search looks. -/
inductive Target where
  /-- At a node whose offsets are the given ones, where given. -/
  | offsets (start stop : Option Offset)
  /-- Around a position. -/
  | position (pos : Offset)
deriving DecidableEq

namespace Target

/-- Whether the search goes on below a node. -/
def covers (t : Target) (n : Node) : Bool :=
  match t with
  | offsets start stop =>
    match n.span? with
    | some r => start.all (r.start ≤ ·) && stop.all (· ≤ r.stop)
    | none => start.isNone && stop.isNone
  | position pos => n.span?.any (·.touches pos)

/-- A search without offsets goes everywhere. -/
theorem covers_open (n : Node) : (offsets none none).covers n = true := by
  rw [covers]
  cases n.span? <;> rfl

/-- Whether the node itself may be what is looked for. -/
def fits (t : Target) (n : Node) : Bool :=
  match t with
  | offsets start stop =>
    start.all (fun s => n.start == some s) && stop.all (fun e => n.stop == some e)
  | position pos => n.span?.any (·.touches pos)

end Target

/-- What a walk does around each dispatch. -/
inductive Observer (ω σ : Type) where
  | silent
  | before (visitors : OrderedMap (Visitor ω σ))
  | after (visitors : OrderedMap (PathVisitor ω σ))
  | search (test : Test ω) (target : Target)

/-! ### Running scripts and walks -/

/-- What comes of a script or a walk, unless the fuel did not suffice. -/
abbrev Run (ω α : Type) := Option (Except WalkError α × Memory ω)

/-- Runs a script, given what becomes of the walks it asks for. -/
def Script.exec {ω σ α : Type} (walk : Cursor → σ → Option Category → Memory ω → Run ω Unit)
    (keys : List String) : Script ω σ α → Memory ω → Run ω α
  | .done r, m => some (r, m)
  | .read next, m => (next m.world).exec walk keys m
  | .write w next, m => next.exec walk keys { m with world := w }
  | .keys next, m => (next keys).exec walk keys m
  | .walk c st role next, m =>
    match walk c st role m with
    | none => none
    | some (r, m') => (next r).exec walk keys m'

namespace Script

variable {ω σ α β : Type} {walk : Cursor → σ → Option Category → Memory ω → Run ω Unit}
  {keys : List String}

/-- Running one script after another is running the second with what the first left behind. -/
theorem exec_bind (s : Script ω σ α) (f : α → Script ω σ β) (m : Memory ω) :
    (s.bind f).exec walk keys m =
      (s.exec walk keys m).bind fun
        | (.ok a, m) => (f a).exec walk keys m
        | (.error e, m) => some (.error e, m) := by
  induction s generalizing m with
  | done r => cases r <;> rfl
  | read next ih => exact ih m.world m
  | write w next ih => exact ih { m with world := w }
  | keys next ih => exact ih keys m
  | walk c st role next ih =>
    simp only [bind, exec]
    cases walk c st role m with
    | none => rfl
    | some p => exact ih p.1 p.2

/-- A script whose result is handed on does what it does, and does not fail. -/
theorem exec_attempt (s : Script ω σ α) (m : Memory ω) :
    s.attempt.exec walk keys m = (s.exec walk keys m).map fun (r, m) => (.ok r, m) := by
  induction s generalizing m with
  | done r => rfl
  | read next ih => exact ih m.world m
  | write w next ih => exact ih { m with world := w }
  | keys next ih => exact ih keys m
  | walk c st role next ih =>
    simp only [attempt, exec]
    cases walk c st role m with
    | none => rfl
    | some p => exact ih p.1 p.2

/-- Walking on is what the walk makes of it. -/
theorem exec_go (c : Cursor) (st : σ) (role : Option Category) (m : Memory ω) :
    (go c st role).exec walk keys m = walk c st role m := by
  simp only [go, exec]
  cases walk c st role m <;> rfl

/-- A script that runs with some walks runs the same with walks that come to no less. -/
theorem exec_mono {walk' : Cursor → σ → Option Category → Memory ω → Run ω Unit}
    (h : ∀ {c st role m p}, walk c st role m = some p → walk' c st role m = some p)
    {s : Script ω σ α} {m : Memory ω} {p : Except WalkError α × Memory ω}
    (hs : s.exec walk keys m = some p) : s.exec walk' keys m = some p := by
  induction s generalizing m with
  | done r => exact hs
  | read next ih => exact ih _ hs
  | write w next ih => exact ih hs
  | keys next ih => exact ih _ hs
  | walk c st role next ih =>
    simp only [exec] at hs ⊢
    cases hw : walk c st role m with
    | none => simp [hw] at hs
    | some q =>
      rw [hw] at hs
      rw [h hw]
      exact ih _ hs

end Script

/-- The key that a node is dispatched under: its category's, or that of its own type. -/
def dispatchKey (c : Cursor) : Option Category → String
  | some role => role.name
  | none => c.node.typeName

namespace Observer

variable {ω σ : Type}

/-- Surrounds a dispatch with what the walk does there. -/
def surround (obs : Observer ω σ) (key : String) (c : Cursor) (st : σ)
    (dispatch : Memory ω → Run ω Unit) (m : Memory ω) : Run ω Unit :=
  match obs with
  | silent => dispatch m
  | before visitors =>
    match visitors.get? key with
    | some visit => dispatch { m with world := visit c st m.world }
    | none => dispatch m
  | after visitors =>
    let entered := !m.onTop c
    match dispatch (if entered then m.push c else m) with
    | none => none
    | some (r, m) =>
      let m :=
        match r, visitors.get? key with
        | .ok _, some visit => { m with world := visit c st m.path.reverse m.world }
        | _, _ => m
      some (r, if entered then m.pop else m)
  | search test target =>
    match (if target.covers c.node then dispatch m else some (.ok (), m)) with
    | some (.ok _, m) =>
      if m.found.isNone && target.fits c.node then
        let (accepted, world) := test key c m.world
        some (.ok (), { m with world, found := if accepted then some c else none })
      else some (.ok (), m)
    | failed => failed

end Observer

/-- A table together with what is done around each dispatch. -/
structure Walker (ω σ : Type) where
  table : Table ω σ
  observer : Observer ω σ

namespace Walker

variable {ω σ : Type}

/-- Hands a node to the handler of a key, given what becomes of further walks. -/
def dispatch (w : Walker ω σ) (walk : Cursor → σ → Option Category → Memory ω → Run ω Unit)
    (key : String) (c : Cursor) (st : σ) (m : Memory ω) : Run ω Unit :=
  match w.table.get? key with
  | some h => (h.run c st).exec walk w.table.keys m
  | none => some (.error (.unknownType key), m)

/-- Walks a node under a category or under its own type.  Once a search has found its node,
walking on does nothing. -/
def walk (w : Walker ω σ) : Nat → Cursor → σ → Option Category → Memory ω → Run ω Unit
  | 0, _, _, _, _ => none
  | fuel + 1, c, st, role, m =>
    if m.found.isSome then some (.ok (), m)
    else
      let key := dispatchKey c role
      w.observer.surround key c st (w.dispatch (w.walk fuel) key c st) m

/-- Walks a tree from its root, and gives the outcome, the world afterwards and the node that a
search found. -/
def run (w : Walker ω σ) (fuel : Nat) (tree : Node) (st : σ) (world : ω) :
    Option (Outcome × ω × Option Cursor) :=
  (w.walk fuel (.root tree) st none (.initial world)).map fun (r, m) => (r, m.world, m.found)

end Walker

end TreeWalk
