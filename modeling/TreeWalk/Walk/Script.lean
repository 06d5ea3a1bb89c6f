/-
What a handler does.

A handler is given a node and a state and from there on may do four things: look at
and change the world around the walk, ask which keys the table of the walk has, walk
nodes on, and end.  A script writes those down as a tree of choices.  Since nothing
else can be written, a handler has no access to what the walk itself keeps, such as
the path to the current node.

`ω` is the world, `σ` the state handed down the tree.  A failed step ends a script
unless it is tried, so scripts form a monad that stops at the first failure.
-/
import TreeWalk.Walk.Category
import TreeWalk.Walk.Cursor
import TreeWalk.Walk.Error

namespace TreeWalk

/-- The steps of a handler, ending with a value of type `α` or a failure. -/
inductive Script (ω σ α : Type) where
  /-- Ends with a result. -/
  | done (result : Except WalkError α)
  /-- Goes on with what the world is now. -/
  | read (next : ω → Script ω σ α)
  /-- Replaces the world. -/
  | write (world : ω) (next : Script ω σ α)
  /-- Goes on with the keys of the walk's table, in their order. -/
  | keys (next : List String → Script ω σ α)
  /-- Walks a node, under a category or under its own type, and goes on with the outcome. -/
  | walk (target : Cursor) (state : σ) (role : Option Category) (next : Outcome → Script ω σ α)

namespace Script

variable {ω σ α β : Type}

/-- One script after another; a failure of the first ends both. -/
def bind : Script ω σ α → (α → Script ω σ β) → Script ω σ β
  | done (.ok a), f => f a
  | done (.error e), _ => done (.error e)
  | read next, f => read fun w => (next w).bind f
  | write w next, f => write w (next.bind f)
  | keys next, f => keys fun ks => (next ks).bind f
  | walk c st role next, f => walk c st role fun r => (next r).bind f

instance : Monad (Script ω σ) where
  pure a := done (.ok a)
  bind := bind

theorem bind_done (s : Script ω σ α) : s.bind (fun a => done (.ok a)) = s := by
  induction s with
  | done r => cases r <;> rfl
  | read next ih => exact congrArg read (funext ih)
  | write w next ih => exact congrArg (write w) ih
  | keys next ih => exact congrArg keys (funext ih)
  | walk c st role next ih => exact congrArg (walk c st role) (funext ih)

theorem bind_bind {γ : Type} (s : Script ω σ α) (f : α → Script ω σ β) (g : β → Script ω σ γ) :
    (s.bind f).bind g = s.bind fun a => (f a).bind g := by
  induction s with
  | done r => cases r <;> rfl
  | read next ih => exact congrArg read (funext ih)
  | write w next ih => exact congrArg (write w) ih
  | keys next ih => exact congrArg keys (funext ih)
  | walk c st role next ih => exact congrArg (walk c st role) (funext ih)

instance : LawfulMonad (Script ω σ) :=
  .mk' _ bind_done (fun _ _ => rfl) bind_bind

/-- Runs a script to its end and hands on its result, failures included. -/
def attempt : Script ω σ α → Script ω σ (Except WalkError α)
  | done r => done (.ok r)
  | read next => read fun w => (next w).attempt
  | write w next => write w next.attempt
  | keys next => keys fun ks => (next ks).attempt
  | walk c st role next => walk c st role fun r => (next r).attempt

/-- Ends with a failure. -/
def fail (e : WalkError) : Script ω σ α := done (.error e)

/-- Ends because the node has not the expected shape. -/
def malformed (expected : String) (n : Node) : Script ω σ α :=
  fail (.malformedNode expected n.type)

/-- The world as it is now. -/
def world : Script ω σ ω := read fun w => done (.ok w)

/-- Changes the world. -/
def modify (f : ω → ω) : Script ω σ Unit := read fun w => write (f w) (done (.ok ()))

/-- Changes the world and hands on a value taken from it. -/
def modifyGet (f : ω → α × ω) : Script ω σ α :=
  read fun w =>
    match f w with
    | (a, w) => write w (done (.ok a))

/-- Walks a node and fails if that fails. -/
def go (c : Cursor) (st : σ) (role : Option Category) : Script ω σ Unit :=
  walk c st role done

/-- Walks nodes in turn, up to the first failure. -/
def goAll (cs : List Cursor) (st : σ) (role : Option Category) : Script ω σ Unit :=
  cs.forM fun c => go c st role

/-- Walks a node if there is one. -/
def goIfSome (c : Option Cursor) (st : σ) (role : Option Category) : Script ω σ Unit :=
  match c with
  | some c => go c st role
  | none => pure ()

end Script

end TreeWalk
