/-
Dispatch tables.

A table maps keys, which are the names of node types and categories, to handlers.
Handlers are told apart by identity: two that do the same are still different unless
they are one and the same, and a table built from another shares its handlers.
Tables are equal when they have the same keys and share every handler; the order of
the keys does not count.
-/
import TreeWalk.OrderedMap
import TreeWalk.Text.Quoted
import TreeWalk.Walk.Script

namespace TreeWalk

/-- How nodes under some key are walked, given the node and the state. -/
abbrev Procedure (ω σ : Type) := Cursor → σ → Script ω σ Unit

/-- A procedure with an identity of its own. -/
structure Handler (ω σ : Type) where
  id : Nat
  run : Procedure ω σ

/-- A table of handlers by key, in order of insertion. -/
abbrev Table (ω σ : Type) := OrderedMap (Handler ω σ)

namespace Table

variable {ω σ : Type}

/-- Whether both tables send the key to the very same handler. -/
def shares (a b : Table ω σ) (key : String) : Bool :=
  match a.get? key, b.get? key with
  | some g, some h => g.id == h.id
  | _, _ => false

/-- Whether two tables are equal: the same keys, and a shared handler under each. -/
def equal (a b : Table ω σ) : Bool :=
  a.size == b.size && a.keys.all fun key => shares a b key

/-- Lays overrides over a base: the keys of the base in its order, each with the override under
that key if there is one.  An override under a key that the base lacks has no effect. -/
def layer (overrides base : Table ω σ) : Table ω σ :=
  base.mapValues fun key h => (overrides.get? key).getD h

@[simp] theorem keys_layer (overrides base : Table ω σ) :
    (layer overrides base).keys = base.keys :=
  OrderedMap.keys_mapValues _ base

@[simp] theorem get?_layer (overrides base : Table ω σ) (key : String) :
    (layer overrides base).get? key =
      (base.get? key).map fun h => (overrides.get? key).getD h :=
  OrderedMap.get?_mapValues _ base key

/-- A layer has no handlers but those of the overrides and of the base. -/
theorem forall_get?_layer {P : Handler ω σ → Prop} {overrides base : Table ω σ}
    (ho : ∀ key h, overrides.get? key = some h → P h)
    (hb : ∀ key h, base.get? key = some h → P h) :
    ∀ key h, (layer overrides base).get? key = some h → P h := by
  intro key h hget
  rw [get?_layer, Option.map_eq_some_iff] at hget
  obtain ⟨g, hg, rfl⟩ := hget
  cases hover : overrides.get? key with
  | none => exact hb key g hg
  | some h => exact ho key h hover

/-- A table of procedures, their identities counted up from `first`. -/
def ofProcedures (first : Nat) (ps : List (String × Procedure ω σ)) : Table ω σ :=
  OrderedMap.ofList (ps.mapIdx fun i (key, p) => (key, ⟨first + i, p⟩))

/-- The keys of a table as a message shows them. -/
def text (t : Table ω σ) : String :=
  let keys := ", ".intercalate (t.keys.map Text.quoted)
  "Table \x7b keys: [" ++ keys ++ "] \x7d"

end Table

end TreeWalk
