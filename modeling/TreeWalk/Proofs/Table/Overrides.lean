/-
Overrides on overrides.

`Table.layer` takes its keys from the base alone, and under each of them the handler of the
overrides where they have one.  A table is known by those two views, its keys in order and
the handler under each, so a law of overrides is a matter of looking up one key:
`get?_layer_layer` says whose handler that is when overrides lie over overrides.

Overrides over overrides are overrides again, `layer_layer`: those of the upper layer put over
those of the lower one.  What a layer has under keys that the base lacks is not seen from
above, since a layer has the keys of what it lies over, `layerAll_filterKeys`.
-/
import TreeWalk.Proofs.Table.Equality

namespace TreeWalk

namespace Table

variable {ω σ : Type}

/-! ### One layer -/

/-- Nothing is overridden by no overrides. -/
theorem layer_empty (t : Table ω σ) : layer .empty t = t := by
  refine OrderedMap.ext_get? (keys_layer .empty t) ?_
  intro key
  rw [get?_layer]
  exact Option.map_id' ..

/-- A layer depends on nothing but what the overrides have under the keys of the base. -/
theorem layer_congr {o o' b : Table ω σ} (h : ∀ key ∈ b.keys, o.get? key = o'.get? key) :
    layer o b = layer o' b := by
  refine OrderedMap.ext_get? ?_ ?_
  · rw [keys_layer, keys_layer]
  · intro key
    rw [get?_layer, get?_layer]
    by_cases hkey : key ∈ b.keys
    · rw [h key hkey]
    · rw [(OrderedMap.get?_eq_none_iff b key).2 hkey, Option.map_none, Option.map_none]

theorem layer_filterKeys {p : String → Bool} {b : Table ω σ} (hp : ∀ key ∈ b.keys, p key = true)
    (o : Table ω σ) : layer (o.filterKeys p) b = layer o b := by
  refine layer_congr ?_
  intro key hkey
  rw [OrderedMap.get?_filterKeys, if_pos (hp key hkey)]

/-! ### Layers on layers -/

/-- Where overrides lie over overrides, the upper ones come first, then the lower ones, then the
base. -/
theorem get?_layer_layer (b o₁ o₂ : Table ω σ) (key : String) :
    (layer o₂ (layer o₁ b)).get? key =
      (b.get? key).map fun h => ((o₂.get? key).or (o₁.get? key)).getD h := by
  rw [get?_layer, get?_layer, Option.map_map]
  cases o₂.get? key <;> rfl

/-- **Overrides over overrides are overrides**: the lower ones, with the upper ones inserted over
them. -/
theorem layer_layer (b o₁ o₂ : Table ω σ) :
    layer o₂ (layer o₁ b) = layer (o₁.insertAll o₂.entries) b := by
  refine OrderedMap.ext_get? ?_ ?_
  · rw [keys_layer, keys_layer, keys_layer]
  · intro key
    rw [get?_layer_layer, get?_layer, OrderedMap.get?_insertAll_entries]

/-- The same overrides once more change nothing. -/
theorem layer_self (b o : Table ω σ) : layer o (layer o b) = layer o b := by
  rw [layer_layer]
  refine layer_congr ?_
  intro key _
  rw [OrderedMap.get?_insertAll_entries, Option.or_self]

/-- Overrides for different keys can be laid in either order. -/
theorem layer_comm {o₁ o₂ : Table ω σ} (h : ∀ key ∈ o₁.keys, key ∉ o₂.keys) (b : Table ω σ) :
    layer o₂ (layer o₁ b) = layer o₁ (layer o₂ b) := by
  rw [layer_layer, layer_layer]
  refine layer_congr ?_
  intro key _
  rw [OrderedMap.get?_insertAll_entries, OrderedMap.get?_insertAll_entries]
  by_cases hkey : key ∈ o₁.keys
  · rw [(OrderedMap.get?_eq_none_iff o₂ key).2 (h key hkey), Option.none_or, Option.or_none]
  · rw [(OrderedMap.get?_eq_none_iff o₁ key).2 hkey, Option.none_or, Option.or_none]

/-- Lays overrides over a base, one after another. -/
def layerAll (b : Table ω σ) (os : List (Table ω σ)) : Table ω σ := os.foldl (fun t o => layer o t) b

/-- At no layer does it matter what is there under keys that the base lacks. -/
theorem layerAll_filterKeys {p : String → Bool} {b : Table ω σ} (hp : ∀ key ∈ b.keys, p key = true)
    (os : List (Table ω σ)) : layerAll b (os.map (·.filterKeys p)) = layerAll b os := by
  induction os generalizing b with
  | nil => rfl
  | cons o os ih =>
    have hlayer : ∀ key ∈ (layer o b).keys, p key = true := by
      rw [keys_layer]
      exact hp
    show layerAll (layer (o.filterKeys p) b) (os.map (·.filterKeys p)) = layerAll (layer o b) os
    rw [layer_filterKeys hp, ih hlayer]

/-- **How overrides compose.**

Lay one table of overrides over a base and another over that.  The result has the keys of the
base in its order, and under each the very handler of the upper overrides if they have the key,
else of the lower ones if they do, else of the base; it is what the lower overrides make of the
base at once when the upper ones have been inserted over them.  So the same overrides once more
change nothing, overrides without a key in common can be laid in either order, whatever overrides
have under keys that the base lacks has no effect at any layer, and no overrides give back the
base. -/
theorem overrides_compose (b o₁ o₂ : Table ω σ) :
    (layer o₂ (layer o₁ b)).keys = b.keys ∧
      (∀ key, (layer o₂ (layer o₁ b)).get? key =
        (b.get? key).map fun h => ((o₂.get? key).or (o₁.get? key)).getD h) ∧
      layer o₂ (layer o₁ b) = layer (o₁.insertAll o₂.entries) b ∧
      layer o₁ (layer o₁ b) = layer o₁ b ∧
      ((∀ key ∈ o₁.keys, key ∉ o₂.keys) → layer o₂ (layer o₁ b) = layer o₁ (layer o₂ b)) ∧
      (∀ os, layerAll b (os.map (·.filterKeys b.contains)) = layerAll b os) ∧
      layer .empty b = b ∧ equal (layer .empty b) b = true := by
  have hkeys : (layer o₂ (layer o₁ b)).keys = b.keys := by
    rw [keys_layer, keys_layer]
  have hempty : equal (layer .empty b) b = true := by
    rw [layer_empty]
    exact equal_refl b
  refine ⟨hkeys, get?_layer_layer b o₁ o₂, layer_layer b o₁ o₂, layer_self b o₁, ?_, ?_,
    layer_empty b, hempty⟩
  · intro hapart
    exact layer_comm hapart b
  · intro os
    exact layerAll_filterKeys (fun key => (b.contains_iff key).2) os

/-- A table of handlers that do nothing, told apart by the numbers from `first` on. -/
def idle (first : Nat) (keys : List String) : Table Unit Unit :=
  ofProcedures first (keys.map fun key => (key, fun _ _ => pure ()))

/-- A base for names, literals and what is around them. -/
def bare : Table Unit Unit := idle 0 ["Program", "Identifier", "Literal"]

/-- Overrides for names, with a misspelled key. -/
def onNames : Table Unit Unit := idle 3 ["Idenitfier", "Identifier"]

/-- Overrides for literals, with a misspelled key. -/
def onLiterals : Table Unit Unit := idle 5 ["Literal", "Litteral"]

/-- Overrides for names and overrides for literals, in either order. -/
theorem overrides_compose_idle :
    (∀ key ∈ onNames.keys, key ∉ onLiterals.keys) ∧
      layer onLiterals (layer onNames bare) = layer onNames (layer onLiterals bare) ∧
      (layer onLiterals (layer onNames bare)).entries.map (fun (key, h) => (key, h.id)) =
        [("Program", 0), ("Identifier", 4), ("Literal", 5)] := by
  have hapart : ∀ key ∈ onNames.keys, key ∉ onLiterals.keys := by decide
  obtain ⟨-, -, -, -, hcomm, -⟩ := overrides_compose bare onNames onLiterals
  exact ⟨hapart, hcomm hapart, by decide⟩

end Table

end TreeWalk
