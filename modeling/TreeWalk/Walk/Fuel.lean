/-
Fuel only bounds a walk.

`Walker.walk` recurses on a `Nat` fuel, which is how many dispatches may be open inside
each other.  A walk that ends within its fuel ends in the same way with more, so the
fuel is no part of what a walk means: `walk_mono` says so for a walk below any place
in a tree, and `run_mono` for a walk from the root.

The step is that nothing done around a dispatch, and nothing a script does between the
walks that it asks for, looks at whether those walks had enough: where one of them ends,
the next step is the same.
-/
import TreeWalk.Walk.Walker

namespace TreeWalk

variable {ω σ : Type}

/-- What surrounds a dispatch comes to the same with a dispatch that comes to no less. -/
theorem Observer.surround_mono {obs : Observer ω σ} {key : String} {c : Cursor} {st : σ}
    {dispatch dispatch' : Memory ω → Run ω Unit}
    (h : ∀ {m p}, dispatch m = some p → dispatch' m = some p)
    {m : Memory ω} {p : Except WalkError Unit × Memory ω}
    (hs : obs.surround key c st dispatch m = some p) :
    obs.surround key c st dispatch' m = some p := by
  cases obs with
  | silent => exact h hs
  | before visitors =>
    simp only [surround] at hs ⊢
    split at hs <;> exact h hs
  | after visitors =>
    simp only [surround] at hs ⊢
    split at hs
    · cases hs
    · rename_i hd
      rw [h hd]
      exact hs
  | search test target =>
    by_cases hc : target.covers c.node
    · simp only [surround, hc, if_true] at hs ⊢
      cases hd : dispatch m with
      | none => simp [hd] at hs
      | some q =>
        rw [hd] at hs
        rw [h hd]
        exact hs
    · simpa only [surround, hc, Bool.false_eq_true, if_false] using hs

namespace Walker

variable {w : Walker ω σ}

/-- A dispatch comes to the same with walks that come to no less. -/
theorem dispatch_mono {walk walk' : Cursor → σ → Option Category → Memory ω → Run ω Unit}
    (h : ∀ {c st role m p}, walk c st role m = some p → walk' c st role m = some p)
    {key : String} {c : Cursor} {st : σ} {m : Memory ω} {p : Except WalkError Unit × Memory ω}
    (hd : w.dispatch walk key c st m = some p) : w.dispatch walk' key c st m = some p := by
  simp only [dispatch] at hd ⊢
  split at hd
  · exact Script.exec_mono h hd
  · exact hd

/-- **A walk that ends within its fuel ends in the same way with more.** -/
theorem walk_mono {fuel more : Nat} (hle : fuel ≤ more) {c : Cursor} {st : σ}
    {role : Option Category} {m : Memory ω} {p : Except WalkError Unit × Memory ω}
    (hw : w.walk fuel c st role m = some p) : w.walk more c st role m = some p := by
  induction fuel generalizing more c st role m p with
  | zero => cases hw
  | succ fuel ih =>
    obtain ⟨more, rfl⟩ : ∃ k, more = k + 1 := ⟨more - 1, by omega⟩
    by_cases hf : m.found.isSome
    · simpa only [walk, hf, if_true] using hw
    · simp only [walk, hf, Bool.false_eq_true, if_false] at hw ⊢
      have hle := Nat.le_of_succ_le_succ hle
      exact Observer.surround_mono (fun hd => dispatch_mono (fun hn => ih hle hn) hd) hw

/-- The same for a walk from the root. -/
theorem run_mono {fuel more : Nat} (hle : fuel ≤ more) {tree : Node} {st : σ} {world : ω}
    {r : Outcome × ω × Option Cursor} (hr : w.run fuel tree st world = some r) :
    w.run more tree st world = some r := by
  simp only [run, Option.map_eq_some_iff] at hr ⊢
  obtain ⟨p, hp, rfl⟩ := hr
  exact ⟨p, walk_mono hle hp, rfl⟩

end Walker

end TreeWalk
