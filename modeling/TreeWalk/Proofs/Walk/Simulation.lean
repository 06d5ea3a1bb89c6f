/-
Walks that go side by side.

Two scripts match if they ask for the same walks in the same order and end in the same
way.  They may read and write their worlds as they like on the way, as long as the worlds
agree whenever a walk begins and at the end; what it means to agree is left open.

Where the handlers of two tables match, and what is done around a dispatch keeps the worlds
in agreement, the walks through the tables match as well: `Simulates.walk`.  The induction
is on the fuel, so one walk comes to an end with some fuel just when the other does.
-/
import TreeWalk.Walk.Drivers

namespace TreeWalk

variable {ω ω₁ ω₂ σ α : Type}

/-! ### Scripts side by side -/

/-- Two scripts, in worlds of their own, that ask for the same walks and end in the same way, with
worlds that agree each time. -/
inductive Script.Matches (agree : ω₁ → ω₂ → Prop) :
    ω₁ → ω₂ → Script ω₁ σ α → Script ω₂ σ α → Prop where
  | done {w : ω₁} {v : ω₂} (h : agree w v) (r : Except WalkError α) :
    Matches agree w v (.done r) (.done r)
  | readLeft {w : ω₁} {v : ω₂} {next : ω₁ → Script ω₁ σ α} {t : Script ω₂ σ α}
    (h : Matches agree w v (next w) t) : Matches agree w v (.read next) t
  | readRight {w : ω₁} {v : ω₂} {s : Script ω₁ σ α} {next : ω₂ → Script ω₂ σ α}
    (h : Matches agree w v s (next v)) : Matches agree w v s (.read next)
  | writeLeft {w w' : ω₁} {v : ω₂} {next : Script ω₁ σ α} {t : Script ω₂ σ α}
    (h : Matches agree w' v next t) : Matches agree w v (.write w' next) t
  | writeRight {w : ω₁} {v v' : ω₂} {s : Script ω₁ σ α} {next : Script ω₂ σ α}
    (h : Matches agree w v' s next) : Matches agree w v s (.write v' next)
  | keys {w : ω₁} {v : ω₂} {next : List String → Script ω₁ σ α}
    {next' : List String → Script ω₂ σ α}
    (h : ∀ ks, Matches agree w v (next ks) (next' ks)) :
    Matches agree w v (.keys next) (.keys next')
  | walk {w : ω₁} {v : ω₂} (h : agree w v) (c : Cursor) (st : σ) (role : Option Category)
    {next : Outcome → Script ω₁ σ α} {next' : Outcome → Script ω₂ σ α}
    (hnext : ∀ r w v, agree w v → Matches agree w v (next r) (next' r)) :
    Matches agree w v (.walk c st role next) (.walk c st role next')

/-- A script matches itself in one and the same world. -/
theorem Script.Matches.refl (w : ω) (s : Script ω σ α) : Matches Eq w w s s := by
  induction s generalizing w with
  | done r => exact .done rfl r
  | read next ih => exact .readLeft (.readRight (ih w w))
  | write w' next ih => exact .writeLeft (.writeRight (ih w'))
  | keys next ih => exact .keys fun ks => ih ks w
  | walk c st role next ih =>
    refine .walk rfl c st role ?_
    rintro r w _ rfl
    exact ih r w

namespace Memory

/-- What a walk keeps for itself: its path and what it has found. -/
def kept (m : Memory ω) : List Cursor × Option Cursor := (m.path, m.found)

/-- The worlds agree, and so does what the walks keep for themselves. -/
structure Agree (agree : ω₁ → ω₂ → Prop)
    (keep : List Cursor × Option Cursor → List Cursor × Option Cursor → Prop)
    (m : Memory ω₁) (n : Memory ω₂) : Prop where
  world : agree m.world n.world
  kept : keep m.kept n.kept

end Memory

/-- Two runs that come to the same, with related memories, or both to nothing. -/
inductive Run.Related (related : Memory ω₁ → Memory ω₂ → Prop) : Run ω₁ α → Run ω₂ α → Prop where
  | unfinished : Related related none none
  | finished (r : Except WalkError α) {m : Memory ω₁} {n : Memory ω₂} (h : related m n) :
    Related related (some (r, m)) (some (r, n))

variable {related : Memory ω₁ → Memory ω₂ → Prop}

theorem Run.Related.cases {p : Run ω₁ α} {q : Run ω₂ α} (h : Run.Related related p q) :
    p = none ∧ q = none ∨ ∃ r m n, p = some (r, m) ∧ q = some (r, n) ∧ related m n := by
  cases h with
  | unfinished => exact .inl ⟨rfl, rfl⟩
  | finished r h => exact .inr ⟨r, _, _, rfl, rfl, h⟩

variable {agree : ω₁ → ω₂ → Prop}
  {keep : List Cursor × Option Cursor → List Cursor × Option Cursor → Prop}

/-- **Scripts that match run to related ends**, given walks that do. -/
theorem Script.Matches.exec {walk₁ : Cursor → σ → Option Category → Memory ω₁ → Run ω₁ Unit}
    {walk₂ : Cursor → σ → Option Category → Memory ω₂ → Run ω₂ Unit}
    (hwalk : ∀ c st role m n, Memory.Agree agree keep m n →
      Run.Related (Memory.Agree agree keep) (walk₁ c st role m) (walk₂ c st role n))
    (ks : List String) {w : ω₁} {v : ω₂} {s : Script ω₁ σ α} {t : Script ω₂ σ α}
    (h : Matches agree w v s t) {m : Memory ω₁} {n : Memory ω₂} (hw : m.world = w)
    (hv : n.world = v) (hkept : keep m.kept n.kept) :
    Run.Related (Memory.Agree agree keep) (s.exec walk₁ ks m) (t.exec walk₂ ks n) := by
  induction h generalizing m n with
  | done h r =>
    subst hw hv
    exact .finished r ⟨h, hkept⟩
  | readLeft h ih =>
    subst hw
    exact ih rfl hv hkept
  | readRight h ih =>
    subst hv
    exact ih hw rfl hkept
  | @writeLeft w w' v next t h ih => exact ih (m := { m with world := w' }) rfl hv hkept
  | @writeRight w v v' s next h ih => exact ih (n := { n with world := v' }) hw rfl hkept
  | keys h ih => exact ih ks hw hv hkept
  | walk h c st role hnext ih =>
    subst hw hv
    rcases (hwalk c st role m n ⟨h, hkept⟩).cases with
      ⟨hp, hq⟩ | ⟨r, m', n', hp, hq, hagree⟩
    · rw [Script.exec, Script.exec, hp, hq]
      exact .unfinished
    · rw [Script.exec, Script.exec, hp, hq]
      exact ih r m'.world n'.world hagree.world rfl rfl hagree.kept

/-- A search goes side by side with another for the same target whose test gives the same answers. -/
theorem Observer.related_search {test₁ : Test ω₁} {test₂ : Test ω₂}
    (htest : ∀ key c w v, agree w v →
      (test₁ key c w).1 = (test₂ key c v).1 ∧ agree (test₁ key c w).2 (test₂ key c v).2)
    (target : Target) (key : String) (c : Cursor) (st : σ) {d : Memory ω₁ → Run ω₁ Unit}
    {e : Memory ω₂ → Run ω₂ Unit}
    (hd : ∀ m n, Memory.Agree agree Eq m n → Run.Related (Memory.Agree agree Eq) (d m) (e n))
    (m : Memory ω₁) (n : Memory ω₂) (hm : Memory.Agree agree Eq m n) :
    Run.Related (Memory.Agree agree Eq) ((search test₁ target).surround key c st d m)
      ((search test₂ target).surround key c st e n) := by
  have hdispatched : Run.Related (Memory.Agree agree Eq)
      (if target.covers c.node then d m else some (.ok (), m))
      (if target.covers c.node then e n else some (.ok (), n)) := by
    split
    · exact hd m n hm
    · exact .finished _ hm
  rw [surround, surround]
  rcases hdispatched.cases with ⟨hp, hq⟩ | ⟨r, m', n', hp, hq, hm'⟩
  · rw [hp, hq]
    exact .unfinished
  · rw [hp, hq]
    cases r with
    | error err => exact .finished _ hm'
    | ok u =>
      obtain ⟨w, path, found⟩ := m'
      obtain ⟨v, path', found'⟩ := n'
      obtain ⟨hworld, hkept⟩ := hm'
      obtain ⟨rfl, rfl⟩ := Prod.mk.inj hkept
      obtain ⟨hanswer, hafter⟩ := htest key c w v hworld
      show Run.Related _ (if _ then _ else _) (if _ then _ else _)
      split
      · refine .finished _ ⟨hafter, ?_⟩
        show (path, if (test₁ key c w).1 then some c else none) =
          (path, if (test₂ key c v).1 then some c else none)
        rw [hanswer]
      · exact .finished _ ⟨hworld, rfl⟩

/-! ### Walks side by side -/

/-- What makes the walks of one walker match those of another. -/
structure Walker.Simulates (agree : ω₁ → ω₂ → Prop)
    (keep : List Cursor × Option Cursor → List Cursor × Option Cursor → Prop)
    (a : Walker ω₁ σ) (b : Walker ω₂ σ) : Prop where
  keys : a.table.keys = b.table.keys
  handlers : ∀ key, Option.Rel
    (fun g h => ∀ c st w v, agree w v → Script.Matches agree w v (g.run c st) (h.run c st))
    (a.table.get? key) (b.table.get? key)
  found : ∀ {p q}, keep p q → p.2.isSome = q.2.isSome
  surround : ∀ key c st {d : Memory ω₁ → Run ω₁ Unit} {e : Memory ω₂ → Run ω₂ Unit},
    (∀ m n, Memory.Agree agree keep m n → Run.Related (Memory.Agree agree keep) (d m) (e n)) →
      ∀ m n, Memory.Agree agree keep m n →
        Run.Related (Memory.Agree agree keep) (a.observer.surround key c st d m)
          (b.observer.surround key c st e n)

/-- A table made from another, handler by handler, matches it if each handler matches the one that
it is made from. -/
theorem Table.rel_mapValues {f : String → Handler ω₂ σ → Handler ω₁ σ}
    (hf : ∀ key h c st w v, agree w v → Script.Matches agree w v ((f key h).run c st) (h.run c st))
    (t : Table ω₂ σ) (key : String) :
    Option.Rel
      (fun g h => ∀ c st w v, agree w v → Script.Matches agree w v (g.run c st) (h.run c st))
      (OrderedMap.get? (t.mapValues f) key) (t.get? key) := by
  rw [OrderedMap.get?_mapValues]
  cases t.get? key with
  | none => exact .none
  | some h => exact .some (hf key h)

namespace Walker.Simulates

variable {a : Walker ω₁ σ} {b : Walker ω₂ σ}

/-- Dispatches to the handlers of one key match. -/
theorem dispatch (h : Simulates agree keep a b)
    {walk₁ : Cursor → σ → Option Category → Memory ω₁ → Run ω₁ Unit}
    {walk₂ : Cursor → σ → Option Category → Memory ω₂ → Run ω₂ Unit}
    (hwalk : ∀ c st role m n, Memory.Agree agree keep m n →
      Run.Related (Memory.Agree agree keep) (walk₁ c st role m) (walk₂ c st role n))
    (key : String) (c : Cursor) (st : σ) (m : Memory ω₁) (n : Memory ω₂)
    (hm : Memory.Agree agree keep m n) :
    Run.Related (Memory.Agree agree keep) (a.dispatch walk₁ key c st m)
      (b.dispatch walk₂ key c st n) := by
  have hkey := h.handlers key
  rw [Walker.dispatch, Walker.dispatch]
  revert hkey
  cases a.table.get? key with
  | none =>
    cases b.table.get? key with
    | none => exact fun _ => .finished _ hm
    | some handler => exact fun hkey => nomatch hkey
  | some handler =>
    cases b.table.get? key with
    | none => exact fun hkey => nomatch hkey
    | some handler' =>
      rintro (hscripts | _)
      rw [h.keys]
      exact (hscripts c st m.world n.world hm.world).exec hwalk _ rfl rfl hm.kept

/-- **Walks of matching walkers match**, whatever the fuel. -/
theorem walk (h : Simulates agree keep a b) (fuel : Nat) (c : Cursor) (st : σ)
    (role : Option Category) (m : Memory ω₁) (n : Memory ω₂) (hm : Memory.Agree agree keep m n) :
    Run.Related (Memory.Agree agree keep) (a.walk fuel c st role m) (b.walk fuel c st role n) := by
  induction fuel generalizing c st role m n with
  | zero => exact .unfinished
  | succ fuel ih =>
    have hfound : m.found.isSome = n.found.isSome := h.found hm.kept
    rw [Walker.walk, Walker.walk, hfound]
    split
    · exact .finished _ hm
    · exact h.surround _ c st (h.dispatch ih _ c st) m n hm

/-- Walks of a tree by matching walkers come to the same outcome, or both to nothing. -/
theorem run (h : Simulates agree keep a b) (hkeep : keep ([], none) ([], none)) (fuel : Nat)
    (tree : Node) (st : σ) {w : ω₁} {v : ω₂} (hw : agree w v) :
    a.run fuel tree st w = none ∧ b.run fuel tree st v = none ∨
      ∃ r m n, a.run fuel tree st w = some (r, m.world, m.found) ∧
        b.run fuel tree st v = some (r, n.world, n.found) ∧ Memory.Agree agree keep m n := by
  have hwalk := h.walk fuel (.root tree) st none (.initial w) (.initial v) ⟨hw, hkeep⟩
  rcases hwalk.cases with ⟨ha, hb⟩ | ⟨r, m, n, ha, hb, hagree⟩
  · exact .inl ⟨by rw [Walker.run, ha]; rfl, by rw [Walker.run, hb]; rfl⟩
  · exact .inr ⟨r, m, n, by rw [Walker.run, ha]; rfl, by rw [Walker.run, hb]; rfl, hagree⟩

end Walker.Simulates

end TreeWalk
