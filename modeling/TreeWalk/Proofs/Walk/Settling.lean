/-
How a search settles.

Once the test of a search has accepted a node, the handlers around it are still running, and
each may go on walking nodes.  Nothing comes of that: a walk begins with a look at whether the
search has settled, and so does the test after a dispatch.  `Settles` says what that amounts
to for the calls made so far and the node found: either the test has accepted nothing and
nothing is found, or it has accepted the node that is found and was the last to be called.  A
dispatch, the test after it and every step of a handler keep that.

A search need not end, since handlers may walk their own node over and over; it is said of
such a search, too, that nothing is called after the test has accepted.  `searchTo` is the
search as far as it goes with walks inside one another no deeper than the fuel: it keeps the
memory where it is cut short.  Where it is not, it is the search itself, `walk_eq_searchTo`,
and with more fuel the calls only go on, `probes_prefix`, so all calls that a search ever makes
are among those of some `searchTo`.
-/
import TreeWalk.Proofs.Walk.Observation

namespace TreeWalk

variable {ω σ α : Type}

/-! ### Taking down what a search calls -/

/-- One call of a handler, or one of the test with its answer. -/
inductive Probe (σ : Type) where
  | handle (call : Call σ)
  | test (key : String) (cursor : Cursor) (accepted : Bool)

/-- Whether the call is one of the test that is answered with yes. -/
def Probe.accepts : Probe σ → Bool
  | handle _ => false
  | test _ _ accepted => accepted

/-- The handler of a key, taking down its calls. -/
def Handler.probed (key : String) (h : Handler ω σ) : Handler (ω × List (Probe σ)) σ where
  id := h.id
  run c st := .read fun (w, ps) => .write (w, ps ++ [.handle ⟨key, c, st⟩]) (h.run c st).beside

/-- The table with handlers that take down their calls. -/
def Table.probed (t : Table ω σ) : Table (ω × List (Probe σ)) σ := t.mapValues Handler.probed

/-- The test, taking down its calls and its answers. -/
def Test.probed (test : Test ω) : Test (ω × List (Probe σ)) := fun key c (w, ps) =>
  let (accepted, w) := test key c w
  (accepted, w, ps ++ [.test key c accepted])

/-- Taking down what is called does not change a search. -/
theorem simulates_probed (t : Table ω σ) (test : Test ω) (target : Target) :
    Walker.Simulates (fun p v => p.1 = v) Eq ⟨t.probed, .search test.probed target⟩
      ⟨t, .search test target⟩ where
  keys := OrderedMap.keys_mapValues _ t
  handlers := by
    refine Table.rel_mapValues ?_ t
    rintro key h c st ⟨w, ps⟩ _ rfl
    exact .readLeft (.writeLeft ((h.run c st).matches_beside w _))
  found hkept := by rw [hkept]
  surround key c st := by
    refine Observer.related_search ?_ target key c st
    rintro key c ⟨w, ps⟩ _ rfl
    exact ⟨rfl, rfl⟩

/-! ### Searches that are cut short -/

/-- Runs a script as far as it goes, given how far walks go: to its end, or to a walk that is cut
short. -/
def Script.execTo (walk : Cursor → σ → Option Category → Memory ω → Option Outcome × Memory ω)
    (keys : List String) :
    Script ω σ α → Memory ω → Option (Except WalkError α) × Memory ω
  | .done r, m => (some r, m)
  | .read next, m => (next m.world).execTo walk keys m
  | .write w next, m => next.execTo walk keys { m with world := w }
  | .keys next, m => (next keys).execTo walk keys m
  | .walk c st role next, m =>
    match walk c st role m with
    | (some r, m) => (next r).execTo walk keys m
    | (none, m) => (none, m)

/-- The test of a node after its dispatch, unless that failed or was cut short. -/
def Test.after (test : Test ω) (target : Target) (key : String) (c : Cursor) :
    Option Outcome × Memory ω → Option Outcome × Memory ω
  | (some (.ok _), m) =>
    if m.found.isNone && target.fits c.node then
      let (accepted, world) := test key c m.world
      (some (.ok ()), { m with world, found := if accepted then some c else none })
    else (some (.ok ()), m)
  | stopped => stopped

namespace Table

/-- Hands a node to the handler of a key, given how far walks go. -/
def dispatchTo (t : Table ω σ)
    (walk : Cursor → σ → Option Category → Memory ω → Option Outcome × Memory ω) (key : String)
    (c : Cursor) (st : σ) (m : Memory ω) : Option Outcome × Memory ω :=
  match t.get? key with
  | some h => (h.run c st).execTo walk t.keys m
  | none => (some (.error (.unknownType key)), m)

/-- A search through the table, cut short where walks would lie inside one another deeper than the
fuel. -/
def searchTo (t : Table ω σ) (test : Test ω) (target : Target) :
    Nat → Cursor → σ → Option Category → Memory ω → Option Outcome × Memory ω
  | 0, _, _, _, m => (none, m)
  | fuel + 1, c, st, role, m =>
    if m.found.isSome then (some (.ok ()), m)
    else
      let key := dispatchKey c role
      test.after target key c
        (if target.covers c.node then t.dispatchTo (t.searchTo test target fuel) key c st m
          else (some (.ok ()), m))

end Table

/-- What came of a run, unless it was cut short. -/
def ended (p : Option (Except WalkError α) × Memory ω) : Run ω α := p.1.map fun r => (r, p.2)

theorem Script.ended_execTo
    {walk : Cursor → σ → Option Category → Memory ω → Option Outcome × Memory ω}
    (keys : List String) (s : Script ω σ α) (m : Memory ω) :
    ended (s.execTo walk keys m) = s.exec (fun c st role m => ended (walk c st role m)) keys m := by
  induction s generalizing m with
  | done r => rfl
  | read next ih => exact ih m.world m
  | write w next ih => exact ih { m with world := w }
  | keys next ih => exact ih keys m
  | walk c st role next ih =>
    rw [execTo, exec]
    rcases walk c st role m with ⟨_ | r, m'⟩
    · rfl
    · exact ih r m'

namespace Walker

variable {t : Table ω σ} {test : Test ω} {target : Target}

/-- **A search that is not cut short is the search itself.** -/
theorem walk_eq_searchTo (fuel : Nat) :
    walk ⟨t, .search test target⟩ fuel =
      fun c st role m => ended (t.searchTo test target fuel c st role m) := by
  induction fuel with
  | zero => rfl
  | succ fuel ih =>
    funext c st role m
    have hdispatch : dispatch ⟨t, .search test target⟩ (walk ⟨t, .search test target⟩ fuel)
        (dispatchKey c role) c st m =
          ended (t.dispatchTo (t.searchTo test target fuel) (dispatchKey c role) c st m) := by
      rw [dispatch, Table.dispatchTo, ih]
      cases t.get? (dispatchKey c role) with
      | none => rfl
      | some h => exact (Script.ended_execTo t.keys (h.run c st) m).symm
    rw [walk, Table.searchTo]
    by_cases hfound : m.found.isSome = true
    · rw [if_pos hfound, if_pos hfound]
      rfl
    · rw [if_neg hfound, if_neg hfound]
      have hinside :
          (if target.covers c.node then
            dispatch ⟨t, .search test target⟩ (walk ⟨t, .search test target⟩ fuel)
              (dispatchKey c role) c st m
          else some (.ok (), m)) =
            ended (if target.covers c.node then
              t.dispatchTo (t.searchTo test target fuel) (dispatchKey c role) c st m
            else (some (.ok ()), m)) := by
        rw [hdispatch]
        split <;> rfl
      show (Observer.search test target).surround _ c st _ m = ended (test.after target _ c _)
      rw [Observer.surround, hinside]
      rcases (if target.covers c.node then
          t.dispatchTo (t.searchTo test target fuel) (dispatchKey c role) c st m
        else (some (.ok ()), m)) with ⟨_ | _ | _, m'⟩
      · rfl
      · rfl
      · rw [Test.after]
        show (if _ then _ else _) = ended (if _ then _ else _)
        split <;> rfl

end Walker

/-! ### Going on -/

/-- What was called and what is found: either nothing is found and the test has accepted nothing,
or it has accepted what is found, for the first time, and that was the last call. -/
def Settles (ps : List (Probe σ)) : Option Cursor → Prop
  | none => ∀ p ∈ ps, p.accepts = false
  | some c => ∃ before key, ps = before ++ [.test key c true] ∧ ∀ p ∈ before, p.accepts = false

/-- A search goes on from a memory to another: it only adds calls, and if the calls and what is
found went together, they still do. -/
structure Memory.Onward (m n : Memory (ω × List (Probe σ))) : Prop where
  calls : m.world.2 <+: n.world.2
  settles : Settles m.world.2 m.found → Settles n.world.2 n.found

namespace Memory.Onward

variable {m n k : Memory (ω × List (Probe σ))}

theorem refl (m : Memory (ω × List (Probe σ))) : m.Onward m := ⟨List.prefix_refl _, id⟩

theorem trans (h : m.Onward n) (h' : n.Onward k) : m.Onward k :=
  ⟨h.calls.trans h'.calls, h'.settles ∘ h.settles⟩

/-- One more call that accepts nothing, while nothing is found. -/
theorem call (hfound : m.found = none) {p : Probe σ} (hp : p.accepts = false) (w : ω) :
    m.Onward { m with world := (w, m.world.2 ++ [p]) } := by
  refine ⟨List.prefix_append .., ?_⟩
  intro hm
  show Settles (m.world.2 ++ [p]) m.found
  rw [hfound] at hm ⊢
  intro q hq
  rcases List.mem_append.1 hq with hq | hq
  · exact hm q hq
  · exact List.mem_singleton.1 hq ▸ hp

/-- The test accepts a node, while nothing is found. -/
theorem accept (hfound : m.found = none) (key : String) (c : Cursor) (w : ω) :
    m.Onward { m with world := (w, m.world.2 ++ [.test key c true]), found := some c } := by
  refine ⟨List.prefix_append .., ?_⟩
  intro hm
  rw [hfound] at hm
  exact ⟨m.world.2, key, rfl, hm⟩

/-- A handler sees nothing of what is taken down, and goes on as the walks that it asks for do. -/
theorem execTo {walk : Cursor → σ → Option Category → Memory (ω × List (Probe σ)) →
      Option Outcome × Memory (ω × List (Probe σ))}
    (hwalk : ∀ c st role m, Memory.Onward m (walk c st role m).2) (keys : List String)
    (s : Script ω σ α) (m : Memory (ω × List (Probe σ))) :
    m.Onward (s.beside.execTo walk keys m).2 := by
  induction s generalizing m with
  | done r => exact refl m
  | read next ih => exact ih m.world.1 m
  | write w next ih =>
    have hwritten : m.Onward { m with world := (w, m.world.2) } := ⟨List.prefix_refl _, id⟩
    exact hwritten.trans (ih { m with world := (w, m.world.2) })
  | keys next ih => exact ih keys m
  | walk c st role next ih =>
    have hwalked := hwalk c st role m
    rw [Script.beside, Script.execTo]
    revert hwalked
    rcases walk c st role m with ⟨_ | r, m'⟩
    · exact id
    · exact fun hwalked => hwalked.trans (ih r m')

variable {t : Table ω σ} {test : Test ω} {target : Target}

/-- A dispatch, while nothing is found, calls the handler and goes on as that does. -/
theorem dispatchTo {walk : Cursor → σ → Option Category → Memory (ω × List (Probe σ)) →
      Option Outcome × Memory (ω × List (Probe σ))}
    (hwalk : ∀ c st role m, Memory.Onward m (walk c st role m).2) (hfound : m.found = none)
    (key : String) (c : Cursor) (st : σ) :
    m.Onward (t.probed.dispatchTo walk key c st m).2 := by
  rw [Table.dispatchTo, Table.probed, OrderedMap.get?_mapValues]
  cases t.get? key with
  | none => exact refl m
  | some h =>
    have hcall := call hfound (p := .handle ⟨key, c, st⟩) rfl m.world.1
    exact hcall.trans (execTo hwalk _ (h.run c st) _)

/-- After a dispatch the test is called only while nothing is found. -/
theorem after (key : String) (c : Cursor) (p : Option Outcome × Memory (ω × List (Probe σ))) :
    p.2.Onward (test.probed.after target key c p).2 := by
  obtain ⟨_ | _ | _, m⟩ := p
  · exact refl m
  · exact refl m
  · rw [Test.after]
    by_cases hasks : (m.found.isNone && target.fits c.node) = true
    · rw [if_pos hasks]
      have hfound : m.found = none := by
        rw [Bool.and_eq_true, Option.isNone_iff_eq_none] at hasks
        exact hasks.1
      rcases htest : test key c m.world.1 with ⟨_ | _, w⟩
      · have hcall := call hfound (p := .test key c false) rfl w
        simp only [Test.probed, htest]
        rwa [hfound] at hcall
      · simp only [Test.probed, htest]
        exact accept hfound key c w
    · rw [if_neg hasks]
      exact refl m

/-- **A search goes on from where it starts**, however far it goes. -/
theorem searchTo (fuel : Nat) (c : Cursor) (st : σ) (role : Option Category)
    (m : Memory (ω × List (Probe σ))) :
    m.Onward (t.probed.searchTo test.probed target fuel c st role m).2 := by
  induction fuel generalizing c st role m with
  | zero => exact refl m
  | succ fuel ih =>
    rw [Table.searchTo]
    by_cases hfound : m.found.isSome = true
    · rw [if_pos hfound]
      exact refl m
    · rw [if_neg hfound]
      refine trans ?_ (after ..)
      split
      · exact dispatchTo ih (by simpa using hfound) ..
      · exact refl m

end Memory.Onward

/-! ### Going further -/

/-- The one run is the other, or it is cut short with a beginning of the other's calls. -/
def Within (p q : Option (Except WalkError α) × Memory (ω × List (Probe σ))) : Prop :=
  p = q ∨ p.1 = none ∧ p.2.world.2 <+: q.2.world.2

namespace Within

variable {walk walk' : Cursor → σ → Option Category → Memory (ω × List (Probe σ)) →
    Option Outcome × Memory (ω × List (Probe σ))}
  {t : Table ω σ} {test : Test ω} {target : Target}

/-- A handler goes as far as the walks that it asks for. -/
theorem execTo (hwalk : ∀ c st role m, Within (walk c st role m) (walk' c st role m))
    (honward : ∀ c st role m, Memory.Onward m (walk' c st role m).2) (keys : List String)
    (s : Script ω σ α) (m : Memory (ω × List (Probe σ))) :
    Within (s.beside.execTo walk keys m) (s.beside.execTo walk' keys m) := by
  induction s generalizing m with
  | done r => exact .inl rfl
  | read next ih => exact ih m.world.1 m
  | write w next ih => exact ih { m with world := (w, m.world.2) }
  | keys next ih => exact ih keys m
  | walk c st role next ih =>
    rw [Script.beside, Script.execTo, Script.execTo]
    rcases hwalk c st role m with heq | ⟨hcut, hcalls⟩
    · rw [heq]
      rcases walk' c st role m with ⟨_ | r, m'⟩
      · exact .inl rfl
      · exact ih r m'
    · -- here the one run stops, and whatever the other does only adds calls
      generalize walk c st role m = p at hcut hcalls ⊢
      generalize walk' c st role m = q at hcalls ⊢
      obtain ⟨r, m₁⟩ := p
      obtain rfl : r = none := hcut
      obtain ⟨_ | r, m₂⟩ := q
      · exact .inr ⟨rfl, hcalls⟩
      · exact .inr ⟨rfl, hcalls.trans (Memory.Onward.execTo honward keys (next r) m₂).calls⟩

theorem dispatchTo (hwalk : ∀ c st role m, Within (walk c st role m) (walk' c st role m))
    (honward : ∀ c st role m, Memory.Onward m (walk' c st role m).2) (key : String) (c : Cursor)
    (st : σ) (m : Memory (ω × List (Probe σ))) :
    Within (t.probed.dispatchTo walk key c st m) (t.probed.dispatchTo walk' key c st m) := by
  rw [Table.dispatchTo, Table.dispatchTo, Table.probed, OrderedMap.get?_mapValues]
  cases t.get? key with
  | none => exact .inl rfl
  | some h => exact execTo hwalk honward _ (h.run c st) _

theorem after (key : String) (c : Cursor)
    {p q : Option Outcome × Memory (ω × List (Probe σ))} (h : Within p q) :
    Within (test.probed.after target key c p) (test.probed.after target key c q) := by
  rcases h with rfl | ⟨hcut, hcalls⟩
  · exact .inl rfl
  · obtain ⟨r, m⟩ := p
    obtain rfl : r = none := hcut
    exact .inr ⟨rfl, hcalls.trans (Memory.Onward.after key c q).calls⟩

/-- **With more fuel a search goes further**, if it does not end with less. -/
theorem searchTo {fuel more : Nat} (hle : fuel ≤ more) (c : Cursor) (st : σ)
    (role : Option Category) (m : Memory (ω × List (Probe σ))) :
    Within (t.probed.searchTo test.probed target fuel c st role m)
      (t.probed.searchTo test.probed target more c st role m) := by
  induction fuel generalizing more c st role m with
  | zero => exact .inr ⟨rfl, (Memory.Onward.searchTo more c st role m).calls⟩
  | succ fuel ih =>
    obtain ⟨more, rfl⟩ := Nat.exists_eq_add_of_lt hle
    rw [Table.searchTo, Table.searchTo]
    by_cases hfound : m.found.isSome = true
    · rw [if_pos hfound, if_pos hfound]
      exact .inl rfl
    · rw [if_neg hfound, if_neg hfound]
      refine after _ c ?_
      split
      · exact dispatchTo (ih (Nat.le_add_right ..)) (Memory.Onward.searchTo _) ..
      · exact .inl rfl

end Within

/-! ### What is found -/

namespace Settles

variable {ps : List (Probe σ)} {found : Option Cursor}

/-- The test accepts once at most. -/
theorem countP_le_one (h : Settles ps found) : ps.countP Probe.accepts ≤ 1 := by
  have hnone {qs : List (Probe σ)} (hqs : ∀ p ∈ qs, p.accepts = false) :
      qs.countP Probe.accepts = 0 := by
    rw [List.countP_eq_zero]
    intro p hp
    rw [hqs p hp]
    exact Bool.false_ne_true
  cases found with
  | none => rw [hnone h]; exact Nat.zero_le 1
  | some c =>
    obtain ⟨before, key, rfl, hbefore⟩ := h
    rw [List.countP_append, hnone hbefore]
    exact Nat.le_of_eq rfl

/-- Nothing is called after the test has accepted. -/
theorem eq_nil_of_accepts (h : Settles ps found) {before after : List (Probe σ)} {p : Probe σ}
    (hps : ps = before ++ p :: after) (hp : p.accepts = true) : after = [] := by
  cases found with
  | none =>
    have hnot := h p (hps ▸ by simp)
    rw [hp] at hnot
    cases hnot
  | some c =>
    obtain ⟨quiet, key, heq, hquiet⟩ := h
    rcases List.eq_nil_or_concat after with rfl | ⟨init, last, rfl⟩
    · rfl
    · -- then the call that accepts is not the last one, but before that none does
      have hinit : before ++ p :: init = quiet := by
        rw [hps, List.concat_eq_append, ← List.cons_append, ← List.append_assoc] at heq
        exact (List.append_inj' heq rfl).1
      have hnot := hquiet p (hinit ▸ by simp)
      rw [hp] at hnot
      cases hnot

theorem eq_some_iff (h : Settles ps found) (c : Cursor) :
    found = some c ↔ ∃ key, .test key c true ∈ ps := by
  cases found with
  | none =>
    refine ⟨fun heq => (nomatch heq), ?_⟩
    rintro ⟨key, hmem⟩
    cases h _ hmem
  | some d =>
    obtain ⟨before, key, rfl, hbefore⟩ := h
    constructor
    · rintro ⟨⟩
      exact ⟨key, by simp⟩
    · rintro ⟨other, hmem⟩
      rcases List.mem_append.1 hmem with hmem | hmem
      · cases hbefore _ hmem
      · cases List.mem_singleton.1 hmem
        rfl

theorem eq_none_iff (h : Settles ps found) : found = none ↔ ∀ p ∈ ps, p.accepts = false := by
  cases found with
  | none => exact ⟨fun _ => h, fun _ => rfl⟩
  | some c =>
    refine ⟨fun heq => (nomatch heq), ?_⟩
    intro hnone
    obtain ⟨key, hmem⟩ := (eq_some_iff h c).1 rfl
    cases hnone _ hmem

end Settles

namespace Walk

variable {t : Table ω σ} {test : Test ω} {target : Target}

/-- The calls of a search from the root of a tree, as far as it goes with the fuel. -/
def probes (fuel : Nat) (tree : Node) (target : Target) (test : Test ω) (t : Table ω σ) (st : σ)
    (w : ω) : List (Probe σ) :=
  (t.probed.searchTo test.probed target fuel (.root tree) st none (.initial (w, []))).2.world.2

/-- With more fuel the calls go on. -/
theorem probes_prefix {fuel more : Nat} (hle : fuel ≤ more) (tree : Node) (st : σ) (w : ω) :
    probes fuel tree target test t st w <+: probes more tree target test t st w := by
  rcases Within.searchTo hle (.root tree) st none (.initial (w, [])) with heq | ⟨-, hcalls⟩
  · have hsame := congrArg (·.2.world.2) heq
    exact ⟨[], (List.append_nil _).trans hsame⟩
  · exact hcalls

/-- The calls that were made and the node that is found settle the search. -/
theorem settles_probes (t : Table ω σ) (test : Test ω) (target : Target) (fuel : Nat)
    (tree : Node) (st : σ) (w : ω) :
    Settles (probes fuel tree target test t st w)
      (t.probed.searchTo test.probed target fuel (.root tree) st none
        (.initial (w, []))).2.found :=
  (Memory.Onward.searchTo fuel (.root tree) st none (.initial (w, []))).settles
    fun _ hp => nomatch hp

/-- A search that ends has made its calls, and taking them down does not change it. -/
theorem find_probed {fuel : Nat} {tree : Node} {st : σ} {w w' : ω}
    {r : Except WalkError (Option Cursor)}
    (hfind : find fuel tree target test (some t) st w = some (r, w')) :
    find fuel tree target test.probed (some t.probed) st (w, []) =
        some (r, w', probes fuel tree target test t st w) ∧
      ∀ x, r = .ok x → Settles (probes fuel tree target test t st w) x := by
  have hsettles := settles_probes t test target fuel tree st w
  rw [find, baseTable, Option.getD_some] at hfind ⊢
  rcases (simulates_probed t test target).run rfl fuel tree st (rfl : (w, []).1 = w) with
    ⟨-, hrun⟩ | ⟨outcome, m, n, hprobed, hrun, hagree⟩
  · rw [hrun] at hfind
    cases hfind
  · rw [hrun] at hfind
    obtain ⟨rfl, rfl⟩ := Prod.mk.inj (Option.some.inj hfind)
    obtain ⟨hworld, hkept⟩ := hagree
    -- the search that takes down its calls ends, so it is not cut short
    have hended := hprobed
    simp only [Walker.run, Walker.walk_eq_searchTo, ended, Option.map_map] at hended
    obtain ⟨_, -, hended⟩ := Option.map_eq_some_iff.1 hended
    obtain ⟨-, hended⟩ := Prod.mk.inj hended
    obtain ⟨hcalls, hfound⟩ := Prod.mk.inj hended
    have hprobes : probes fuel tree target test t st w = m.world.2 := congrArg Prod.snd hcalls
    constructor
    · rw [hprobed, hprobes]
      show some (_, m.world) = some (_, n.world, m.world.2)
      rw [← hworld, (Prod.mk.inj hkept).2]
    · intro x hx
      cases outcome with
      | error err => cases hx
      | ok u =>
        obtain rfl : n.found = x := Except.ok.inj hx
        have hsame : m.found = n.found := (Prod.mk.inj hkept).2
        rw [← hsame, ← hfound]
        exact hsettles

/-- **A search settles once and for all.**

Take any table, test and target: offsets, each given or not, or a position.  However far the search
of a tree goes with the fuel, and whether or not it ends, the test accepts once at most, and from
then on neither the test nor any handler is called, whatever the handlers around go on asking for;
with more fuel the calls only go on.  A search that ends makes just these calls, as it shows when
they are taken down, which does not change it.  If it ends well, it gives the node that the test has
accepted, and none just where the test has accepted none. -/
theorem search_settles (t : Table ω σ) (test : Test ω) (target : Target) (fuel : Nat)
    (tree : Node) (st : σ) (w : ω) :
    (probes fuel tree target test t st w).countP Probe.accepts ≤ 1 ∧
      (∀ before p after, probes fuel tree target test t st w = before ++ p :: after →
        p.accepts = true → after = []) ∧
      (∀ more, fuel ≤ more →
        probes fuel tree target test t st w <+: probes more tree target test t st w) ∧
      ∀ r w', find fuel tree target test (some t) st w = some (r, w') →
        find fuel tree target test.probed (some t.probed) st (w, []) =
          some (r, w', probes fuel tree target test t st w) ∧
        ∀ x, r = .ok x →
          (∀ c, x = some c ↔ ∃ key, .test key c true ∈ probes fuel tree target test t st w) ∧
          (x = none ↔ ∀ p ∈ probes fuel tree target test t st w, p.accepts = false) := by
  have hsettles := settles_probes t test target fuel tree st w
  refine ⟨hsettles.countP_le_one, ?_, ?_, ?_⟩
  · intro before p after hprobes hp
    exact hsettles.eq_nil_of_accepts hprobes hp
  · intro more hle
    exact probes_prefix hle tree st w
  · intro r w' hfind
    obtain ⟨hprobed, hresult⟩ := find_probed hfind
    refine ⟨hprobed, ?_⟩
    intro x hx
    exact ⟨(hresult x hx).eq_some_iff, (hresult x hx).eq_none_iff⟩

/-- The key and whether the test accepts, or no answer where a handler is called. -/
def Probe.row : Probe σ → String × Option Bool
  | .handle call => (call.key, none)
  | .test key _ accepted => (key, some accepted)

/-- A table whose handler of calls walks what is called over and over, once in vain. -/
def persistent : Table Nat Unit := Table.ofProcedures 0 [
  ("CallExpression", fun c st =>
    match c.node.shape with
    | .call _ callee _ => do
      let callee := c.down [.field .callee] callee
      Script.go callee st none
      let _ ← (Script.go callee st (some .expression)).attempt
      Script.go callee st none
      Script.go callee st none
    | _ => Script.malformed "call expression" c.node),
  ("Identifier", fun _ _ => pure ())]

/-- A test that accepts a name when it is asked for the second time. -/
def secondTime : Test Nat := fun key _ n => (key == "Identifier" && n == 1, n + 1)

/-- The search of `f(x)` settles on `f` the second time, and the third time nothing is called. -/
theorem search_settles_secondTime :
    (probes 3 callOfF (.offsets none none) secondTime persistent () 0).map Probe.row =
        [("CallExpression", none), ("Identifier", none), ("Identifier", some false),
          ("Identifier", none), ("Identifier", some true)] ∧
      ∃ c : Cursor, c.node.typeName = "Identifier" ∧
        find 3 callOfF (.offsets none none) secondTime (some persistent) () 0 =
          some (.ok (some c), 2) ∧
        ∃ key, .test key c true ∈
          probes 3 callOfF (.offsets none none) secondTime persistent () 0 := by
  obtain ⟨-, -, -, hends⟩ := search_settles persistent secondTime (.offsets none none) 3 callOfF () 0
  let c : Cursor := (Cursor.root callOfF).down [.field .callee] (Build.ident "f")
  have hfind : find 3 callOfF (.offsets none none) secondTime (some persistent) () 0 =
      some (.ok (some c), 2) := rfl
  obtain ⟨-, hfound⟩ := hends _ _ hfind
  exact ⟨rfl, c, rfl, hfind, ((hfound _ rfl).1 c).1 rfl⟩

end Walk

end TreeWalk
