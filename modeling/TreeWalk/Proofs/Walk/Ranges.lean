/-
Searches by position and by offsets.

A search around a position settles on the first candidate that passes the test: a
dispatch whose node and everything around it contain or touch the position.  Whatever is
below a place comes before it, so no candidate below the node that is found passes.

A search by offsets turns back where a node does not cover them.  In a tree where each
node has a range and lies within the node it is a part of, the offsets of a node are
covered all the way up to the root, so the search finds what a search of every dispatch
would.  For a search around a position such a tree means that nothing is found only
where nothing that contains the position passes, and that the offsets of what is found
lead back to the same place.
-/
import Mathlib.Data.List.Find
import TreeWalk.Proofs.Walk.Search
import TreeWalk.Syntax.Build

namespace TreeWalk

/-! ### Ranges within ranges -/

namespace Node

theorem span?_eq_some {n : Node} {r : Span} :
    n.span? = some r ↔ n.start = some r.start ∧ n.stop = some r.stop ∧ r.start ≤ r.stop := by
  obtain ⟨shape, start, stop⟩ := n
  obtain ⟨a, b⟩ := r
  cases start with
  | none => simp [span?]
  | some s =>
    cases stop with
    | none => simp [span?]
    | some e =>
      by_cases h : s ≤ e
      · simp only [span?, if_pos h, Option.some.injEq, Span.mk.injEq]
        constructor
        · rintro ⟨rfl, rfl⟩
          exact ⟨rfl, rfl, h⟩
        · rintro ⟨rfl, rfl, -⟩
          exact ⟨rfl, rfl⟩
      · simp only [span?, if_neg h, Option.some.injEq, reduceCtorEq, false_iff]
        rintro ⟨rfl, rfl, hle⟩
        exact h hle

/-- Both nodes have a range, and the first lies within the second. -/
def Within (m n : Node) : Prop :=
  ∃ r ∈ m.span?, ∃ s ∈ n.span?, s.start ≤ r.start ∧ r.stop ≤ s.stop

instance (m n : Node) : Decidable (m.Within n) :=
  inferInstanceAs (Decidable (∃ r ∈ m.span?, ∃ s ∈ n.span?, s.start ≤ r.start ∧ r.stop ≤ s.stop))

/-- Every part of a node that is walked lies within the node. -/
def Nested (tree : Node) : Prop :=
  ∀ c, tree.Walked c → ∀ p ∈ c.node.shape.walked, p.child.Within c.node

end Node

namespace Target

/-- A node around one that covers the target covers it too. -/
theorem covers_of_within {t : Target} {m n : Node} (h : m.Within n) (hm : t.covers m = true) :
    t.covers n = true := by
  obtain ⟨r, hr, s, hs, hstart, hstop⟩ := h
  rw [Option.mem_def] at hr hs
  cases t with
  | offsets start stop =>
    simp only [covers, hr, hs, Bool.and_eq_true, Option.all_eq_true, decide_eq_true_eq] at hm ⊢
    constructor
    · intro a ha
      exact UInt32.le_trans hstart (hm.1 a ha)
    · intro b hb
      exact UInt32.le_trans (hm.2 b hb) hstop
  | position pos =>
    simp only [covers, hr, hs, Option.any_some, Span.touches, Bool.and_eq_true,
      decide_eq_true_eq] at hm ⊢
    exact ⟨UInt32.le_trans hstart hm.1, UInt32.le_trans hm.2 hstop⟩

/-- A node with a range covers what it fits. -/
theorem covers_of_fits {t : Target} {n : Node} (h : n.span?.isSome = true)
    (hfits : t.fits n = true) : t.covers n = true := by
  obtain ⟨r, hr⟩ := Option.isSome_iff_exists.1 h
  obtain ⟨hstart, hstop, -⟩ := Node.span?_eq_some.1 hr
  cases t with
  | offsets start stop =>
    simp only [fits, hstart, hstop, Bool.and_eq_true, Option.all_eq_true, beq_iff_eq,
      Option.some.injEq] at hfits
    simp only [covers, hr, Bool.and_eq_true, Option.all_eq_true, decide_eq_true_eq]
    constructor
    · intro a ha
      exact hfits.1 a ha ▸ UInt32.le_refl _
    · intro b hb
      exact hfits.2 b hb ▸ UInt32.le_refl _
  | position pos => exact hfits

end Target

namespace Node

variable {tree : Node} {t : Target}

/-- Where ranges nest, what covers the target is covered by all that it is reached from. -/
theorem Nested.covers_of_reaches (h : tree.Nested) {x y : Cursor} (hx : tree.Walked x)
    (hxy : x.Reaches y) (hy : t.covers y.node = true) : t.covers x.node = true := by
  induction hxy with
  | here => exact hy
  | @inside c d p hp _ ih =>
    exact Target.covers_of_within (h c hx p hp) (ih (hx.part hp) hy)

theorem reaches_of_mem_dispatches {d : Dispatch} (hd : d ∈ tree.dispatches) :
    tree.Walked d.cursor :=
  Cursor.reaches_of_mem_postorder hd

/-- What is around a dispatch are the other places that a walk passes on the way to it. -/
theorem mem_around_iff {d : Dispatch} (hd : d ∈ tree.dispatches) (x : Cursor) :
    x ∈ d.around ↔ tree.Walked x ∧ x.Reaches d.cursor ∧ x.trail ≠ d.cursor.trail := by
  rw [Cursor.mem_around_iff_of_mem_postorder hd x]
  simp only [List.not_mem_nil, false_or]
  rfl

/-- Where ranges nest, a search is not turned back on the way to a node that covers. -/
theorem Nested.all_around (h : tree.Nested) {d : Dispatch} (hd : d ∈ tree.dispatches)
    (hc : t.covers d.cursor.node = true) : d.around.all (t.covers ·.node) = true := by
  rw [List.all_eq_true]
  intro x hx
  obtain ⟨hwalked, hreaches, -⟩ := (mem_around_iff hd x).1 hx
  exact h.covers_of_reaches hwalked hreaches hc

/-- A dispatch is among those of the tree where a visit is. -/
theorem forall_visits_iff {tree : Node} {P : String → Cursor → Prop} :
    (∀ v ∈ (Cursor.root tree).visits none, P v.key v.cursor) ↔
      ∀ d ∈ tree.dispatches, P d.key d.cursor := by
  have hperm := Cursor.perm_visits (.root tree) [] none
  constructor
  · intro h d hd
    exact h d.visit (hperm.mem_iff.1 (List.mem_map_of_mem hd))
  · intro h v hv
    obtain ⟨d, hd, rfl⟩ := List.mem_map.1 (hperm.mem_iff.2 hv)
    exact h d hd

end Node

/-! ### Searching around a position -/

/-- Whether the node of the dispatch and all that it is reached from contain or touch the
position. -/
def Dispatch.isCandidate (pos : Offset) (d : Dispatch) : Bool :=
  (d.cursor :: d.around).all fun c => c.node.span?.any (·.touches pos)

/-- A candidate is at a place to which the position leads all the way from the root. -/
theorem Dispatch.isCandidate_iff {tree : Node} {d : Dispatch} (hd : d ∈ tree.dispatches)
    (pos : Offset) :
    d.isCandidate pos = true ↔ ∀ x, tree.Walked x → x.Reaches d.cursor →
      x.node.span?.any (·.touches pos) = true := by
  rw [isCandidate, List.all_eq_true]
  constructor
  · intro h x hx hxd
    by_cases htrail : x.trail = d.cursor.trail
    · rw [hxd.eq_of_trail htrail]
      exact h _ (List.mem_cons_self ..)
    · exact h x (List.mem_cons_of_mem _ ((Node.mem_around_iff hd x).2 ⟨hx, hxd, htrail⟩))
  · intro h x hx
    rcases List.mem_cons.1 hx with rfl | hx
    · exact h _ (Node.reaches_of_mem_dispatches hd) (.here _)
    · obtain ⟨hwalked, hreaches, -⟩ := (Node.mem_around_iff hd x).1 hx
      exact h x hwalked hreaches

/-- The place of the first candidate that passes the test, inner ones first. -/
def Node.firstAround (tree : Node) (pos : Offset) (p : String → Cursor → Bool) : Option Cursor :=
  (tree.dispatches.find? fun d => d.isCandidate pos && p d.key d.cursor).map Dispatch.cursor

theorem Target.accepts_position (pos : Offset) (p : String → Cursor → Bool) :
    (Target.position pos).accepts p = fun d => d.isCandidate pos && p d.key d.cursor := by
  funext d
  simp only [accepts, Dispatch.isCandidate, covers, fits, List.all_cons]
  cases d.cursor.node.span?.any (·.touches pos) <;> cases d.around.all _ <;> simp

/-- A place below another comes before it. -/
theorem Node.mem_before {tree : Node} {as bs : List Dispatch} {d e : Dispatch}
    (h : tree.dispatches = as ++ e :: bs) (hd : d ∈ tree.dispatches)
    (hreach : e.cursor.Reaches d.cursor) (hne : d.cursor ≠ e.cursor) : d ∈ as := by
  have hpair := Cursor.pairwise_postorder (.root tree) [] none
  rw [← Node.dispatches, h] at hpair
  rw [h] at hd
  rcases List.mem_append.1 hd with hd | hd
  · exact hd
  · rcases List.mem_cons.1 hd with rfl | hd
    · exact absurd rfl hne
    · have hafter := (List.pairwise_cons.1 (List.pairwise_append.1 hpair).2.1).1 d hd
      exact absurd (hreach.eq_of_trail (hafter hreach.suffix)).symm hne

namespace Walk

variable {ω σ : Type}

/-- **A search around a position finds the first candidate that passes the test.**

The node that is found contains or touches the position, and no candidate below it passes.
Where ranges nest, a search that finds nothing shows that nothing which contains or
touches the position passes the test under any of its keys. -/
theorem findAround_first (tree : Node) (pos : Offset) (p : String → Cursor → Bool) (spare : Nat)
    (st : σ) (world : ω) :
    findAround (tree.walkFuel + spare) tree pos (Test.pure p) none st world =
        some (.ok (tree.firstAround pos p), world) ∧
      (∀ c, tree.firstAround pos p = some c → c.node.span?.any (·.touches pos) = true ∧
        ∀ d ∈ tree.dispatches, d.isCandidate pos = true → c.Reaches d.cursor → d.cursor ≠ c →
          p d.key d.cursor = false) ∧
      (tree.Nested → tree.firstAround pos p = none →
        ∀ v ∈ (Cursor.root tree).visits none, v.cursor.node.span?.any (·.touches pos) = true →
          p v.key v.cursor = false) := by
  refine ⟨?_, ?_, ?_⟩
  · rw [findAround, find_eq, Target.accepts_position, Node.firstAround]
  · intro c hc
    obtain ⟨e, he, rfl⟩ := Option.map_eq_some_iff.1 hc
    obtain ⟨hpass, as, bs, hsplit, hbefore⟩ := List.find?_eq_some_iff_append.1 he
    rw [Bool.and_eq_true] at hpass
    refine ⟨?_, ?_⟩
    · have hcandidate := hpass.1
      rw [Dispatch.isCandidate, List.all_cons, Bool.and_eq_true] at hcandidate
      exact hcandidate.1
    · intro d hd hcandidate hreach hne
      have hrejected := hbefore d (Node.mem_before hsplit hd hreach hne)
      simpa [hcandidate] using hrejected
  · intro hnested hnone
    rw [Node.firstAround, Option.map_eq_none_iff, List.find?_eq_none] at hnone
    rw [Node.forall_visits_iff (P := fun key c =>
      c.node.span?.any (·.touches pos) = true → p key c = false)]
    intro d hd htouches
    have hcandidate : d.isCandidate pos = true := by
      rw [Dispatch.isCandidate, List.all_cons, htouches]
      exact hnested.all_around (t := .position pos) hd htouches
    have hrejected := hnone d hd
    simpa [hcandidate] using hrejected

end Walk

/-! ### Searching by offsets -/

/-- The place of the first dispatch, inner ones first, that fits the target and passes the
test. -/
def Node.firstFitting (tree : Node) (t : Target) (p : String → Cursor → Bool) : Option Cursor :=
  (tree.dispatches.find? fun d => t.fits d.cursor.node && p d.key d.cursor).map Dispatch.cursor

/-- Every node that is walked has a range, which lies within that of the node around it. -/
structure Node.Ranged (tree : Node) : Prop where
  ranges : ∀ c, tree.Walked c → c.node.span?.isSome = true
  nested : tree.Nested

/-- Where a search is not turned back on the way to a node that fits, it accepts what fits and
passes. -/
theorem Node.find?_accepts {tree : Node} {t : Target} {p : String → Cursor → Bool}
    (h : ∀ d ∈ tree.dispatches, t.fits d.cursor.node = true →
      t.covers d.cursor.node = true ∧ d.around.all (t.covers ·.node) = true) :
    (tree.dispatches.find? (t.accepts p)).map Dispatch.cursor = tree.firstFitting t p := by
  refine congrArg _ (List.find?_congr ?_)
  intro d hd
  by_cases hf : t.fits d.cursor.node = true
  · obtain ⟨hc, hall⟩ := h d hd hf
    simp [Target.accepts, hall, hc]
  · simp [Target.accepts, hf]

/-- **A search by offsets finds what a search of every dispatch would.**

This takes a tree where each node has a range within that of the node around it, or open
bounds on both sides. -/
theorem Walk.findAt_first {ω σ : Type} (tree : Node) (start stop : Option Offset)
    (h : tree.Ranged ∨ start = none ∧ stop = none) (p : String → Cursor → Bool) (spare : Nat)
    (st : σ) (world : ω) :
    findAt (tree.walkFuel + spare) tree start stop (Test.pure p) none st world =
        some (.ok (tree.firstFitting (.offsets start stop) p), world) ∧
      (tree.firstFitting (.offsets start stop) p = none ↔
        ∀ v ∈ (Cursor.root tree).visits none,
          ¬ ((Target.offsets start stop).fits v.cursor.node = true ∧ p v.key v.cursor = true)) := by
  constructor
  · have hsound : ∀ d ∈ tree.dispatches, (Target.offsets start stop).fits d.cursor.node = true →
        (Target.offsets start stop).covers d.cursor.node = true ∧
          d.around.all ((Target.offsets start stop).covers ·.node) = true := by
      intro d hd hf
      rcases h with h | ⟨rfl, rfl⟩
      · have hc := Target.covers_of_fits (h.ranges _ (Node.reaches_of_mem_dispatches hd)) hf
        exact ⟨hc, h.nested.all_around hd hc⟩
      · exact ⟨Target.covers_open _, List.all_eq_true.2 fun _ _ => Target.covers_open _⟩
    rw [findAt, find_eq, Node.find?_accepts hsound]
  · rw [Node.forall_visits_iff (P := fun key c =>
      ¬ ((Target.offsets start stop).fits c.node = true ∧ p key c = true)),
      Node.firstFitting, Option.map_eq_none_iff, List.find?_eq_none]
    simp only [Bool.and_eq_true]

/-- The text `f(g);`, with its ranges. -/
def callOfName : Node :=
  let f := (Build.ident "f").withOffsets 0 1
  let g := (Build.ident "g").withOffsets 2 3
  let call := (Build.call f [g]).withOffsets 0 4
  (Build.program [(Build.exprStmt call).withOffsets 0 5]).withOffsets 0 5

theorem ranged_callOfName : callOfName.Ranged where
  ranges := Node.forall_walked (by decide)
  nested := Node.forall_walked (by decide)

/-- Of the four nodes that start where the text does, the search for an expression finds the
name and not the call. -/
theorem Walk.findAt_first_callOfName :
    findAt (callOfName.walkFuel + 0) callOfName (some 0) none
        (Test.pure fun key _ => key == "Expression") none () () =
      some (.ok (callOfName.firstFitting (.offsets (some 0) none)
        fun key _ => key == "Expression"), ()) ∧
    (callOfName.firstFitting (.offsets (some 0) none) fun key _ => key == "Expression").map
        (·.node.name?) = some (some "f") :=
  ⟨(findAt_first callOfName (some 0) none (.inl ranged_callOfName)
    (fun key _ => key == "Expression") 0 () ()).1, by decide⟩

/-! ### From one search to the other

A search by the offsets of a node that was found around a position comes to the same place.
A dispatch before it that fits the offsets has the range of that node, so it contains or
touches the position too, and would have been found first.
-/

/-- What fits the offsets of a node with a range has that range. -/
theorem Target.span?_of_fits {m n : Node} (h : m.span?.isSome = true)
    (hfits : (Target.offsets m.start m.stop).fits n = true) : n.span? = m.span? := by
  obtain ⟨r, hr⟩ := Option.isSome_iff_exists.1 h
  obtain ⟨hstart, hstop, hle⟩ := Node.span?_eq_some.1 hr
  simp only [fits, hstart, hstop, Option.all_some, Bool.and_eq_true, beq_iff_eq] at hfits
  rw [hr]
  exact Node.span?_eq_some.2 ⟨hfits.1, hfits.2, hle⟩

/-- A node fits its own offsets. -/
theorem Target.fits_own {n : Node} (h : n.span?.isSome = true) :
    (Target.offsets n.start n.stop).fits n = true := by
  obtain ⟨r, hr⟩ := Option.isSome_iff_exists.1 h
  obtain ⟨hstart, hstop, -⟩ := Node.span?_eq_some.1 hr
  simp [fits, hstart, hstop]

/-- In a tree with ranges, what fits offsets is not missed by turning back early. -/
theorem Node.Ranged.covers_of_fits {tree : Node} (h : tree.Ranged) {t : Target} {d : Dispatch}
    (hd : d ∈ tree.dispatches) (hfits : t.fits d.cursor.node = true) :
    t.covers d.cursor.node = true ∧ d.around.all (t.covers ·.node) = true := by
  have hc := Target.covers_of_fits (h.ranges _ (Node.reaches_of_mem_dispatches hd)) hfits
  exact ⟨hc, h.nested.all_around hd hc⟩

/-- The first candidate around a position is the first dispatch that fits its offsets. -/
theorem Node.Ranged.firstFitting_of_firstAround {tree : Node} (h : tree.Ranged) {pos : Offset}
    {p : String → Cursor → Bool} {c : Cursor} (hc : tree.firstAround pos p = some c) :
    tree.firstFitting (.offsets c.node.start c.node.stop) p = some c := by
  obtain ⟨e, he, rfl⟩ := Option.map_eq_some_iff.1 hc
  obtain ⟨hpass, as, bs, hsplit, hbefore⟩ := List.find?_eq_some_iff_append.1 he
  rw [Bool.and_eq_true] at hpass
  have hrange := h.ranges _ (Node.reaches_of_mem_dispatches (List.mem_of_find?_eq_some he))
  refine Option.map_eq_some_iff.2 ⟨e, ?_, rfl⟩
  refine List.find?_eq_some_iff_append.2 ⟨?_, as, bs, hsplit, ?_⟩
  · rw [Target.fits_own hrange, hpass.2]
    rfl
  · intro d hd
    have hmem : d ∈ tree.dispatches := by
      rw [hsplit]
      exact List.mem_append_left _ hd
    by_cases hfits : (Target.offsets e.cursor.node.start e.cursor.node.stop).fits d.cursor.node
    · have htouches : (Target.position pos).fits d.cursor.node = true := by
        have hown := hpass.1
        rw [Dispatch.isCandidate, List.all_cons, Bool.and_eq_true] at hown
        show d.cursor.node.span?.any (·.touches pos) = true
        rw [Target.span?_of_fits hrange hfits]
        exact hown.1
      have hcandidate : d.isCandidate pos = true := by
        rw [Dispatch.isCandidate, List.all_cons, Bool.and_eq_true]
        exact h.covers_of_fits hmem htouches
      have hrejected := hbefore d hd
      rw [hcandidate, Bool.true_and] at hrejected
      rw [Bool.not_eq_true'] at hrejected ⊢
      rw [hrejected, Bool.and_false]
    · simp [hfits]

/-- **The two searches agree**: what is found around a position, at that very place, is also
found by its offsets. -/
theorem Walk.findAt_of_findAround {ω σ : Type} (tree : Node) (h : tree.Ranged) (pos : Offset)
    (p : String → Cursor → Bool) (fuel spare : Nat) (st st' : σ) (world world' world'' : ω) :
    ∀ c, findAround fuel tree pos (Test.pure p) none st world = some (.ok (some c), world') →
      findAt (tree.walkFuel + spare) tree c.node.start c.node.stop (Test.pure p) none st' world'' =
        some (.ok (some c), world'') := by
  intro c hfound
  have hfirst : tree.firstAround pos p = some c := by
    have hmore := find_mono (Nat.le_add_left fuel tree.walkFuel) hfound
    rw [find_eq, Target.accepts_position] at hmore
    exact Except.ok.inj (congrArg Prod.fst (Option.some.inj hmore))
  rw [findAt, find_eq, Node.find?_accepts fun d hd => h.covers_of_fits hd,
    h.firstFitting_of_firstAround hfirst]

/-- At the end of the text the statement is found, and not the program with the same range. -/
theorem Walk.findAt_of_findAround_callOfName : ∃ c,
    findAround callOfName.walkFuel callOfName 5 (Test.pure fun _ _ => true) none () () =
      some (.ok (some c), ()) ∧
    c.trail ≠ [] ∧ c.node.start = callOfName.start ∧ c.node.stop = callOfName.stop ∧
    findAt (callOfName.walkFuel + 0) callOfName c.node.start c.node.stop
        (Test.pure fun _ _ => true) none () () =
      some (.ok (some c), ()) := by
  have hfound : findAround callOfName.walkFuel callOfName 5 (Test.pure fun _ _ => true) none () ()
      = some (.ok (some ⟨_, [.item 0, .field .body]⟩), ()) := rfl
  refine ⟨_, hfound, List.cons_ne_nil _ _, rfl, rfl, ?_⟩
  exact findAt_of_findAround callOfName ranged_callOfName 5 (fun _ _ => true) callOfName.walkFuel 0
    () () () () () _ hfound

end TreeWalk
