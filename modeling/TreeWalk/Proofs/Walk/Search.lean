/-
What a search finds.

A search tests dispatches on the way back, and it turns back early where the node does
not cover what is looked for.  So it finds the first dispatch, inner ones first, that
passes the test, fits the target, and has only covering nodes around it: `find_eq`.  A
dispatch inside another of its own node counts as around by that node too; that makes a
difference only where a node fits but does not cover, which takes missing or inverted
offsets.

Where every node lies within the node it is a part of, what covers the target is covered
by all around it, and turning back early hides nothing.
-/
import TreeWalk.Proofs.Walk.Postorder
import TreeWalk.Walk.Fuel

namespace TreeWalk

/-- A test that decides by the dispatch alone. -/
def Test.pure {ω : Type} (p : String → Cursor → Bool) : Test ω := fun key c w => (p key c, w)

/-- Whether the dispatch is not inside another one of its node. -/
def Dispatch.outermost (d : Dispatch) : Bool := d.key == dispatchKey d.cursor d.role

/-- Whether a search for the target comes to the dispatch and settles on its node. -/
def Target.accepts (t : Target) (p : String → Cursor → Bool) (d : Dispatch) : Bool :=
  d.around.all (t.covers ·.node) && (d.outermost || t.covers d.cursor.node) &&
    (t.fits d.cursor.node && p d.key d.cursor)

namespace Walk

open Observer

variable {ω σ : Type} {target : Target} {p : String → Cursor → Bool}

/-! ### Settling -/

/-- The memory after a search has come past dispatches; one that is over stays as it is. -/
def settled (target : Target) (p : String → Cursor → Bool) (ds : List Dispatch) (m : Memory ω) :
    Memory ω :=
  if m.found.isSome then m
  else { m with found := (ds.find? (target.accepts p)).map Dispatch.cursor }

theorem settled_nil (m : Memory ω) : settled target p [] m = m := by
  obtain ⟨world, path, found⟩ := m
  cases found <;> rfl

theorem settled_append (as bs : List Dispatch) (m : Memory ω) :
    settled target p (as ++ bs) m = settled target p bs (settled target p as m) := by
  unfold settled
  by_cases h : m.found.isSome = true
  · simp only [if_pos h]
  · simp only [if_neg h, List.find?_append]
    cases as.find? (target.accepts p) <;> simp

theorem settled_flatMap {α : Type} (f : α → List Dispatch) (as : List α) (m : Memory ω) :
    as.foldl (fun m a => settled target p (f a) m) m = settled target p (as.flatMap f) m := by
  induction as generalizing m with
  | nil => exact (settled_nil m).symm
  | cons a rest ih => rw [List.foldl_cons, ih, List.flatMap_cons, settled_append]

/-- Coming past dispatches that are not accepted changes nothing. -/
theorem settled_of_rejected {ds : List Dispatch} (h : ∀ d ∈ ds, target.accepts p d = false)
    (m : Memory ω) : settled target p ds m = m := by
  have hnone : ds.find? (target.accepts p) = none :=
    List.find?_eq_none.2 fun d hd => by simp [h d hd]
  have hnil : settled target p [] m = m := settled_nil m
  unfold settled at hnil ⊢
  rw [hnone]
  exact hnil

/-- Inside a node that covers the target, dispatches are accepted as they would be outside. -/
theorem settled_inside {c : Cursor} (hc : target.covers c.node = true) (ds : List Dispatch)
    (m : Memory ω) :
    settled target p (ds.map fun d => { d with around := d.around ++ [c] }) m =
      settled target p ds m := by
  have haccepts : (target.accepts p ∘ fun d : Dispatch => { d with around := d.around ++ [c] }) =
      target.accepts p := by
    funext d
    simp [Target.accepts, Dispatch.outermost, hc]
  unfold settled
  rw [List.find?_map, haccepts, Option.map_map]
  rfl

/-! ### The dispatches of one node -/

/-- A search comes past a dispatch after what is inside, where the node covers the target. -/
theorem surround_search {key : String} {c : Cursor} (role : Option Category) {st : σ}
    {dispatch : Memory ω → Run ω Unit} {m m' : Memory ω}
    (hd : (if target.covers c.node then dispatch m else some (.ok (), m)) = some (.ok (), m'))
    (hk : (key == dispatchKey c role || target.covers c.node) = true) :
    (search (Test.pure p) target).surround key c st dispatch m =
      some (.ok (), settled target p [⟨key, c, role, []⟩] m') := by
  have haccepts : target.accepts p ⟨key, c, role, []⟩ = (target.fits c.node && p key c) := by
    simp only [Target.accepts, Dispatch.outermost, hk, List.all_nil, Bool.true_and]
  obtain ⟨world, path, found⟩ := m'
  rw [surround, hd]
  cases found with
  | some x => rfl
  | none =>
    simp only [settled, Test.pure, List.find?_singleton, haccepts]
    by_cases hf : target.fits c.node = true
    · by_cases hp : p key c = true
      · simp [hf, hp]
      · simp [hf, hp]
    · simp [hf]

/-- A search comes past the dispatches of a node that covers the target, inner ones first. -/
theorem layers_search {c : Cursor} (hc : target.covers c.node = true) (role : Option Category)
    (st : σ) (ds : List Dispatch) (keys : List String) (m : Memory ω) :
    (search (Test.pure p) target).layers c st (fun m => some (.ok (), settled target p ds m)) keys
        m =
      some (.ok (), settled target p
        (ds ++ keys.reverse.map fun key => ⟨key, c, role, []⟩) m) := by
  induction keys with
  | nil =>
    rw [List.reverse_nil, List.map_nil, List.append_nil]
    rfl
  | cons key keys ih =>
    rw [layers]
    by_cases hf : m.found.isSome = true
    · rw [if_pos hf, settled, if_pos hf]
    · rw [if_neg hf, surround_search role (by rw [if_pos hc, ih]) (by simp [hc]),
        ← settled_append, List.reverse_cons, List.map_append, List.append_assoc]
      rfl

/-- A search turns back at a node that does not cover the target, after its first test there. -/
theorem layers_search_of_not_covers {c : Cursor} (hc : target.covers c.node = false)
    (role : Option Category) (st : σ) (inner : Memory ω → Run ω Unit) (m : Memory ω) :
    (search (Test.pure p) target).layers c st inner (c.node.keysIn role) m =
      some (.ok (), settled target p (c.postorder [] role) m) := by
  obtain ⟨keys, hkeys, hnot⟩ := c.exists_keysIn role
  have hparts : ∀ d ∈ c.node.shape.walked.flatMap fun q =>
      (c.part q).postorder [c] (some q.role), target.accepts p d = false := by
    intro d hd
    obtain ⟨q, -, hd⟩ := List.mem_flatMap.1 hd
    have hmem : c ∈ d.around :=
      (Cursor.mem_around_iff_of_mem_postorder hd c).2 (.inl (List.mem_singleton_self c))
    have hall : d.around.all (target.covers ·.node) = false :=
      List.all_eq_false.2 ⟨c, hmem, by simp [hc]⟩
    simp [Target.accepts, hall]
  have hinner : ∀ d ∈ keys.reverse.map fun key => (⟨key, c, role, []⟩ : Dispatch),
      target.accepts p d = false := by
    intro d hd
    obtain ⟨key, hkey, rfl⟩ := List.mem_map.1 hd
    have hne : key ≠ dispatchKey c role := by
      rintro rfl
      exact hnot (List.mem_reverse.1 hkey)
    simp [Target.accepts, Dispatch.outermost, hne, hc]
  rw [Cursor.postorder_eq, hkeys, List.reverse_cons, List.map_append, settled_append,
    settled_of_rejected hparts, settled_append, settled_of_rejected hinner, layers]
  by_cases hf : m.found.isSome = true
  · rw [if_pos hf, settled, if_pos hf]
  · rw [if_neg hf]
    exact surround_search role (by simp [hc]) (by simp)

/-! ### Searches -/

/-- A search comes past the dispatches of everything that is walked, inner ones first. -/
theorem walk_search {t : Table ω σ} (h : t.WalksParts) {fuel : Nat} {c : Cursor}
    (hfuel : 4 * c.node.height ≤ fuel) (st : σ) {role : Option Category}
    (hr : c.node.Plays role) (m : Memory ω) :
    Walker.walk ⟨t, .search (Test.pure p) target⟩ fuel c st role m =
      some (.ok (), settled target p (c.postorder [] role) m) := by
  refine Walker.walk_eq_of_parts ⟨t, .search (Test.pure p) target⟩ h
    (fun c st role m => settled target p (c.postorder [] role) m) ?_ hfuel st hr m
  intro c st role m _
  simp only [settled_flatMap]
  by_cases hc : target.covers c.node = true
  · have hparts : (c.node.shape.walked.flatMap fun q =>
          (c.part q).postorder [c] (some q.role)) =
        (c.node.shape.walked.flatMap fun q => (c.part q).postorder [] (some q.role)).map
          fun d => { d with around := d.around ++ [c] } := by
      rw [List.map_flatMap]
      exact List.flatMap_congr fun q _ => Cursor.postorder_append (c.part q) [] [c] (some q.role)
    rw [layers_search hc role, Cursor.postorder_eq, hparts, settled_append, settled_append,
      settled_inside hc]
  · exact layers_search_of_not_covers (by simpa using hc) role st _ m

/-- **A search finds the first dispatch, inner ones first, that it accepts.** -/
theorem find_eq (tree : Node) (target : Target) (p : String → Cursor → Bool) (spare : Nat)
    (st : σ) (world : ω) :
    find (tree.walkFuel + spare) tree target (Test.pure p) none st world =
      some (.ok ((tree.dispatches.find? (target.accepts p)).map Dispatch.cursor), world) := by
  have hfuel : 4 * (Cursor.root tree).node.height ≤ tree.walkFuel + spare := Nat.le_add_right _ _
  rw [find, Walker.run, baseTable, Option.getD_none,
    walk_search (Default.walksParts_table 0) hfuel st tree.plays_none]
  rfl

/-- A search that ends within its fuel ends in the same way with more. -/
theorem find_mono {fuel more : Nat} (hle : fuel ≤ more) {tree : Node} {test : Test ω}
    {base : Option (Table ω σ)} {st : σ} {world : ω} {r : Except WalkError (Option Cursor) × ω}
    (hr : find fuel tree target test base st world = some r) :
    find more tree target test base st world = some r := by
  unfold find at hr ⊢
  obtain ⟨q, hq, hr⟩ := Option.map_eq_some_iff.1 hr
  rw [Walker.run_mono hle hq, Option.map_some, hr]

end Walk

end TreeWalk
