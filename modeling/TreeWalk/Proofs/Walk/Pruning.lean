/-
Walks that are cut short on purpose.

An override that does not call for any walk keeps everything below a dispatch from being
dispatched.  What is left out that way depends on which dispatches lie inside which others
and not on the tree alone: an override for a role also leaves out the dispatch of the same
node under its own type.

`Nest.surroundedAll` lists the dispatches, each with those that it lies inside of.  A walk
with such overrides makes those that lie inside none that is overridden, in their order, and
no others: `recursive_pruned`.
-/
import TreeWalk.Proofs.Walk.Conduct

namespace TreeWalk

variable {ω σ : Type}

/-! ### Dispatches and what they lie inside of -/

namespace Nest

mutual
/-- The dispatches, outer ones first, each with those around it, the innermost first. -/
def surrounded (around : List Visit) : Nest → List (Visit × List Visit)
  | mk v inside => (v, around) :: surroundedAll (v :: around) inside
/-- The same for one dispatch after another. -/
def surroundedAll (around : List Visit) : List Nest → List (Visit × List Visit)
  | [] => []
  | n :: ns => surrounded around n ++ surroundedAll around ns
end

mutual
/-- Without what is around them, these are the dispatches. -/
theorem map_fst_surrounded (around : List Visit) :
    ∀ n : Nest, (surrounded around n).map Prod.fst = preorder n
  | mk v inside => by
    rw [surrounded, preorder, List.map_cons, map_fst_surroundedAll _ inside]
/-- The same for one dispatch after another. -/
theorem map_fst_surroundedAll (around : List Visit) :
    ∀ ns : List Nest, (surroundedAll around ns).map Prod.fst = preorderAll ns
  | [] => rfl
  | n :: ns => by
    rw [surroundedAll, preorderAll, List.map_append, map_fst_surrounded around n,
      map_fst_surroundedAll around ns]
end

mutual
/-- What is around a nest is around each dispatch in it. -/
theorem subset_of_mem_surrounded (around : List Visit) :
    ∀ n : Nest, ∀ p ∈ surrounded around n, around ⊆ p.2
  | mk v inside, p, hp => by
    rcases List.mem_cons.1 hp with rfl | hp
    · exact List.Subset.refl _
    · have hinside := subset_of_mem_surroundedAll (v :: around) inside p hp
      exact fun u hu => hinside (List.mem_cons_of_mem _ hu)
/-- The same for one nest after another. -/
theorem subset_of_mem_surroundedAll (around : List Visit) :
    ∀ ns : List Nest, ∀ p ∈ surroundedAll around ns, around ⊆ p.2
  | n :: ns, p, hp => by
    rcases List.mem_append.1 hp with hp | hp
    · exact subset_of_mem_surrounded around n p hp
    · exact subset_of_mem_surroundedAll around ns p hp
end

/-- The dispatches that lie inside none for which the test holds, in their order. -/
def pruned (cut : Visit → Bool) (ps : List (Visit × List Visit)) : List Visit :=
  (ps.filter fun p => p.2.all fun u => !cut u).map Prod.fst

theorem pruned_append (cut : Visit → Bool) (ps qs : List (Visit × List Visit)) :
    pruned cut (ps ++ qs) = pruned cut ps ++ pruned cut qs := by
  rw [pruned, List.filter_append, List.map_append]
  rfl

/-- Nothing is left inside a dispatch that is cut. -/
theorem pruned_of_cut {cut : Visit → Bool} {v : Visit} (hv : cut v = true) (around : List Visit)
    (ns : List Nest) : pruned cut (surroundedAll (v :: around) ns) = [] := by
  have hnone : (surroundedAll (v :: around) ns).filter (fun p => p.2.all fun u => !cut u) = [] := by
    rw [List.filter_eq_nil_iff]
    intro p hp hall
    have hmem : v ∈ p.2 := subset_of_mem_surroundedAll _ ns p hp (List.mem_cons_self ..)
    have hkept := List.all_eq_true.1 hall v hmem
    rw [hv] at hkept
    cases hkept
  rw [pruned, hnone]
  rfl

variable {cut : Visit → Bool} {b : Conduct ω}

mutual
/-- Where dispatches that are cut end at once and well, a walk enters what is left. -/
theorem run_eq_pruned (hends : ∀ v, b.ends v = if cut v then some (.ok ()) else none)
    (hleave : ∀ opened v w, b.leave opened v w = w) (opened : List Cursor)
    {around : List Visit} (haround : ∀ u ∈ around, cut u = false) :
    ∀ (n : Nest) (w : ω), run b opened n w =
      (.ok (), (pruned cut (surrounded around n)).foldl (fun w v => b.enter v w) w)
  | mk v inside, w => by
    have hkept : around.all (fun u => !cut u) = true := by simpa using haround
    have hfirst : pruned cut (surrounded around (mk v inside)) =
        v :: pruned cut (surroundedAll (v :: around) inside) := by
      rw [pruned, surrounded, List.filter_cons, if_pos hkept]
      rfl
    rw [run, hends, hfirst, List.foldl_cons]
    by_cases hv : cut v = true
    · simp only [if_pos hv, Conduct.close, hleave, pruned_of_cut hv, List.foldl_nil]
    · have hv : cut v = false := by simpa using hv
      have hinside := runAll_eq_pruned hends hleave (v.cursor :: opened)
        (List.forall_mem_cons.2 ⟨hv, haround⟩) inside (b.enter v w)
      simp only [hv, Bool.false_eq_true, if_false, hinside, Conduct.close, hleave]
/-- The same for one dispatch after another. -/
theorem runAll_eq_pruned (hends : ∀ v, b.ends v = if cut v then some (.ok ()) else none)
    (hleave : ∀ opened v w, b.leave opened v w = w) (opened : List Cursor)
    {around : List Visit} (haround : ∀ u ∈ around, cut u = false) :
    ∀ (ns : List Nest) (w : ω), runAll b opened ns w =
      (.ok (), (pruned cut (surroundedAll around ns)).foldl (fun w v => b.enter v w) w)
  | [], w => rfl
  | n :: ns, w => by
    rw [runAll, run_eq_pruned hends hleave opened haround n w, surroundedAll, pruned_append,
      List.foldl_append]
    exact runAll_eq_pruned hends hleave opened haround ns _
end

end Nest

/-! ### Tables that record -/

/-- Records a dispatch and does what the handler does. -/
def Handler.recording (record : String → Visitor ω σ) (id : Nat) (key : String)
    (h : Handler ω σ) : Handler ω σ where
  id := id
  run c st := do
    Script.modify (record key c st)
    h.run c st

/-- The default table with handlers that record what is dispatched to them. -/
def Default.recording (first : Nat) (record : String → Visitor ω σ) (ids : String → Nat) :
    Table ω σ :=
  (table first).mapValues fun key => Handler.recording record (ids key) key

/-- Overrides that record what is dispatched to them, and nothing else. -/
def Table.recordOnly (record : String → Visitor ω σ) (ids : String → Nat) (keys : List String) :
    Table ω σ :=
  .ofList (keys.map fun key => (key, ⟨ids key, fun c st => Script.modify (record key c st)⟩))

namespace Walk

/-- A dispatch is recorded, and then ends at once if its key is overridden. -/
theorem notes_recording (first : Nat) (record : String → Visitor ω σ) (ids ids' : String → Nat)
    (keys : List String) (st : σ) :
    (Table.layer (Table.recordOnly record ids' keys) (Default.recording first record ids)).Notes st
      (fun v w => record v.key v.cursor st w)
      fun v => if decide (v.key ∈ keys) then some (.ok ()) else none := by
  intro key p hp c walk w
  obtain ⟨h, hget, rfl⟩ := Option.map_eq_some_iff.1 (Default.runs_table first hp)
  unfold Table.dispatchWorld
  rw [Table.get?_layer, Default.recording, OrderedMap.get?_mapValues, hget, Table.recordOnly,
    OrderedMap.get?_ofList_map fun key =>
      (⟨ids' key, fun c st => Script.modify (record key c st)⟩ : Handler ω σ)]
  by_cases hkey : key ∈ keys
  · simp only [hkey, if_true, decide_true]
    rfl
  · simp only [hkey, if_false, decide_false]
    rfl

/-- **Pruning is exact.**

Let every handler of the default table record what is dispatched to it before it goes on, and let
overrides under some keys record and do nothing further.  A walk of a tree then ends well, and what
is recorded are the visits of a walk through the full table, in their order, without those that lie
inside a dispatch under one of the keys. -/
theorem recursive_pruned (tree : Node) (first : Nat) (record : String → Visitor ω σ)
    (ids ids' : String → Nat) (keys : List String) (spare : Nat) (st : σ) (world : ω) :
    let listed := Nest.surroundedAll [] ((Cursor.root tree).nests none)
    listed.map Prod.fst = (Cursor.root tree).visits none ∧
      recursive (tree.walkFuel + spare) tree st (Table.recordOnly record ids' keys)
          (some (Default.recording first record ids)) world =
        some (.ok (), ((listed.filter fun p => p.2.all fun u => decide (u.key ∉ keys)).map
          Prod.fst).foldl (fun w v => record v.key v.cursor st w) world) := by
  intro listed
  refine ⟨?_, ?_⟩
  · rw [Nest.map_fst_surroundedAll, Cursor.preorder_nests]
  · rw [recursive, baseTable, Option.getD_some,
      run_eq_runAll (notes_recording first record ids ids' keys st) (o := .silent) trivial,
      Nest.runAll_eq_pruned (fun _ => rfl) (fun _ _ _ => rfl) [] (List.forall_mem_nil _)]
    simp only [Nest.pruned, decide_not]
    rfl

end Walk

end TreeWalk
