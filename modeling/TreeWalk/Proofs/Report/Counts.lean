/-
What the counts of a report come to.

The report counts the keys of a walk's visits one after another.  Afterwards each key has the
number of times that it was visited, `get?_tally`, and the counts of all keys of some sort add
up to the visits under them, `total_tally`.  Sorting the counts and parting types from
categories changes neither, so the report says how often each type and category was visited,
and `Node.visitedKeys` has been counted over the places of the tree before.
-/
import TreeWalk.Proofs.OrderedMap.Insertion
import TreeWalk.Proofs.Report.Positions

namespace TreeWalk

/-! ### Tallies -/

namespace Tally

/-- The count of a key, which is zero where the key is absent. -/
def of (t : Tally) (key : String) : Nat := (OrderedMap.find? key t).getD 0

theorem total_eq (t : Tally) : t.total = (t.map Prod.snd).sum := by
  induction t with
  | nil => rfl
  | cons e rest ih => rw [List.map_cons, List.sum_cons, ← ih]; rfl

theorem total_perm {s t : Tally} (h : s.Perm t) : s.total = t.total := by
  rw [total_eq, total_eq]
  exact (h.map Prod.snd).sum_eq

/-- Counting a key once more adds one to the total of the keys that it is among. -/
theorem total_filter_put (p : String → Bool) (key : String) (t : Tally) :
    total ((OrderedMap.put key ((OrderedMap.find? key t).getD 0 + 1) t).filter fun e => p e.1) =
      total (t.filter fun e => p e.1) + (p key).toNat := by
  simp only [total_eq]
  induction t with
  | nil => cases hp : p key <;> simp [OrderedMap.put, OrderedMap.find?, hp]
  | cons e rest ih =>
    obtain ⟨k, n⟩ := e
    by_cases hk : k = key
    · -- the key has its count here, and it goes up by one
      subst hk
      cases hp : p k <;> simp [OrderedMap.put, OrderedMap.find?, hp]
      omega
    · cases hp : p k <;> simp [OrderedMap.put, OrderedMap.find?, hk, hp, ih]
      omega

end Tally

namespace StatsReport

/-- The counts of keys that come one after another. -/
def tally (keys : List String) : Counts :=
  keys.foldl (fun counts key => counts.insert key ((counts.get? key).getD 0 + 1)) .empty

theorem tally_concat (keys : List String) (key : String) :
    tally (keys ++ [key]) =
      (tally keys).insert key (((tally keys).get? key).getD 0 + 1) := List.foldl_concat ..

/-- **A key is counted as often as it comes.** -/
theorem get?_tally (keys : List String) (key : String) :
    (tally keys).get? key = if keys.count key = 0 then none else some (keys.count key) := by
  induction keys using List.reverseRecOn with
  | nil => rfl
  | append_singleton keys last ih =>
    rw [tally_concat, OrderedMap.get?_insert, List.count_append]
    by_cases hlast : last = key
    · subst hlast
      rw [if_pos rfl, ih]
      by_cases hnone : keys.count last = 0 <;> simp [hnone]
    · simp [hlast, ih]

/-- **The counts of keys add up to how many of the keys come.** -/
theorem total_tally (p : String → Bool) (keys : List String) :
    Tally.total ((tally keys).entries.filter fun e => p e.1) = keys.countP p := by
  induction keys using List.reverseRecOn with
  | nil => rfl
  | append_singleton keys last ih =>
    rw [tally_concat, List.countP_append, ← ih]
    refine (Tally.total_filter_put p last (tally keys).entries).trans ?_
    cases hp : p last <;> simp [hp]

/-! ### What a report on counted keys says -/

section

variable (keys : List String)

/-- The sorted counts have the entries that there are. -/
theorem sorted_perm (counts : Counts) :
    (counts.entries.mergeSort fun a b => decide (a.1 ≤ b.1)).Perm counts.entries :=
  List.mergeSort_perm _ _

/-- Sorting changes no count. -/
theorem find?_sorted (name : String) :
    OrderedMap.find? name ((tally keys).entries.mergeSort fun a b => decide (a.1 ≤ b.1)) =
      if keys.count name = 0 then none else some (keys.count name) := by
  rw [← get?_tally, OrderedMap.get?]
  have hperm := sorted_perm (tally keys)
  exact OrderedMap.find?_perm hperm ((hperm.map Prod.fst).nodup_iff.2 (tally keys).nodup_keys) name

/-- The report has the count of each type. -/
theorem find?_types (t : NodeType) :
    OrderedMap.find? t.name (ofCounts (tally keys)).types =
      if keys.count t.name = 0 then none else some (keys.count t.name) := by
  refine (OrderedMap.find?_filter (fun key => !Category.isName key) t.name _).trans ?_
  rw [Category.isName_typeName]
  exact find?_sorted keys t.name

/-- The report has the count of each category. -/
theorem find?_categories (k : Category) :
    OrderedMap.find? k.name (ofCounts (tally keys)).categories =
      if keys.count k.name = 0 then none else some (keys.count k.name) := by
  refine (OrderedMap.find?_filter Category.isName k.name _).trans ?_
  rw [Category.isName_name]
  exact find?_sorted keys k.name

theorem of_types (t : NodeType) : (ofCounts (tally keys)).types.of t.name = keys.count t.name := by
  rw [Tally.of, find?_types]
  split
  · exact Eq.symm ‹_›
  · rfl

theorem of_categories (k : Category) :
    (ofCounts (tally keys)).categories.of k.name = keys.count k.name := by
  rw [Tally.of, find?_categories]
  split
  · exact Eq.symm ‹_›
  · rfl

/-- The nodes are the visits under types. -/
theorem nodes_eq :
    (ofCounts (tally keys)).nodes = keys.countP fun key => !Category.isName key := by
  rw [← total_tally]
  exact Tally.total_perm ((sorted_perm (tally keys)).filter _)

end

/-! ### What the report on a tree says -/

section

variable (tree : Node)

/-- The report on a tree. -/
def ofTree : StatsReport := ofCounts (tally tree.visitedKeys)

/-- A simple walk with a counter for every key makes the report. -/
theorem collect_eq : collect tree = some (.ok (ofTree tree)) := by
  have hwalk : Walk.simple tree.walkFuel tree visitors none () OrderedMap.empty =
      some (.ok (), ((Cursor.root tree).visits none).foldl (Observer.tell visitors ())
        OrderedMap.empty) := Walk.simple_eq tree visitors 0 () OrderedMap.empty
  have hcount := Observer.foldl_tell_everywhere count () (Cursor.root tree) none OrderedMap.empty
  rw [collect, hwalk, ofTree, Node.visitedKeys, tally, List.foldl_map]
  exact congrArg (fun counts => some (Except.ok (ofCounts counts))) hcount

/-- The count of a type is the number of places of that type. -/
theorem types_of (t : NodeType) :
    (ofTree tree).types.of t.name = tree.places.countP (·.node.type == t) :=
  (of_types tree.visitedKeys t).trans (tree.count_visitedKeys_type t)

/-- The count of a category is the number of places that fall into it. -/
theorem categories_of (k : Category) :
    (ofTree tree).categories.of k.name = tree.onward.countP (·.fallsInto k) :=
  (of_categories tree.visitedKeys k).trans (tree.count_visitedKeys k)

/-- The counts of both types of function come to the places of functions. -/
theorem types_of_functions :
    (ofTree tree).types.of "FunctionDeclaration" + (ofTree tree).types.of "FunctionExpression" =
      tree.onward.countP (·.fallsInto .function) := by
  have hboth := tree.countP_function
  rw [← types_of, ← types_of] at hboth
  exact hboth.symm

end

/-- **What a report on a tree says.**

A report is always made.  It counts every place that a walk of the tree comes to as one node, and
under the type of its node; a type of no place is absent.  Functions are counted again as such,
the bodies of functions and of catch clauses as bodies, and what a `for` starts with or a
`for`-`in` assigns to as that.  Every place but the root is counted as a statement or as an
expression, unless it is a declaration that a loop starts with or assigns to. -/
theorem collect_counts (tree : Node) :
    (∀ c, c ∈ tree.places ↔ tree.Walked c) ∧ (tree.places.map Cursor.trail).Nodup ∧
      ∃ r, collect tree = some (.ok r) ∧
        r.nodes = r.types.total ∧
        r.nodes = tree.places.length ∧
        (∀ t : NodeType, OrderedMap.find? t.name r.types =
          if tree.places.countP (·.node.type == t) = 0 then none
          else some (tree.places.countP (·.node.type == t))) ∧
        r.categories.of "Function" =
          r.types.of "FunctionDeclaration" + r.types.of "FunctionExpression" ∧
        r.categories.of "ScopeBody" =
          r.types.of "FunctionDeclaration" + r.types.of "FunctionExpression" +
            (tree.places.flatMap fun c => c.node.shape.catchClauses).length ∧
        r.categories.of "ForInit" =
          tree.places.countP (fun c => c.node.shape.forInit?.isSome) +
            tree.places.countP (fun c => c.node.shape.forInLeft?.isSome) ∧
        r.nodes = 1 + r.categories.of "Statement" + r.categories.of "Expression" +
          (tree.places.countP (fun c => c.node.shape.forInit?.any Node.isVariableDeclaration) +
            tree.places.countP
              (fun c => c.node.shape.forInLeft?.any Node.isVariableDeclaration)) := by
  have hnodes : (ofTree tree).nodes = tree.places.length :=
    (nodes_eq tree.visitedKeys).trans tree.countP_visitedKeys_types
  have hloops : tree.onward.countP (·.fallsInto .forInit) =
      tree.places.countP (fun c => c.node.shape.forInit?.isSome) +
        tree.places.countP (fun c => c.node.shape.forInLeft?.isSome) := by
    have hany (o : Option Node) : o.any (fun _ => true) = o.isSome := by cases o <;> rfl
    have hparts := tree.countP_forInit fun _ => true
    simp only [hany, Bool.and_true] at hparts
    rw [Node.countP_onward, ← hparts]
    exact Nat.zero_add _
  refine ⟨fun c => Node.mem_places, tree.nodup_places, ofTree tree, collect_eq tree, rfl, hnodes,
    ?_, ?_, ?_, ?_, ?_⟩
  · intro t
    rw [← tree.count_visitedKeys_type]
    exact find?_types tree.visitedKeys t
  · rw [types_of_functions]
    exact categories_of tree .function
  · rw [types_of_functions, ← tree.length_flatMap_scopeKinds, ← tree.countP_scopeBody]
    exact categories_of tree .scopeBody
  · exact (categories_of tree .forInit).trans hloops
  · have hlength := tree.length_places
    rw [tree.countP_forInit, ← categories_of, ← categories_of] at hlength
    exact hnodes.trans hlength

end StatsReport

end TreeWalk
