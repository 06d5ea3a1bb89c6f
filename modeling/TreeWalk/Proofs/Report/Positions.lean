/-
What the places of a tree are counted as.

A walk counts each place under the keys that its node has in the role that it is reached in:
once under the type of the node, and once under each category that the place falls into,
`Arrival.fallsInto`.  So what is counted under a category is a number of places.

Which categories a place falls into is nearly always settled by the place that it is a part
of.  Counted over the parts of every place, a category comes to what the shapes say of their
parts: the bodies of functions and catch clauses, what a `for` starts with, what a `for`-`in`
assigns to, and for all others a statement or an expression.
-/
import Mathlib.Algebra.BigOperators.Group.List.Basic
import Mathlib.Algebra.GroupWithZero.Nat
import TreeWalk.Proofs.Scope.Reference
import TreeWalk.Proofs.Walk.Arrivals

namespace TreeWalk

variable {α β : Type}

/-! ### Counting over lists -/

/-- What counts among the pieces is the sum of what counts in each. -/
theorem countP_flatMap_eq {l : List α} {f : α → List β} {q : β → Bool} {w : α → Nat}
    (h : ∀ a ∈ l, (f a).countP q = w a) : (l.flatMap f).countP q = (l.map w).sum := by
  rw [List.countP_flatMap]
  exact congrArg List.sum (List.map_congr_left h)

/-- A sum of ones, for the items that count. -/
theorem sum_map_toNat (p : α → Bool) (l : List α) :
    (l.map fun a => (p a).toNat).sum = l.countP p := by
  induction l with
  | nil => rfl
  | cons a rest ih =>
    rw [List.map_cons, List.sum_cons, ih, List.countP_cons]
    cases p a <;> simp [Nat.add_comm]

/-! ### The parts of a shape that play special roles -/

namespace Shape

/-- What a `for` starts with. -/
def forInit? : Shape α → Option α
  | .forStatement init .. => init
  | _ => none

/-- What a `for`-`in` assigns to. -/
def forInLeft? : Shape α → Option α
  | .forInStatement left .. => some left
  | _ => none

/-- The catch clauses of a `try`. -/
def catchClauses : Shape α → List (CatchClause α)
  | .tryStatement _ handler handlers _ => clauses handler handlers
  | _ => []

/-- A part is a statement or an expression, the body of a function or of a catch clause, or what
a loop starts with or assigns to. -/
theorem role_cases {s : Shape α} {p : Part α} (hp : p ∈ s.walked) :
    p.role = .statement ∨ p.role = .expression ∨ (p.role = .scopeBody ∧ s.scopeKinds ≠ []) ∨
      (p.role = .forInit ∧ s.forInit?.toList ++ s.forInLeft?.toList ≠ []) := by
  cases s with
  | tryStatement block handler handlers finalizer =>
    rw [walked_tryStatement, List.mem_append, List.mem_cons, List.mem_map, Part.mem_opt] at hp
    rcases hp with (rfl | ⟨c, hc, rfl⟩) | ⟨b, -, rfl⟩
    · exact .inl rfl
    · refine .inr (.inr (.inl ⟨rfl, ?_⟩))
      have hclause := List.ne_nil_of_mem (List.mem_map_of_mem (f := Prod.fst) hc)
      rw [List.zipIdx_map_fst] at hclause
      exact fun hnil => hclause (List.map_eq_nil_iff.1 hnil)
    · exact .inl rfl
  | _ =>
    simp [walked, Part.mem_opt, Part.mem_inEach, Part.mem_each] at hp <;>
      grind [Part.one, Part.under, Part.mem_inEach, Part.mem_opt, Part.mem_each, scopeKinds,
        forInit?, forInLeft?]

/-- The bodies among the parts are as many as the scopes that the node has of its own. -/
theorem countP_scopeBody (s : Shape α) :
    s.walked.countP (·.role == .scopeBody) = s.scopeKinds.length := by
  by_cases hnone : s.scopeKinds = []
  · rw [hnone, List.length_nil, List.countP_eq_zero]
    intro p hp
    have := role_cases hp
    grind
  · cases s with
    | function form id params body => rfl
    | tryStatement block handler handlers finalizer =>
      rw [walked_tryStatement, List.countP_append, List.countP_cons, List.countP_map, scopeKinds]
      cases finalizer <;> simp [Part.one, Part.opt, Function.comp_def]
    | _ => exact absurd rfl hnone

/-- The parts that a loop starts with or assigns to. -/
theorem filter_forInit (s : Shape α) :
    (s.walked.filter (·.role == .forInit)).map Part.child =
      s.forInit?.toList ++ s.forInLeft?.toList := by
  by_cases hnone : s.forInit?.toList ++ s.forInLeft?.toList = []
  · rw [hnone, List.map_eq_nil_iff, List.filter_eq_nil_iff]
    intro p hp
    have := role_cases hp
    grind
  · cases s with
    | forStatement init test update body =>
      cases init <;> cases test <;> cases update <;> rfl
    | forInStatement left right body => rfl
    | _ => exact absurd rfl hnone

/-- A function has one scope of its own, and others one for each catch clause. -/
theorem length_scopeKinds (n : Node) :
    n.shape.scopeKinds.length = n.isFunction.toNat + n.shape.catchClauses.length := by
  obtain ⟨shape, start, stop⟩ := n
  cases shape with
  | tryStatement block handler handlers finalizer =>
    rw [scopeKinds, List.length_map]
    exact (Nat.zero_add _).symm
  | _ => rfl

end Shape

/-! ### The keys that a place is counted under -/

/-- Whether a key is that of a category. -/
def Category.isName (key : String) : Bool := (ofName? key).isSome

@[simp] theorem Category.isName_name (k : Category) : isName k.name = true := by
  rw [isName, ofName?_name]
  rfl

/-- No type is spelled like a category. -/
theorem Category.isName_typeName (t : NodeType) : isName t.name = false := by
  cases t <;> decide

/-- A node is counted under its own type once, and a function under the category of functions. -/
theorem Node.count_ownKeys (n : Node) (k : Category) :
    n.ownKeys.count k.name = (k == .function && n.isFunction).toNat := by
  have htype : (n.typeName == k.name) = false :=
    beq_eq_false_iff_ne.2 (k.name_ne_typeName n.type).symm
  unfold ownKeys
  by_cases hf : n.isFunction = true
  · rw [if_pos hf, hf, List.count_cons, htype]
    cases k <;> decide
  · rw [if_neg hf, List.count_cons, htype]
    simp [hf]

namespace Arrival

/-- Whether the place is counted under a category: by its role, and as a function by its node.
Bodies are statements, and so is what a loop starts with or assigns to an expression, unless it is
a declaration. -/
def fallsInto (a : Arrival) : Category → Bool
  | .statement => a.role == some .statement || a.role == some .scopeBody
  | .expression => a.role == some .expression ||
    (a.role == some .forInit && !a.cursor.node.isVariableDeclaration)
  | .scopeBody => a.role == some .scopeBody
  | .forInit => a.role == some .forInit
  | .function => a.cursor.node.isFunction

/-- A place is counted once under each category that it falls into. -/
theorem count_keys {a : Arrival} (ha : a.role ≠ some .function) (k : Category) :
    a.keys.count k.name = (a.fallsInto k).toNat := by
  obtain ⟨c, role⟩ := a
  have hown := c.node.count_ownKeys k
  match role with
  | none =>
    rw [keys, Node.keysIn, hown]
    cases k <;> rfl
  | some .statement =>
    rw [keys, Node.keysIn, List.count_cons, hown]
    cases k <;> simp only [fallsInto] <;> cases c.node.isFunction <;> rfl
  | some .expression =>
    rw [keys, Node.keysIn, List.count_cons, hown]
    cases k <;> simp only [fallsInto] <;> cases c.node.isFunction <;> rfl
  | some .scopeBody =>
    rw [keys, Node.keysIn, List.count_cons, List.count_cons, hown]
    cases k <;> simp only [fallsInto] <;> cases c.node.isFunction <;> rfl
  | some .forInit =>
    rw [keys, Node.keysIn]
    by_cases hv : c.node.isVariableDeclaration = true
    · rw [if_pos hv, List.count_cons, hown]
      cases k <;> simp only [fallsInto, hv] <;> cases c.node.isFunction <;> rfl
    · rw [if_neg hv, List.count_cons, List.count_cons, hown]
      cases k <;> simp only [fallsInto, hv] <;> cases c.node.isFunction <;> rfl
  | some .function => exact absurd rfl ha

/-- Among the keys of a place the type of its node is the one that is no category. -/
theorem filter_keys {a : Arrival} (ha : a.role ≠ some .function) :
    a.keys.filter (fun key => !Category.isName key) = [a.cursor.node.typeName] := by
  obtain ⟨c, role⟩ := a
  have htype : Category.isName c.node.typeName = false := Category.isName_typeName c.node.type
  have hown : c.node.ownKeys.filter (fun key => !Category.isName key) = [c.node.typeName] := by
    unfold Node.ownKeys
    split <;> simp [htype]
  match role with
  | none => exact hown
  | some .statement => simp [keys, Node.keysIn, hown]
  | some .expression => simp [keys, Node.keysIn, hown]
  | some .scopeBody => simp [keys, Node.keysIn, hown]
  | some .forInit =>
    by_cases hv : c.node.isVariableDeclaration = true
    · simp [keys, Node.keysIn, hv, hown]
    · simp [keys, Node.keysIn, hv, hown]
  | some .function => exact absurd rfl ha

/-- A place is counted once under the type of its node, and under no other type. -/
theorem count_keys_type {a : Arrival} (ha : a.role ≠ some .function) (t : NodeType) :
    a.keys.count t.name = (a.cursor.node.type == t).toNat := by
  have hname : (!Category.isName t.name) = true := by rw [Category.isName_typeName]; rfl
  rw [← List.count_filter (p := fun key => !Category.isName key) hname, filter_keys ha]
  by_cases ht : a.cursor.node.type = t
  · simp [Node.typeName, ht]
  · have hne : a.cursor.node.typeName ≠ t.name := fun h => ht (NodeType.name_injective h)
    rw [beq_eq_false_iff_ne.2 ht]
    simp [hne]

end Arrival

/-! ### Counts of a whole walk -/

namespace Node

/-- The keys of the visits of a walk, each as often as it is visited. -/
def visitedKeys (tree : Node) : List String := ((Cursor.root tree).visits none).map Visit.key

theorem visitedKeys_eq (tree : Node) : tree.visitedKeys = tree.onward.flatMap Arrival.keys := by
  have hown (a : Arrival) : a.own.map Visit.key = a.keys := by
    rw [Arrival.own, List.map_map]
    exact List.map_id _
  rw [visitedKeys, visits_root, List.map_flatMap]
  exact List.flatMap_congr fun a _ => hown a

/-- Where each place has one key that counts, or none, the keys that count are as many as the places
that have one. -/
theorem countP_visitedKeys (tree : Node) {q : String → Bool} {p : Arrival → Bool}
    (h : ∀ a : Arrival, a.role ≠ some .function → a.keys.countP q = (p a).toNat) :
    tree.visitedKeys.countP q = tree.onward.countP p := by
  rw [visitedKeys_eq]
  refine (countP_flatMap_eq ?_).trans (sum_map_toNat p tree.onward)
  intro a ha
  exact h a (role_ne_function ha)

/-- A category is visited once for each place that falls into it. -/
theorem count_visitedKeys (tree : Node) (k : Category) :
    tree.visitedKeys.count k.name = tree.onward.countP (·.fallsInto k) :=
  tree.countP_visitedKeys fun _ ha => Arrival.count_keys ha k

/-- A type is visited once for each place that is of it. -/
theorem count_visitedKeys_type (tree : Node) (t : NodeType) :
    tree.visitedKeys.count t.name = tree.places.countP (·.node.type == t) := by
  rw [places, List.countP_map]
  exact tree.countP_visitedKeys fun _ ha => Arrival.count_keys_type ha t

/-- Each place is visited once under a key that is no category. -/
theorem countP_visitedKeys_types (tree : Node) :
    tree.visitedKeys.countP (fun key => !Category.isName key) = tree.places.length := by
  rw [places, List.length_map, ← List.countP_true]
  refine tree.countP_visitedKeys ?_
  intro a ha
  rw [List.countP_eq_length_filter, a.filter_keys ha]
  rfl

/-- What counts among the arrivals counts among the first one and the parts of all. -/
theorem countP_onward (tree : Node) (q : Arrival → Bool) :
    tree.onward.countP q =
      (q ⟨.root tree, none⟩).toNat + (tree.onward.flatMap Arrival.parts).countP q := by
  rw [onward, (Arrival.perm_onward _).countP_eq, List.countP_cons]
  cases q _ <;> simp [Nat.add_comm]

/-- What counts among the parts of all places. -/
theorem countP_parts (tree : Node) {q : Arrival → Bool} {w : Cursor → Nat}
    (h : ∀ c, (c.node.shape.walked.countP fun p => q ⟨c.part p, some p.role⟩) = w c) :
    (tree.onward.flatMap Arrival.parts).countP q = (tree.places.map w).sum := by
  rw [places, List.map_map]
  refine countP_flatMap_eq ?_
  intro a _
  rw [Arrival.parts, List.countP_map]
  exact h a.cursor

/-- A function is of one of two types. -/
theorem toNat_isFunction (n : Node) :
    n.isFunction.toNat =
      (n.type == .functionDeclaration).toNat + (n.type == .functionExpression).toNat := by
  obtain ⟨shape, start, stop⟩ := n
  cases shape with
  | function form id params body => cases form <;> rfl
  | jump form label => cases form <;> rfl
  | loop form test body => cases form <;> rfl
  | unary form operator prefixed argument => cases form <;> rfl
  | binary form operator left right => cases form <;> rfl
  | call form callee arguments => cases form <;> rfl
  | _ => rfl

/-- The places that fall into the category of functions are those of functions. -/
theorem countP_isFunction (tree : Node) :
    tree.onward.countP (·.fallsInto .function) = tree.places.countP (·.node.isFunction) := by
  rw [places, List.countP_map]
  rfl

/-- The functions are those of both types. -/
theorem countP_function (tree : Node) :
    tree.onward.countP (·.fallsInto .function) =
      tree.places.countP (·.node.type == .functionDeclaration) +
        tree.places.countP (·.node.type == .functionExpression) := by
  rw [countP_isFunction, ← sum_map_toNat, ← sum_map_toNat, ← sum_map_toNat, ← List.sum_map_add]
  exact congrArg List.sum (List.map_congr_left fun c _ => c.node.toNat_isFunction)

/-- The bodies are as many as the scopes that nodes have of their own. -/
theorem countP_scopeBody (tree : Node) :
    tree.onward.countP (·.fallsInto .scopeBody) =
      (tree.places.flatMap fun c => c.node.shape.scopeKinds).length := by
  have hparts (c : Cursor) : (c.node.shape.walked.countP fun p =>
      Arrival.fallsInto ⟨c.part p, some p.role⟩ .scopeBody) = c.node.shape.scopeKinds.length :=
    c.node.shape.countP_scopeBody
  rw [countP_onward, countP_parts tree hparts, List.length_flatMap]
  exact Nat.zero_add _

/-- Those scopes are one for each function and one for each catch clause. -/
theorem length_flatMap_scopeKinds (tree : Node) :
    (tree.places.flatMap fun c => c.node.shape.scopeKinds).length =
      tree.onward.countP (·.fallsInto .function) +
        (tree.places.flatMap fun c => c.node.shape.catchClauses).length := by
  simp only [List.length_flatMap, Shape.length_scopeKinds, List.sum_map_add, sum_map_toNat,
    countP_isFunction]

/-- What loops start with or assign to, and is counted, is at those positions of loops. -/
theorem countP_forInit (tree : Node) (q : Node → Bool) :
    (tree.onward.flatMap Arrival.parts).countP
        (fun a => a.role == some .forInit && q a.cursor.node) =
      tree.places.countP (fun c => c.node.shape.forInit?.any q) +
        tree.places.countP (fun c => c.node.shape.forInLeft?.any q) := by
  have hoption (o : Option Node) : o.toList.countP q = (o.any q).toNat := by
    cases o with
    | none => rfl
    | some n => cases hq : q n <;> simp [hq]
  have hparts (c : Cursor) : (c.node.shape.walked.countP fun p =>
      some p.role == some .forInit && q p.child) =
        (c.node.shape.forInit?.any q).toNat + (c.node.shape.forInLeft?.any q).toNat := by
    rw [← hoption, ← hoption, ← List.countP_append, ← Shape.filter_forInit, List.countP_map,
      List.countP_filter]
    refine List.countP_congr ?_
    intro p _
    simp [and_comm]
  rw [countP_parts tree hparts, List.sum_map_add, sum_map_toNat, sum_map_toNat]

/-- Every place but the root is a statement, an expression, or a declaration that a loop starts with
or assigns to. -/
theorem length_places (tree : Node) :
    tree.places.length = 1 + tree.onward.countP (·.fallsInto .statement) +
      tree.onward.countP (·.fallsInto .expression) +
      (tree.onward.flatMap Arrival.parts).countP
        (fun a => a.role == some .forInit && a.cursor.node.isVariableDeclaration) := by
  have hone : ∀ b ∈ tree.onward.flatMap Arrival.parts, true.toNat =
      (b.fallsInto .statement).toNat + (b.fallsInto .expression).toNat +
        (b.role == some .forInit && b.cursor.node.isVariableDeclaration).toNat := by
    intro b hb
    obtain ⟨a, -, hb⟩ := List.mem_flatMap.1 hb
    obtain ⟨p, hp, rfl⟩ := Arrival.mem_parts.1 hb
    have hrole := Shape.role_ne_function hp
    obtain ⟨steps, role, child⟩ := p
    cases role with
    | function => exact absurd rfl hrole
    | forInit =>
      cases hv : child.isVariableDeclaration <;>
        simp [Arrival.fallsInto, Cursor.part, Cursor.down, hv]
    | _ => rfl
  -- so over all parts the three counts come to their number
  have hparts := congrArg List.sum (List.map_congr_left hone)
  rw [List.sum_map_add, List.sum_map_add, sum_map_toNat, sum_map_toNat, sum_map_toNat,
    sum_map_toNat] at hparts
  have hall : tree.places.length = 1 +
      (tree.onward.flatMap Arrival.parts).countP fun _ => true := by
    rw [places, List.length_map, ← List.countP_true]
    exact countP_onward tree fun _ => true
  have hstatements := countP_onward tree (·.fallsInto .statement)
  have hexpressions := countP_onward tree (·.fallsInto .expression)
  have hroot (k : Category) (hk : k ≠ .function) :
      Arrival.fallsInto ⟨.root tree, none⟩ k = false := by
    cases k <;> first | rfl | exact absurd rfl hk
  rw [hroot .statement (by decide)] at hstatements
  rw [hroot .expression (by decide)] at hexpressions
  rw [hall, hparts, hstatements, hexpressions, Bool.toNat_false]
  omega

end Node

end TreeWalk
