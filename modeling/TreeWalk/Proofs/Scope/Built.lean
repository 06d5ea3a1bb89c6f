/-
Scope trees of trees built in code.

The functions that build trees take names where a name is bound, and make identifiers of them.
So a tree that is `Built` by them, whatever offsets its nodes are given, has a scope tree.

That a tree was built so goes down to the children of each node, names and all, because each
function makes a node of one type of nodes that were built: `Built.child`.  So what is said of
one node, `Built.names`, holds of every node that is walked.
-/
import TreeWalk.Proofs.Scope.Agreement
import TreeWalk.Proofs.Scope.Fault
import TreeWalk.Proofs.Scope.Upkeep

namespace TreeWalk

/-- Where there is no single clause, the clauses are those listed. -/
theorem Shape.clauses_none {α : Type} (handlers : List (CatchClause α)) :
    clauses none handlers = handlers := by
  cases handlers <;> rfl

namespace Build

/-- The tree was made by the functions that build trees, and by attaching offsets. -/
inductive Built : Node → Prop where
  | withOffsets {n : Node} (h : Built n) (start stop : Offset) : Built (n.withOffsets start stop)
  | ident (name : String) : Built (ident name)
  | num (value : Float) : Built (num value)
  | string (value : String) : Built (string value)
  | boolean (value : Bool) : Built (boolean value)
  | null : Built null
  | program {body : List Node} (h : ∀ n ∈ body, Built n) : Built (program body)
  | block {body : List Node} (h : ∀ n ∈ body, Built n) : Built (block body)
  | empty : Built empty
  | exprStmt {expression : Node} (h : Built expression) : Built (exprStmt expression)
  | ifStmt {test consequent : Node} {alternate : Option Node} (htest : Built test)
    (hconsequent : Built consequent) (halternate : ∀ n ∈ alternate, Built n) :
    Built (ifStmt test consequent alternate)
  | labeled (label : String) {body : Node} (h : Built body) : Built (labeled label body)
  | breakStmt (label : Option String) : Built (breakStmt label)
  | continueStmt (label : Option String) : Built (continueStmt label)
  | withStmt {object body : Node} (hobject : Built object) (hbody : Built body) :
    Built (withStmt object body)
  | switchStmt {discriminant : Node} {cases : List (Option Node × List Node)}
    (hdiscriminant : Built discriminant) (htests : ∀ c ∈ cases, ∀ n ∈ c.1, Built n)
    (hconsequents : ∀ c ∈ cases, ∀ n ∈ c.2, Built n) :
    Built (switchStmt discriminant (cases.map fun c => case c.1 c.2))
  | returnStmt {argument : Option Node} (h : ∀ n ∈ argument, Built n) :
    Built (returnStmt argument)
  | throwStmt {argument : Node} (h : Built argument) : Built (throwStmt argument)
  | tryStmt {body : List Node} {handlers : List (String × List Node)}
    {finalizer : Option (List Node)} (hbody : ∀ n ∈ body, Built n)
    (hhandlers : ∀ c ∈ handlers, ∀ n ∈ c.2, Built n)
    (hfinalizer : ∀ ns ∈ finalizer, ∀ n ∈ ns, Built n) :
    Built (tryStmt body (handlers.map fun c => catchClause c.1 c.2) finalizer)
  | whileStmt {test body : Node} (htest : Built test) (hbody : Built body) :
    Built (whileStmt test body)
  | doWhile {body test : Node} (hbody : Built body) (htest : Built test) :
    Built (doWhile body test)
  | forStmt {init test update : Option Node} {body : Node} (hinit : ∀ n ∈ init, Built n)
    (htest : ∀ n ∈ test, Built n) (hupdate : ∀ n ∈ update, Built n) (hbody : Built body) :
    Built (forStmt init test update body)
  | forIn {left right body : Node} (hleft : Built left) (hright : Built right)
    (hbody : Built body) : Built (forIn left right body)
  | debugger : Built debugger
  | funcDecl (name : String) (params : List String) {body : List Node}
    (h : ∀ n ∈ body, Built n) : Built (funcDecl name params body)
  | funcExpr (name : Option String) (params : List String) {body : List Node}
    (h : ∀ n ∈ body, Built n) : Built (funcExpr name params body)
  | varDecl {declarations : List (String × Option Node)}
    (h : ∀ d ∈ declarations, ∀ n ∈ d.2, Built n) :
    Built (varDecl (declarations.map fun d => declarator d.1 d.2))
  | var (name : String) {init : Option Node} (h : ∀ n ∈ init, Built n) : Built (var name init)
  | this : Built this
  | array {elements : List (Option Node)} (h : ∀ e ∈ elements, ∀ n ∈ e, Built n) :
    Built (array elements)
  | object {properties : List (String × Node)} (h : ∀ p ∈ properties, Built p.2) :
    Built (object properties)
  | sequence {expressions : List Node} (h : ∀ n ∈ expressions, Built n) :
    Built (sequence expressions)
  | unary (operator : String) {argument : Node} (h : Built argument) :
    Built (unary operator argument)
  | update (operator : String) ( prefixed : Bool) {argument : Node} (h : Built argument) :
    Built (update operator prefixed argument)
  | binary (operator : String) {left right : Node} (hleft : Built left) (hright : Built right) :
    Built (binary operator left right)
  | assign (operator : String) {left right : Node} (hleft : Built left) (hright : Built right) :
    Built (assign operator left right)
  | logical (operator : String) {left right : Node} (hleft : Built left) (hright : Built right) :
    Built (logical operator left right)
  | conditional {test consequent alternate : Node} (htest : Built test)
    (hconsequent : Built consequent) (halternate : Built alternate) :
    Built (conditional test consequent alternate)
  | call {callee : Node} {arguments : List Node} (hcallee : Built callee)
    (harguments : ∀ n ∈ arguments, Built n) : Built (call callee arguments)
  | construct {callee : Node} {arguments : List Node} (hcallee : Built callee)
    (harguments : ∀ n ∈ arguments, Built n) : Built (construct callee arguments)
  | member {object : Node} (h : Built object) (name : String) : Built (member object name)
  | index {object property : Node} (hobject : Built object) (hproperty : Built property) :
    Built (index object property)

namespace Built

variable {n : Node}

theorem forall_mem_toList {o : Option Node} (h : ∀ n ∈ o, Built n) : ∀ n ∈ o.toList, Built n :=
  fun n hn => h n (Option.mem_toList.1 hn)

theorem forall_mem_idents (names : List String) : ∀ n ∈ names.map Build.ident, Built n := by
  intro n hn
  obtain ⟨name, -, rfl⟩ := List.mem_map.1 hn
  exact .ident name

theorem forall_mem_pair {a b : Node} (ha : Built a) (hb : Built b) : ∀ n ∈ [a, b], Built n :=
  List.forall_mem_cons.2 ⟨ha, List.forall_mem_singleton.2 hb⟩

theorem forall_mem_triple {a b c : Node} (ha : Built a) (hb : Built b) (hc : Built c) :
    ∀ n ∈ [a, b, c], Built n :=
  List.forall_mem_cons.2 ⟨ha, forall_mem_pair hb hc⟩

/-- A function of either form has its names and a block for children. -/
theorem forall_mem_function (name : Option String) (params : List String) {body : List Node}
    (h : ∀ n ∈ body, Built n) :
    ∀ n ∈ (name.map Build.ident).toList ++ params.map Build.ident ++ [Build.block body],
      Built n := by
  rw [Option.toList_map]
  exact List.forall_mem_append.2 ⟨List.forall_mem_append.2
    ⟨forall_mem_idents _, forall_mem_idents _⟩, List.forall_mem_singleton.2 (.block h)⟩

/-- Every child of a node that was built was built. -/
theorem child (h : Built n) : ∀ m ∈ n.shape.children, Built m := by
  induction h with
  | withOffsets _ _ _ ih => exact ih
  | ident | num | string | boolean | null | empty | debugger | this =>
    exact fun _ hm => absurd hm List.not_mem_nil
  | program h | block h | sequence h => exact h
  | exprStmt h | throwStmt h | unary _ h | update _ _ h => exact List.forall_mem_singleton.2 h
  | returnStmt h => exact forall_mem_toList h
  | breakStmt label | continueStmt label =>
    show ∀ m ∈ (label.map Build.ident).toList, Built m
    rw [Option.toList_map]
    exact forall_mem_idents _
  | labeled label h => exact forall_mem_pair (.ident label) h
  | member h name => exact forall_mem_pair h (.ident name)
  | withStmt ha hb | whileStmt ha hb | binary _ ha hb | assign _ ha hb | logical _ ha hb
  | index ha hb => exact forall_mem_pair ha hb
  | doWhile hbody htest => exact forall_mem_pair htest hbody
  | conditional ha hb hc | forIn ha hb hc => exact forall_mem_triple ha hb hc
  | call hcallee harguments | construct hcallee harguments =>
    exact List.forall_mem_cons.2 ⟨hcallee, harguments⟩
  | ifStmt htest hconsequent halternate =>
    exact List.forall_mem_cons.2 ⟨htest, List.forall_mem_cons.2
      ⟨hconsequent, forall_mem_toList halternate⟩⟩
  | forStmt hinit htest hupdate hbody =>
    exact List.forall_mem_append.2 ⟨List.forall_mem_append.2 ⟨List.forall_mem_append.2
      ⟨forall_mem_toList hinit, forall_mem_toList htest⟩, forall_mem_toList hupdate⟩,
      List.forall_mem_singleton.2 hbody⟩
  | funcDecl name params h => exact forall_mem_function (some name) params h
  | funcExpr name params h => exact forall_mem_function name params h
  | array h =>
    intro m hm
    obtain ⟨e, he, hm⟩ := List.mem_flatMap.1 hm
    exact forall_mem_toList (h e he) m hm
  | object h =>
    intro m hm
    obtain ⟨property, hmem, hm⟩ := List.mem_flatMap.1 hm
    obtain ⟨⟨key, value⟩, hvalue, rfl⟩ := List.mem_map.1 hmem
    exact forall_mem_pair (.ident key) (h _ hvalue) m hm
  | varDecl h =>
    intro m hm
    obtain ⟨declarator, hmem, hm⟩ := List.mem_flatMap.1 hm
    obtain ⟨⟨name, init⟩, hinit, rfl⟩ := List.mem_map.1 hmem
    exact List.forall_mem_cons.2 ⟨.ident name, forall_mem_toList (h _ hinit)⟩ m hm
  | var name h =>
    intro m hm
    obtain ⟨declarator, hmem, hm⟩ := List.mem_flatMap.1 hm
    obtain rfl := List.mem_singleton.1 hmem
    exact List.forall_mem_cons.2 ⟨.ident name, forall_mem_toList h⟩ m hm
  | switchStmt hdiscriminant htests hconsequents =>
    refine List.forall_mem_cons.2 ⟨hdiscriminant, ?_⟩
    intro m hm
    obtain ⟨clause, hmem, hm⟩ := List.mem_flatMap.1 hm
    obtain ⟨c, hc, rfl⟩ := List.mem_map.1 hmem
    exact List.forall_mem_append.2 ⟨forall_mem_toList (htests c hc), hconsequents c hc⟩ m hm
  | tryStmt hbody hhandlers hfinalizer =>
    refine List.forall_mem_cons.2 ⟨.block hbody, List.forall_mem_append.2 ⟨?_, ?_⟩⟩
    · intro m hm
      obtain ⟨clause, hmem, hm⟩ := List.mem_flatMap.1 hm
      obtain ⟨c, hc, rfl⟩ := List.mem_map.1 hmem
      exact forall_mem_pair (.ident c.1) (.block (hhandlers c hc)) m hm
    · intro m hm
      obtain ⟨ns, hns, rfl⟩ := Option.map_eq_some_iff.1 (Option.mem_toList.1 hm)
      exact .block (hfinalizer ns hns)

/-- The names that are bound at a node that was built are identifiers. -/
theorem names (h : Built n) : ∀ m ∈ n.shape.names, m.name?.isSome = true := by
  have hidents {m : Node} {names : List String} (hm : m ∈ names.map Build.ident) :
      m.name?.isSome = true := by
    obtain ⟨name, -, rfl⟩ := List.mem_map.1 hm
    rfl
  have hfunction {m : Node} (name : Option String) {params : List String}
      (hm : m ∈ params.map Build.ident ++ (name.map Build.ident).toList) :
      m.name?.isSome = true := by
    rw [Option.toList_map] at hm
    exact (List.mem_append.1 hm).elim hidents hidents
  induction h with
  | withOffsets _ _ _ ih => exact ih
  | funcDecl name params => exact fun m hm => hfunction (some name) hm
  | funcExpr name => exact fun m hm => hfunction name hm
  | tryStmt =>
    intro m hm
    obtain ⟨clause, hmem, rfl⟩ := List.mem_map.1 hm
    rw [Shape.clauses_none] at hmem
    obtain ⟨c, -, rfl⟩ := List.mem_map.1 hmem
    rfl
  | varDecl =>
    intro m hm
    obtain ⟨declarator, hmem, rfl⟩ := List.mem_map.1 hm
    obtain ⟨d, -, rfl⟩ := List.mem_map.1 hmem
    rfl
  | var =>
    intro m hm
    obtain rfl := List.mem_singleton.1 hm
    rfl
  | _ => exact fun _ hm => absurd hm List.not_mem_nil

/-- What a walk comes to in a tree that was built was built. -/
theorem of_reaches {c d : Cursor} (hcd : c.Reaches d) (h : Built c.node) : Built d.node := by
  induction hcd with
  | here => exact h
  | inside hp _ ih => exact ih (h.child _ (Shape.child_mem_of_mem_walked hp))

end Built

end Build

/-! ### Names and their nodes -/

/-- Where all names to be bound are identifiers, there is a scope tree. -/
theorem exists_scopeTree {tree : Node}
    (h : ∀ c, tree.Walked c → ∀ m ∈ c.node.shape.names, m.name?.isSome = true) :
    ∃ s, scopeTree tree = some (.ok s) := by
  have hnone : ∀ e ∈ (Cursor.root tree).events none, e.fault? = none := by
    intro e he
    cases hfault : e.fault? with
    | none => rfl
    | some err =>
      obtain ⟨d, hd, n, hn, hname⟩ := (Cursor.exists_fault_iff _ none).1 ⟨e, he, err, hfault⟩
      have hsome := h d hd n hn
      rw [hname] at hsome
      cases hsome
  let start : ScopeStore := ScopeStore.empty.openGlobal.2.hold globalScope
  have hok : (ScopeWalk.perform .empty ((Cursor.root tree).events none)
      ⟨globalScope, [], (start, ())⟩).1 = .ok () :=
    ScopeWalk.perform_of_fault_none hnone _
  rw [scopeTree, ScopeWalk.run_eq, Option.map_some]
  dsimp only
  rw [hok]
  exact ⟨_, rfl⟩

namespace ScopeStore

/-- Every binding stands under the name of its own node. -/
def OwnNamed (s : ScopeStore) : Prop := ∀ i, ∀ e ∈ s.bindings i, e.2.name = e.1

/-- Whatever a walk binds it binds under its own name. -/
theorem OwnNamed.upkept : Upkept OwnNamed where
  openChild {s} p kind h := by
    intro i e he
    rw [bindings, scope_openChild] at he
    split at he
    · exact absurd he List.not_mem_nil
    · split at he
      · exact h i e he
      · exact h i e he
  declare {s} i kind name n hn h := by
    intro j e he
    rw [bindings, scope_declare] at he
    split at he
    · rcases OrderedMap.of_mem_put he with rfl | he
      · exact Binding.name_of_name? hn
      · exact h j e he
    · exact h j e he

/-- Nothing is bound in a new outermost scope. -/
theorem OwnNamed.start : OwnNamed (empty.openGlobal.2.hold globalScope) := by
  intro i e he
  change e ∈ (empty.openGlobal.2.scope i).bindings.entries at he
  rw [scope_openGlobal] at he
  split at he <;> exact absurd he List.not_mem_nil

end ScopeStore

/-- **A tree that was built has a scope tree, and each binding in it stands under the name of its
own node.** -/
theorem Build.Built.scopeTree_ownNamed {tree : Node} (h : Built tree) :
    ∃ s, scopeTree tree = some (.ok s) ∧ ∀ i, ∀ e ∈ s.bindings i, e.2.name = e.1 := by
  obtain ⟨s, hs⟩ := exists_scopeTree fun c hc => (h.of_reaches hc).names
  exact ⟨s, hs, ScopeStore.OwnNamed.upkept.run (ScopeStore.run_of_scopeTree hs) .start⟩

/-- A tree that binds names over again was built. -/
theorem Build.built_rebinding : Built rebinding := by
  have hnone : ∀ n ∈ ([] : List Node), Built n := fun _ hn => absurd hn List.not_mem_nil
  have hexpression : Built (funcExpr "g" ["g"] []) := .funcExpr _ _ hnone
  have hcaught : Built (varDecl ([("e", some (funcExpr "g" ["g"] [])), ("f", none)].map
      fun d => declarator d.1 d.2)) :=
    .varDecl (by simp [hexpression])
  have htry : Built (tryStmt [funcDecl "f" ["a", "a"] []]
      ([("e", [varDecl ([("e", some (funcExpr "g" ["g"] [])), ("f", none)].map
        fun d => declarator d.1 d.2)])].map fun c => catchClause c.1 c.2)
      (some [exprStmt (ident "f")])) :=
    .tryStmt (by simp [Built.funcDecl _ _ hnone]) (by simpa using hcaught)
      (by simp [Built.exprStmt (.ident "f")])
  have hvar : Built (var "f" none) := .var "f" (by simp)
  exact .program (List.forall_mem_cons.2 ⟨hvar, List.forall_mem_singleton.2 htry⟩)

/-- Offsets that are the wrong way round do no harm. -/
theorem Build.scopeTree_ownNamed_rebinding : ∃ s,
    scopeTree (rebinding.withOffsets 9 4) = some (.ok s) ∧
      (List.range 4).map s.names = [["f"], ["a"], ["e", "f"], ["g"]] ∧
      ∀ i, ∀ e ∈ s.bindings i, e.2.name = e.1 := by
  obtain ⟨s, hs, hnames⟩ := (built_rebinding.withOffsets 9 4).scopeTree_ownNamed
  obtain ⟨t, ht⟩ : ∃ t, scopeTree (rebinding.withOffsets 9 4) = some (.ok t) ∧
      (List.range 4).map t.names = [["f"], ["a"], ["e", "f"], ["g"]] :=
    ⟨_, rfl, by decide⟩
  obtain rfl : s = t := Except.ok.inj (Option.some.inj (hs.symm.trans ht.1))
  exact ⟨s, hs, ht.2, hnames⟩

end TreeWalk
