/-
A scope walk makes the scopes that a tree is read to have.

Where every name to be bound is an identifier, a scope walk succeeds and grows the scope
that it starts in by what the tree brings to it: `grows_events`.  For each thing that can
happen there is one lemma about what it brings, and a node is put together from them by
its shape.
-/
import TreeWalk.Proofs.Scope.Events
import TreeWalk.Proofs.Scope.Reference
import TreeWalk.Syntax.Build

namespace TreeWalk

/-! ### What events bring to the current scope -/

namespace ScopeWalk

open Scoping

/-- Performing the events succeeds, grows the current scope by what is said, and comes back. -/
def Grows (es : List Event) (sc : Scoping) : Prop :=
  ∀ (s : ScopeStore) (i : ScopeId) (around : List ScopeId), i < s.scopes.size →
    perform .empty es ⟨i, around, (s, ())⟩ = (.ok (), ⟨i, around, (s.grow i sc, ())⟩)

variable {as bs : List Event} {a b : Scoping}

theorem Grows.nil : Grows [] .empty := by
  intro s i around hi
  rw [ScopeStore.grow_empty]
  rfl

theorem Grows.append (ha : Grows as a) (hb : Grows bs b) : Grows (as ++ bs) (a ++ b) := by
  intro s i around hi
  have hi' : i < (s.grow i a).scopes.size := by
    rw [ScopeStore.size_grow]
    exact Nat.lt_of_lt_of_le hi (Nat.le_add_right _ _)
  rw [perform_append, ha s i around hi]
  show perform .empty bs ⟨i, around, (s.grow i a, ())⟩ = _
  rw [hb _ i around hi', ScopeStore.grow_grow a b hi]

theorem Grows.flatMap {β : Type} {f : β → List Event} {g : β → Scoping} {l : List β}
    (h : ∀ x ∈ l, Grows (f x) (g x)) : Grows (l.flatMap f) (concat (l.map g)) := by
  induction l with
  | nil => exact Grows.nil
  | cons x rest ih =>
    exact (h x (List.mem_cons_self ..)).append (ih fun y hy => h y (List.mem_cons_of_mem _ hy))

/-- Items that are numbered bring what they do without their numbers. -/
theorem Grows.flatMap_zipIdx {β : Type} {f : β × Nat → List Event} {g : β → Scoping} {l : List β}
    (h : ∀ x ∈ l.zipIdx, Grows (f x) (g x.1)) :
    Grows (l.zipIdx.flatMap f) (concat (l.map g)) := by
  have hg : l.map g = l.zipIdx.map (g ∘ Prod.fst) := by
    rw [← List.map_map, List.zipIdx_map_fst]
  rw [hg]
  exact Grows.flatMap h

/-- Visits that nobody is told of bring nothing. -/
theorem Grows.visits (c : Cursor) (keys : List String) :
    Grows (keys.map fun key => .visits ⟨key, c⟩) .empty := by
  induction keys with
  | nil => exact Grows.nil
  | cons key keys ih => exact ih

/-- An identifier brings its name. -/
theorem Grows.binds {n : Node} (hn : n.name?.isSome = true) (kind : BindingKind) (role : String) :
    Grows [.binds false kind n role] (bound kind n) := by
  obtain ⟨name, hname⟩ := Option.isSome_iff_exists.1 hn
  intro s i around hi
  rw [bound, hname, perform, step, hname]
  show perform .empty [] ⟨i, around, (s.declare i name ⟨kind, n⟩, ())⟩ = _
  rw [ScopeStore.declare_eq_grow]
  rfl

/-- What is brought to a scope while it is open is brought with it. -/
theorem Grows.scope (kind : ScopeKind) (ha : Grows as a) :
    Grows (.opens kind :: (as ++ [.closes])) (.scope kind a) := by
  intro s i around hi
  have hinner : s.scopes.size < (s.openChild i kind).2.scopes.size :=
    ScopeStore.lt_size_openChild kind
  rw [perform, step]
  show perform .empty (as ++ [.closes])
    ⟨s.scopes.size, i :: around, ((s.openChild i kind).2, ())⟩ = _
  rw [perform_append, ha _ _ _ hinner, ScopeStore.grow_openChild]
  rfl

/-- A name that is bound outside, while a scope is open, is brought before it. -/
theorem Grows.scopeBinding {n : Node} (hn : n.name?.isSome = true) (kind : ScopeKind)
    (outer : BindingKind) (role : String) (ha : Grows as a) (hb : Grows bs b) :
    Grows (.opens kind :: (as ++ [.binds true outer n role] ++ (bs ++ [.closes])))
      (bound outer n ++ .scope kind (a ++ b)) := by
  obtain ⟨name, hname⟩ := Option.isSome_iff_exists.1 hn
  intro s i around hi
  have hinner : s.scopes.size < (s.openChild i kind).2.scopes.size :=
    ScopeStore.lt_size_openChild kind
  have hinner' : s.scopes.size <
      ((s.declare i name ⟨outer, n⟩).openChild i kind).2.scopes.size := by
    rw [ScopeStore.size_openChild, ScopeStore.size_declare]
    exact Nat.lt_succ_self _
  have hgrown : s.scopes.size < (((s.declare i name ⟨outer, n⟩).openChild i kind).2.grow
      s.scopes.size a).scopes.size := by
    rw [ScopeStore.size_grow]
    exact Nat.lt_of_lt_of_le hinner' (Nat.le_add_right _ _)
  rw [perform, step]
  show perform .empty (as ++ [.binds true outer n role] ++ (bs ++ [.closes]))
    ⟨s.scopes.size, i :: around, ((s.openChild i kind).2, ())⟩ = _
  rw [perform_append, perform_append, ha _ _ _ hinner]
  simp only [perform, step, hname]
  show perform .empty (bs ++ [.closes]) ⟨s.scopes.size, i :: around,
    (((s.openChild i kind).2.grow s.scopes.size a).declare i name ⟨outer, n⟩, ())⟩ = _
  rw [ScopeStore.declare_grow_openChild hi, perform_append, hb _ _ _ hgrown,
    ScopeStore.grow_grow a b hinner', ScopeStore.grow_openChild_declare hi, bound, hname]
  rfl

/-! ### What a node brings -/

section

variable {walk : Part Node → List Event}

theorem grows_function {form : FunctionForm} {name : Option Node} {params : List Node}
    {body : Node} (hnames : ∀ m ∈ params ++ name.toList, m.name?.isSome = true)
    (hbody : Grows (walk (.one .body .scopeBody body)) body.scoping) :
    Grows ((Shape.function form name params body).stages.flatMap fun stage =>
      stage.expand id walk) (Shape.function form name params body).brings := by
  have hparams : Grows (params.map fun a => .binds false .argument a "parameter identifier")
      (concat (params.map (bound .argument))) := by
    rw [List.map_eq_flatMap]
    exact Grows.flatMap fun a ha => Grows.binds (hnames a (List.mem_append_left _ ha)) _ _
  have hname : ∀ a ∈ name.toList, a.name?.isSome = true := by
    intro a ha
    exact hnames a (List.mem_append_right _ ha)
  rw [Shape.events_function]
  cases form with
  | declaration =>
    rw [Shape.brings_declaration]
    cases name with
    | none =>
      rw [Option.toList_none, List.map_nil, List.append_nil, ← List.append_assoc]
      exact Grows.scope .function (hparams.append hbody)
    | some a =>
      rw [Option.toList_some, List.map_singleton, List.map_singleton, concat_singleton]
      exact Grows.scopeBinding (hname a (List.mem_singleton_self a)) .function .function
        "function name" hparams hbody
  | expression =>
    have hnamed : Grows (name.toList.map (Event.named .expression))
        (concat (name.toList.map (bound .functionName))) := by
      rw [List.map_eq_flatMap]
      exact Grows.flatMap fun a ha => Grows.binds (hname a ha) _ _
    rw [Shape.brings_expression, ← List.append_assoc]
    exact Grows.scope .function ((hparams.append hnamed).append hbody)

theorem grows_tryStatement {block : Node} {handler : Option (CatchClause Node)}
    {handlers : List (CatchClause Node)} {finalizer : Option Node}
    (hparams : ∀ m ∈ (Shape.clauses handler handlers).map CatchClause.param,
      m.name?.isSome = true)
    (h : ∀ p ∈ (Shape.tryStatement block handler handlers finalizer).walked,
      Grows (walk p) p.child.scoping) :
    Grows ((Shape.tryStatement block handler handlers finalizer).stages.flatMap fun stage =>
      stage.expand id walk) (Shape.tryStatement block handler handlers finalizer).brings := by
  have hblock := h (.one .block .statement block) (List.mem_cons_self ..)
  have hclauses : Grows ((Shape.clauses handler handlers).zipIdx.flatMap fun c =>
      Event.clause walk
        (if handlers.isEmpty then [.field .handler] else [.item c.2, .field .handlers]) c.1)
      (concat ((Shape.clauses handler handlers).map fun c =>
        scope .catchClause (bound .catchParameter c.param ++ c.body.scoping))) := by
    refine Grows.flatMap_zipIdx ?_
    intro c hmem
    have hparam := hparams c.1.param (List.mem_map_of_mem (List.fst_mem_of_mem_zipIdx hmem))
    have hbody := h _ (Shape.mem_walked_of_clause hmem)
    exact Grows.scope .catchClause ((Grows.binds hparam .catchParameter _).append hbody)
  have hfinalizer : Grows ((Part.opt .finalizer .statement finalizer).flatMap walk)
      (concat (finalizer.toList.map Node.scoping)) := by
    rw [Part.opt, List.flatMap_map]
    refine Grows.flatMap ?_
    intro a ha
    exact h _ (List.mem_append_right _ (List.mem_map_of_mem ha))
  rw [Shape.events_tryStatement, Shape.brings_tryStatement]
  exact (hblock.append hclauses).append hfinalizer

theorem grows_variableDeclaration {declarations : List (Declarator Node)}
    {kind : DeclarationKind}
    (hids : ∀ m ∈ declarations.map Declarator.id, m.name?.isSome = true)
    (h : ∀ p ∈ (Shape.variableDeclaration declarations kind).walked,
      Grows (walk p) p.child.scoping) :
    Grows ((Shape.variableDeclaration declarations kind).stages.flatMap fun stage =>
      stage.expand id walk) (Shape.variableDeclaration declarations kind).brings := by
  rw [Shape.events_variableDeclaration, Shape.brings_variableDeclaration]
  refine Grows.flatMap_zipIdx ?_
  intro d hmem
  have hid := hids d.1.id (List.mem_map_of_mem (List.fst_mem_of_mem_zipIdx hmem))
  refine (Grows.binds hid .variable _).append (Grows.flatMap ?_)
  intro a ha
  exact h _ (Shape.mem_walked_of_init hmem ha)

/-- The stages of a node bring what the node does, if its parts bring what they do. -/
theorem grows_stages {n : Node} (hnames : ∀ m ∈ n.shape.names, m.name?.isSome = true)
    (h : ∀ p ∈ n.shape.walked, Grows (walk p) p.child.scoping) :
    Grows (n.shape.stages.flatMap fun stage => stage.expand id walk) n.scoping := by
  obtain ⟨shape, start, stop⟩ := n
  have kept (hstages : shape.stages = shape.walked.map .walks)
      (hbrings : shape.brings =
        concat ((shape.map fun m => (m, m.scoping)).walked.map fun p => p.child.2)) :
      Grows (shape.stages.flatMap fun stage => stage.expand id walk) shape.brings := by
    rw [hstages, List.flatMap_map, hbrings, Shape.walked_map, List.map_map]
    exact Grows.flatMap h
  rw [Node.scoping_eq]
  cases shape with
  | function form name params body =>
    exact grows_function hnames (h _ (List.mem_singleton_self _))
  | tryStatement block handler handlers finalizer => exact grows_tryStatement hnames h
  | variableDeclaration declarations kind => exact grows_variableDeclaration hnames h
  | _ => exact kept rfl rfl

end

/-- **Where names are identifiers, a scope walk of a node grows the scope by what it brings.** -/
theorem grows_events {c : Cursor}
    (h : ∀ d, c.Reaches d → ∀ m ∈ d.node.shape.names, m.name?.isSome = true)
    (role : Option Category) : Grows (c.events role) c.node.scoping := by
  obtain ⟨n, trail⟩ := c
  induction n using Node.walked_induction generalizing trail role with
  | step n ih =>
    have hparts : ∀ p ∈ n.shape.walked,
        Grows (((Cursor.mk n trail).part p).events (some p.role)) p.child.scoping := by
      intro p hp
      exact ih p hp (some p.role) (p.steps ++ trail) fun d hd => h d (.inside hp hd)
    have hvisits := Grows.visits ⟨n, trail⟩ (n.keysIn role)
    have hstages := grows_stages (h _ (.here _)) hparts
    rw [Cursor.events_eq]
    exact hvisits.append hstages

end ScopeWalk

/-- **The scopes of a tree are those that its functions, catch clauses and declarations make.**

Where every name to be bound in it is an identifier, the scope tree of a tree is the one that
is read off it, the global scope being held.  Besides that scope, there is one for each
function and each catch clause that is walked. -/
theorem scopeTree_eq (tree : Node)
    (h : ∀ c, tree.Walked c → ∀ m ∈ c.node.shape.names, m.name?.isSome = true) :
    scopeTree tree =
        some (.ok ⟨(tree.scopes.layout [] globalScope).toArray, [globalScope]⟩) ∧
      ((tree.scopes.layout [] globalScope).map Scope.kind).Perm
        (.global :: (((Cursor.root tree).visits none).filter Visit.isTyped).flatMap
          fun v => v.cursor.node.shape.scopeKinds) := by
  refine ⟨?_, tree.perm_kinds_scopes globalScope⟩
  have hgrows := ScopeWalk.grows_events (c := .root tree) h none
  have hperform := hgrows (ScopeStore.empty.openGlobal.2.hold globalScope) globalScope []
    Nat.zero_lt_one
  have hlayout : (ScopeStore.empty.openGlobal.2.hold globalScope).grow globalScope tree.scoping =
      ⟨(tree.scopes.layout [] globalScope).toArray, [globalScope]⟩ := by
    refine ScopeStore.ext_toList ?_ rfl
    rw [ScopeStore.toList_grow]
    rfl
  rw [scopeTree, ScopeWalk.run_eq, ← hlayout]
  dsimp only
  rw [hperform]
  rfl

/-- `var f; try { function f(a, a) { } } catch (e) { var e = function g(g) { }, f } finally { f }`,
which binds names over again in each of the places where that can be done. -/
def rebinding : Node :=
  let body := [Build.funcDecl "f" ["a", "a"] []]
  let caught := Build.varDecl [Build.declarator "e" (Build.funcExpr "g" ["g"] []),
    Build.declarator "f" none]
  Build.program [Build.var "f" none,
    Build.tryStmt body [Build.catchClause "e" [caught]] (some [Build.exprStmt (Build.ident "f")])]

/-- The name of `f` stays where it was first declared and is a function in the end, and so on
inside; the scope of `g` lies in that of the clause. -/
theorem scopeTree_rebinding :
    scopeTree rebinding =
      some (.ok ⟨(rebinding.scopes.layout [] globalScope).toArray, [globalScope]⟩) ∧
    (rebinding.scopes.layout [] globalScope).map (fun c =>
        (c.kind, c.bindings.entries.map fun (name, b) => (name, b.kind), c.enclosing)) =
      [(.global, [("f", .function)], []),
        (.function, [("a", .argument)], [0]),
        (.catchClause, [("e", .variable), ("f", .variable)], [0]),
        (.function, [("g", .functionName)], [2, 0])] :=
  ⟨(scopeTree_eq rebinding (Node.forall_walked (by decide))).1, by decide⟩

end TreeWalk
