/-
The scope tree of a tree, read off the tree.

`Node.scoping` says what a node brings to the scope around it, by its parts alone: a
function or a catch clause brings a scope with its own names and all that its body
brings, a declaration brings its names, and everything else brings what its parts do, in
the order in which they are walked.  There is no walk in it and no store.

Each function that is walked has one scope, so has each catch clause of a `try` that is
walked, and nothing else has any: `perm_kinds`.
-/
import Mathlib.Data.List.Perm.Basic
import TreeWalk.Proofs.Scope.Growth
import TreeWalk.Proofs.Walk.Visits

namespace TreeWalk

/-! ### What a node brings to the scope around it -/

/-- An identifier brings its name; nothing else can be bound. -/
def Scoping.bound (kind : BindingKind) (n : Node) : Scoping :=
  match n.name? with
  | some name => .declare name ⟨kind, n⟩
  | none => .empty

namespace Shape

open Scoping

/-- What a node brings to the scope around it, given its children and what they bring.

A function declaration brings its name there, and a function expression to its own scope,
after the parameters. -/
def scoping : Shape (Node × Scoping) → Scoping
  | .function form name params body =>
    let params := concat (params.map fun a => bound .argument a.1)
    match form with
    | .declaration =>
      concat (name.toList.map fun a => bound .function a.1) ++ scope .function (params ++ body.2)
    | .expression =>
      scope .function
        (params ++ concat (name.toList.map fun a => bound .functionName a.1) ++ body.2)
  | .tryStatement block handler handlers finalizer =>
    block.2 ++
      concat ((clauses handler handlers).map fun c =>
        scope .catchClause (bound .catchParameter c.param.1 ++ c.body.2)) ++
      concat (finalizer.toList.map Prod.snd)
  | .variableDeclaration declarations _ =>
    concat (declarations.map fun d =>
      bound .variable d.id.1 ++ concat (d.init.toList.map Prod.snd))
  | s => concat (s.walked.map fun p => p.child.2)

/-- The names that are bound at a node: those of a function and its parameters, of the clauses
of a `try` and of declarators. -/
def names {α : Type} : Shape α → List α
  | .function _ name params _ => params ++ name.toList
  | .tryStatement _ handler handlers _ => (clauses handler handlers).map CatchClause.param
  | .variableDeclaration declarations _ => declarations.map Declarator.id
  | _ => []

end Shape

/-- What a node brings to the scope around it. -/
def Node.scoping (n : Node) : Scoping := n.para fun _ s => s.scoping

/-- What a layer brings to the scope around it, where its children bring what they do. -/
def Shape.brings (s : Shape Node) : Scoping := (s.map fun m => (m, m.scoping)).scoping

theorem Node.scoping_eq (n : Node) : n.scoping = n.shape.brings := by
  rw [scoping, para_eq]
  rfl

namespace Shape

open Scoping

theorem brings_declaration (name : Option Node) (params : List Node) (body : Node) :
    (function .declaration name params body).brings =
      concat (name.toList.map (bound .function)) ++
        scope .function (concat (params.map (bound .argument)) ++ body.scoping) := by
  simp only [brings, map, scoping, Option.toList_map, List.map_map]
  rfl

theorem brings_expression (name : Option Node) (params : List Node) (body : Node) :
    (function .expression name params body).brings =
      scope .function (concat (params.map (bound .argument)) ++
        concat (name.toList.map (bound .functionName)) ++ body.scoping) := by
  simp only [brings, map, scoping, Option.toList_map, List.map_map]
  rfl

theorem brings_tryStatement (block : Node) (handler : Option (CatchClause Node))
    (handlers : List (CatchClause Node)) (finalizer : Option Node) :
    (tryStatement block handler handlers finalizer).brings =
      block.scoping ++
        concat ((clauses handler handlers).map fun c =>
          scope .catchClause (bound .catchParameter c.param ++ c.body.scoping)) ++
        concat (finalizer.toList.map Node.scoping) := by
  simp only [brings, map, scoping, clauses_map fun m : Node => (m, m.scoping), Option.toList_map,
    List.map_map]
  rfl

theorem brings_variableDeclaration (declarations : List (Declarator Node))
    (kind : DeclarationKind) :
    (variableDeclaration declarations kind).brings =
      concat (declarations.map fun d =>
        bound .variable d.id ++ concat (d.init.toList.map Node.scoping)) := by
  simp only [brings, map, scoping, List.map_map]
  refine congrArg concat (List.map_congr_left ?_)
  intro d _
  simp only [Function.comp, Option.toList_map, List.map_map]
  rfl

end Shape

/-- The scope tree of a tree, whose outermost scope is the global one. -/
def Node.scopes (tree : Node) : ScopeTree :=
  .mk .global tree.scoping.declared tree.scoping.opened

/-! ### The scopes that there are -/

namespace ScopeTree

mutual
/-- The kinds of the scopes of a tree, outer ones first. -/
def kinds : ScopeTree → List ScopeKind
  | mk kind _ opened => kind :: kindsAll opened
/-- The kinds of the scopes of trees one after another. -/
def kindsAll : List ScopeTree → List ScopeKind
  | [] => []
  | t :: rest => t.kinds ++ kindsAll rest
end

theorem kindsAll_append (as bs : List ScopeTree) :
    kindsAll (as ++ bs) = kindsAll as ++ kindsAll bs := by
  induction as with
  | nil => rfl
  | cons t rest ih => rw [List.cons_append, kindsAll, kindsAll, ih, List.append_assoc]

mutual
theorem map_kind_layout (around : List ScopeId) (id : ScopeId) :
    (t : ScopeTree) → (t.layout around id).map Scope.kind = t.kinds
  | mk kind declared opened => by
    rw [layout, kinds, List.map_cons, map_kind_layoutAll]
theorem map_kind_layoutAll (around : List ScopeId) (next : ScopeId) :
    (ts : List ScopeTree) → (layoutAll around next ts).map Scope.kind = kindsAll ts
  | [] => rfl
  | t :: rest => by
    rw [layoutAll, kindsAll, List.map_append, map_kind_layout, map_kind_layoutAll]
end

end ScopeTree

namespace Scoping

/-- The kinds of the scopes that are brought. -/
def kinds (sc : Scoping) : List ScopeKind := ScopeTree.kindsAll sc.opened

@[simp] theorem kinds_append (a b : Scoping) : (a ++ b).kinds = a.kinds ++ b.kinds :=
  ScopeTree.kindsAll_append a.opened b.opened

@[simp] theorem kinds_scope (kind : ScopeKind) (sc : Scoping) :
    (scope kind sc).kinds = kind :: sc.kinds := List.append_nil _

@[simp] theorem kinds_bound (kind : BindingKind) (n : Node) : (bound kind n).kinds = [] := by
  unfold bound
  split <;> rfl

theorem kinds_concat {α : Type} (f : α → Scoping) (as : List α) :
    (concat (as.map f)).kinds = as.flatMap fun a => (f a).kinds := by
  induction as with
  | nil => rfl
  | cons a rest ih =>
    have hconcat : concat ((a :: rest).map f) = f a ++ concat (rest.map f) := rfl
    rw [hconcat, kinds_append, ih, List.flatMap_cons]

end Scoping

open Scoping

/-- The kinds of the scopes that a node has of its own: one for a function, one for each catch
clause of a `try`. -/
def Shape.scopeKinds {α : Type} : Shape α → List ScopeKind
  | .function .. => [.function]
  | .tryStatement _ handler handlers _ => (clauses handler handlers).map fun _ => .catchClause
  | _ => []

theorem Shape.scopeKinds_map {α β : Type} (f : α → β) (s : Shape α) :
    (s.map f).scopeKinds = s.scopeKinds := by
  cases s with
  | tryStatement block handler handlers finalizer =>
    rw [map, scopeKinds, clauses_map, List.map_map]
    rfl
  | _ => rfl

/-- The scopes that a layer brings are its own and those that its parts bring. -/
theorem Shape.perm_kinds (s : Shape (Node × Scoping)) :
    s.scoping.kinds.Perm (s.scopeKinds ++ s.walked.flatMap fun p => p.child.2.kinds) := by
  have hnames (kind : BindingKind) (as : List (Node × Scoping)) :
      (Scoping.concat (as.map fun a => bound kind a.1)).kinds = [] := by
    rw [kinds_concat]
    exact List.flatMap_eq_nil_iff.2 fun a _ => kinds_bound kind a.1
  cases s with
  | function form name params body =>
    refine List.Perm.of_eq ?_
    cases form with
    | declaration =>
      rw [scoping, kinds_append, kinds_scope, kinds_append, hnames, hnames]
      exact congrArg (_ :: ·) (List.append_nil _).symm
    | expression =>
      rw [scoping, kinds_scope, kinds_append, kinds_append, hnames, hnames]
      exact congrArg (_ :: ·) (List.append_nil _).symm
  | tryStatement block handler handlers finalizer =>
    have hbodies : ((clauses handler handlers).zipIdx.flatMap fun c => c.1.body.2.kinds) =
        (clauses handler handlers).flatMap fun c => c.body.2.kinds := by
      conv_rhs => rw [← List.zipIdx_map_fst 0 (clauses handler handlers), List.flatMap_map]
    have hown := (List.map_append_flatMap_perm (clauses handler handlers)
      (fun _ => ScopeKind.catchClause) fun c => c.body.2.kinds).symm
    have hscoping : (tryStatement block handler handlers finalizer).scoping.kinds =
        block.2.kinds ++ ((clauses handler handlers).flatMap fun c =>
          .catchClause :: c.body.2.kinds) ++ finalizer.toList.flatMap fun a => a.2.kinds := by
      rw [scoping, kinds_append, kinds_append, kinds_concat, kinds_concat]
      simp only [kinds_scope, kinds_append, kinds_bound, List.nil_append]
    have hwalked : ((tryStatement block handler handlers finalizer).walked.flatMap fun p =>
        p.child.2.kinds) = block.2.kinds ++ ((clauses handler handlers).flatMap fun c =>
          c.body.2.kinds) ++ finalizer.toList.flatMap fun a => a.2.kinds := by
      rw [walked_tryStatement, List.flatMap_append, List.flatMap_cons, List.flatMap_map, Part.opt,
        List.flatMap_map, ← hbodies]
      rfl
    rw [hscoping, hwalked, ← List.append_assoc]
    refine List.Perm.append_right _ ?_
    exact (List.Perm.append_left _ hown).trans (List.perm_append_comm_assoc ..)
  | variableDeclaration declarations kind =>
    refine List.Perm.of_eq ?_
    have hwalked : ((variableDeclaration declarations kind).walked.flatMap fun p =>
        p.child.2.kinds) =
          declarations.flatMap fun d => d.init.toList.flatMap fun a => a.2.kinds := by
      conv_rhs => rw [← List.zipIdx_map_fst 0 declarations, List.flatMap_map]
      rw [walked_variableDeclaration, List.flatMap_assoc]
      refine List.flatMap_congr ?_
      intro d _
      exact List.flatMap_map ..
    rw [scoping, kinds_concat, hwalked]
    simp only [kinds_append, kinds_bound, kinds_concat, List.nil_append]
    rfl
  | _ => exact List.Perm.of_eq (kinds_concat _ _)

/-- **A node brings one scope for each that a node that is walked has of its own.** -/
theorem Cursor.perm_kinds (c : Cursor) {role : Option Category} (hr : role ≠ some .function) :
    c.node.scoping.kinds.Perm
      (((c.visits role).filter Visit.isTyped).flatMap fun v => v.cursor.node.shape.scopeKinds) := by
  obtain ⟨n, trail⟩ := c
  induction n using Node.walked_induction generalizing trail role with
  | step n ih =>
    have hparts : ∀ p ∈ n.shape.walked, p.child.scoping.kinds.Perm
        ((((Cursor.mk n trail).part p).visits (some p.role)).filter Visit.isTyped |>.flatMap
          fun v => v.cursor.node.shape.scopeKinds) := by
      intro p hp
      exact ih p hp (fun hf => Shape.role_ne_function hp (Option.some.inj hf)) (p.steps ++ trail)
    have hlayer := (n.shape.map fun m => (m, m.scoping)).perm_kinds
    rw [Shape.walked_map, List.flatMap_map, Shape.scopeKinds_map, ← Shape.brings] at hlayer
    rw [filter_isTyped_visits _ hr, List.flatMap_cons, List.flatMap_assoc, Node.scoping_eq]
    exact hlayer.trans (List.Perm.append_left _ (List.Perm.flatMap_left _ hparts))

/-- The scopes of a tree besides the global one are those of the nodes that are walked. -/
theorem Node.perm_kinds_scopes (tree : Node) (id : ScopeId) :
    ((tree.scopes.layout [] id).map Scope.kind).Perm
      (.global :: ((((Cursor.root tree).visits none).filter Visit.isTyped).flatMap
        fun v => v.cursor.node.shape.scopeKinds)) := by
  rw [ScopeTree.map_kind_layout]
  have hrole : (none : Option Category) ≠ some .function := by simp
  exact ((Cursor.root tree).perm_kinds hrole).cons .global

end TreeWalk
