/-
What a function has bound when its body is walked.

The handler of functions opens a scope, binds the parameters there in order and the name of
the function after them.  A name that is bound anew is bound last, so of the parameters of one
name the last counts.  The name of a declaration goes to the scope around.  That of an
expression goes to the scope of the parameters and is bound after them: where a parameter has
the same name, the function's name takes its place, and the parameter cannot be reached from
the body, `scopeTree_selfNamed`.
-/
import TreeWalk.Proofs.Scope.Lifetime
import TreeWalk.Proofs.Scope.Stages
import TreeWalk.Syntax.Build

namespace TreeWalk

/-! ### Binding identifiers -/

namespace ScopeStore

variable {s : ScopeStore} {i j : ScopeId}

/-- Binds identifiers in a scope one after another. -/
def declareAll (s : ScopeStore) (i : ScopeId) (kind : BindingKind) (ns : List Node) : ScopeStore :=
  ns.foldl (fun s n => s.declare i (Binding.mk kind n).name ⟨kind, n⟩) s

theorem get?_declare (hi : i < s.scopes.size) (name : String) (b : Binding) (x : String) :
    (s.declare i name b).get? i x = if name = x then some b else s.get? i x := by
  rw [get?, scope_declare, if_pos ⟨rfl, hi⟩, OrderedMap.get?_insert]
  rfl

theorem get?_declare_of_ne (hij : j ≠ i) (name : String) (b : Binding) (x : String) :
    (s.declare i name b).get? j x = s.get? j x := by
  rw [get?, scope_declare, if_neg fun h => hij h.1]
  rfl

theorem keeps_declareAll (s : ScopeStore) (i : ScopeId) (kind : BindingKind) (ns : List Node) :
    s.Keeps (s.declareAll i kind ns) := by
  induction ns generalizing s with
  | nil => exact .refl s
  | cons n ns ih => exact (s.keeps_declare i _ _).trans (ih _)

theorem size_declareAll (kind : BindingKind) (ns : List Node) :
    (s.declareAll i kind ns).scopes.size = s.scopes.size := by
  induction ns generalizing s with
  | nil => rfl
  | cons n ns ih => exact ih.trans (size_declare _ _)

/-- Identifiers are bound in one scope only. -/
theorem get?_declareAll_of_ne (hij : j ≠ i) (kind : BindingKind) (ns : List Node) (x : String) :
    (s.declareAll i kind ns).get? j x = s.get? j x := by
  induction ns generalizing s with
  | nil => rfl
  | cons n ns ih => exact ih.trans (get?_declare_of_ne hij _ _ x)

/-- **A name stands for the last identifier of that name.** -/
theorem get?_declareAll (hi : i < s.scopes.size) (kind : BindingKind) {ns : List Node}
    (hns : ∀ n ∈ ns, n.name?.isSome = true) (x : String) :
    (s.declareAll i kind ns).get? i x =
      ((ns.reverse.find? (·.name? == some x)).map (Binding.mk kind)).or (s.get? i x) := by
  induction ns using List.reverseRecOn with
  | nil => rfl
  | append_singleton ns n ih =>
    obtain ⟨name, hname⟩ := Option.isSome_iff_exists.1 (hns n List.mem_concat_self)
    have hrest := ih fun n hn => hns n (List.mem_append_left _ hn)
    have hlt : i < (s.declareAll i kind ns).scopes.size := by rwa [size_declareAll]
    have hbound : (Binding.mk kind n).name = name := Binding.name_of_name? hname
    have hlast : s.declareAll i kind (ns ++ [n]) =
        (s.declareAll i kind ns).declare i name ⟨kind, n⟩ := by
      rw [declareAll, List.foldl_append, ← hbound]
      rfl
    rw [hlast, get?_declare hlt, hrest, List.reverse_append, List.reverse_singleton,
      List.singleton_append, List.find?_cons, hname]
    by_cases hx : name = x
    · subst hx
      simp
    · have hne : (some name == some x) = false := by simpa using hx
      rw [if_neg hx, hne]

end ScopeStore

/-! ### The handler of functions -/

namespace ScopeWalk

variable {α : Type} {walk : Cursor → ScopeId → Option Category → Memory (ScopeStore × α) →
  Run (ScopeStore × α) Unit} {keys : List String}

theorem exec_bindName {n : Node} (hn : n.name?.isSome = true) (i : ScopeId) (kind : BindingKind)
    (role : String) (m : Memory (ScopeStore × α)) :
    (bindName i n kind role).exec walk keys m =
      some (.ok (), { m with
        world := (m.world.1.declare i (Binding.mk kind n).name ⟨kind, n⟩, m.world.2) }) := by
  obtain ⟨name, hname⟩ := Option.isSome_iff_exists.1 hn
  have hbound : (Binding.mk kind n).name = name := Binding.name_of_name? hname
  rw [bindName, hname, hbound]
  rfl

theorem exec_bindNames {ns : List Node} (hns : ∀ n ∈ ns, n.name?.isSome = true) (i : ScopeId)
    (kind : BindingKind) (role : String) (m : Memory (ScopeStore × α)) :
    (ns.forM fun n => bindName (α := α) i n kind role).exec walk keys m =
      some (.ok (), { m with world := (m.world.1.declareAll i kind ns, m.world.2) }) := by
  induction ns generalizing m with
  | nil => rfl
  | cons n ns ih =>
    refine (Script.exec_bind (bindName i n kind role)
      (fun _ => ns.forM fun n => bindName i n kind role) m).trans ?_
    rw [exec_bindName (hns n (List.mem_cons_self ..)), Option.bind_some]
    exact ih (fun n hn => hns n (List.mem_cons_of_mem _ hn)) _

/-- The scope in which the name of a function is bound, and as what. -/
def nameTarget (form : FunctionForm) (scope inner : ScopeId) : ScopeId × BindingKind :=
  match form with
  | .declaration => (scope, .function)
  | .expression => (inner, .functionName)

/-- The store when the body of a function is walked. -/
def atBody (form : FunctionForm) (id : Option Node) (params : List Node) (scope : ScopeId)
    (s : ScopeStore) : ScopeStore :=
  ((s.openChild scope .function).2.declareAll s.scopes.size .argument params).declareAll
    (nameTarget form scope s.scopes.size).1 (nameTarget form scope s.scopes.size).2 id.toList

/-- **The handler binds the parameters and the name, then the body is walked, and that is all.** -/
theorem exec_function {c : Cursor} {form : FunctionForm} {id : Option Node} {params : List Node}
    {body : Node} (hc : c.node.shape = .function form id params body)
    (hparams : ∀ n ∈ params, n.name?.isSome = true) (hid : ∀ n ∈ id, n.name?.isSome = true)
    (scope : ScopeId) (m : Memory (ScopeStore × α)) :
    (function c scope).exec walk keys m =
      walk (c.down [.field .body] body) m.world.1.scopes.size (some .scopeBody)
        { m with world := (atBody form id params scope m.world.1, m.world.2) } := by
  let inner := m.world.1.scopes.size
  let opened : Memory (ScopeStore × α) :=
    { m with world := ((m.world.1.openChild scope .function).2, m.world.2) }
  let named : Memory (ScopeStore × α) :=
    { m with world := (opened.world.1.declareAll inner .argument params, m.world.2) }
  have hopen : (openScope (α := α) scope .function).exec walk keys m = some (.ok inner, opened) :=
    rfl
  have hnames : (params.forM fun p => bindName (α := α) inner p .argument
      "parameter identifier").exec walk keys opened = some (.ok (), named) :=
    exec_bindNames hparams inner .argument "parameter identifier" opened
  rw [function, hc]
  refine (Script.exec_bind (openScope scope .function) _ m).trans ?_
  rw [hopen, Option.bind_some]
  refine (Script.exec_bind (params.forM fun p => bindName inner p .argument
    "parameter identifier") _ opened).trans ?_
  rw [hnames, Option.bind_some]
  cases id with
  | none =>
    cases form <;> exact Script.exec_go _ _ _ named
  | some n =>
    have hn : n.name?.isSome = true := hid n rfl
    cases form with
    | declaration =>
      refine (Script.exec_bind (bindName scope n .function "function name") _ named).trans ?_
      rw [exec_bindName hn, Option.bind_some]
      exact Script.exec_go _ _ _ _
    | expression =>
      refine (Script.exec_bind (bindName inner n .functionName "function name") _ named).trans ?_
      rw [exec_bindName hn, Option.bind_some]
      exact Script.exec_go _ _ _ _

section

variable {form : FunctionForm} {id : Option Node} {params : List Node} {scope : ScopeId}
  {s : ScopeStore}

/-- The scope of the function is new, and lies where the function does. -/
theorem scope_atBody (form : FunctionForm) (id : Option Node) (params : List Node)
    (scope : ScopeId) (s : ScopeStore) :
    ((atBody form id params scope s).scope s.scopes.size).kind = .function ∧
      ((atBody form id params scope s).scope s.scopes.size).enclosing =
        scope :: (s.scope scope).enclosing := by
  have hlt : s.scopes.size < (s.openChild scope .function).2.scopes.size :=
    ScopeStore.lt_size_openChild .function
  have hkeeps : (s.openChild scope .function).2.Keeps (atBody form id params scope s) :=
    (ScopeStore.keeps_declareAll ..).trans (ScopeStore.keeps_declareAll ..)
  rw [hkeeps.kind _ hlt, hkeeps.enclosing _ hlt, s.scope_openChild, if_pos rfl]
  exact ⟨rfl, rfl⟩

/-- Every other name than that of an expression stands for the last parameter of that name. -/
theorem get?_atBody (hparams : ∀ n ∈ params, n.name?.isSome = true)
    (hid : ∀ n ∈ id, n.name?.isSome = true) (hscope : scope < s.scopes.size) {x : String}
    (hx : ∀ n ∈ id, form = .expression → n.name? ≠ some x) :
    (atBody form id params scope s).get? s.scopes.size x =
      (params.reverse.find? (·.name? == some x)).map (Binding.mk .argument) := by
  have hlt : s.scopes.size < (s.openChild scope .function).2.scopes.size :=
    ScopeStore.lt_size_openChild .function
  have hnew : (s.openChild scope .function).2.get? s.scopes.size x = none := by
    rw [ScopeStore.get?, s.scope_openChild, if_pos rfl]
    rfl
  have hnamed := ScopeStore.get?_declareAll hlt .argument hparams x
  rw [hnew, Option.or_none] at hnamed
  cases form with
  | declaration =>
    exact (ScopeStore.get?_declareAll_of_ne (Nat.ne_of_gt hscope) ..).trans hnamed
  | expression =>
    have hother : id.toList.reverse.find? (·.name? == some x) = none := by
      rw [List.find?_eq_none]
      intro n hn
      have hne := hx n (Option.mem_toList.1 (List.mem_reverse.1 hn)) rfl
      simpa using hne
    have hlast : s.scopes.size < ((s.openChild scope .function).2.declareAll s.scopes.size
        .argument params).scopes.size := by
      rwa [ScopeStore.size_declareAll]
    refine (ScopeStore.get?_declareAll hlast .functionName
      (fun n hn => hid n (Option.mem_toList.1 hn)) x).trans ?_
    rw [hother, Option.map_none, Option.none_or, hnamed]

/-- The name of the function is bound last, whatever the parameters are called. -/
theorem get?_atBody_name {n : Node} {x : String} (hn : n.name? = some x)
    (hscope : scope < s.scopes.size) :
    (atBody form (some n) params scope s).get? (nameTarget form scope s.scopes.size).1 x =
      some ⟨(nameTarget form scope s.scopes.size).2, n⟩ := by
  have hlt : (nameTarget form scope s.scopes.size).1 <
      ((s.openChild scope .function).2.declareAll s.scopes.size .argument params).scopes.size := by
    rw [ScopeStore.size_declareAll, ScopeStore.size_openChild]
    cases form with
    | declaration => exact Nat.lt_succ_of_lt hscope
    | expression => exact Nat.lt_succ_self _
  have hid : ∀ m ∈ [n], m.name?.isSome = true := by simp [hn]
  refine (ScopeStore.get?_declareAll hlt _ hid x).trans ?_
  simp [hn]

end

/-- **What a function has bound when its body is walked.**

Its scope is new and inside the current one.  Each parameter name stands there for the last
parameter of that name, unless it is the name of the function and that is an expression.  The
name of a declaration is bound around it and that of an expression in it. -/
theorem function_binds (first : Nat) (observer : Observer (ScopeStore × α) ScopeId)
    (walk : Cursor → ScopeId → Option Category → Memory (ScopeStore × α) →
      Run (ScopeStore × α) Unit)
    {c : Cursor} {form : FunctionForm} {id : Option Node} {params : List Node} {body : Node}
    (hc : c.node.shape = .function form id params body)
    (hparams : ∀ n ∈ params, n.name?.isSome = true) (hid : ∀ n ∈ id, n.name?.isSome = true)
    {scope : ScopeId} {m : Memory (ScopeStore × α)} (hscope : scope < m.world.1.scopes.size) :
    let inner := m.world.1.scopes.size
    ∃ s : ScopeStore,
      Walker.dispatch ⟨table first, observer⟩ walk Category.function.name c scope m =
        walk (c.down [.field .body] body) inner (some .scopeBody)
          { m with world := (s, m.world.2) } ∧
      (s.scope inner).kind = .function ∧
      (s.scope inner).enclosing = scope :: (m.world.1.scope scope).enclosing ∧
      (∀ x, (∀ n ∈ id, form = .expression → n.name? ≠ some x) →
        s.get? inner x = (params.reverse.find? (·.name? == some x)).map (Binding.mk .argument)) ∧
      ∀ n ∈ id, ∀ x, n.name? = some x →
        s.get? (nameTarget form scope inner).1 x = some ⟨(nameTarget form scope inner).2, n⟩ := by
  intro inner
  have hruns : (Walker.mk (table first) observer).table.Runs Category.function.name function :=
    runs_function first
  obtain ⟨hkind, henclosing⟩ := scope_atBody form id params scope m.world.1
  refine ⟨atBody form id params scope m.world.1, ?_, hkind, henclosing, ?_, ?_⟩
  · rw [Walker.dispatch_of_runs hruns, exec_function hc hparams hid]
  · exact fun x hx => get?_atBody hparams hid hscope hx
  · rintro n hn x hx
    obtain rfl : id = some n := hn
    exact get?_atBody_name hx hscope

/-- A function expression with two parameters of one name. -/
def repeating : Node :=
  .ofShape (.function .expression (some (Build.ident "f"))
    [(Build.ident "a").withOffsets 0 1, Build.ident "b", (Build.ident "a").withOffsets 4 5]
    (Build.block []))

/-- Of the two parameters the second counts, and the name of the function is bound beside it. -/
theorem function_binds_repeating :
    let start : ScopeStore := ScopeStore.empty.openGlobal.2
    ∃ s : ScopeStore,
      Walker.dispatch ⟨table 0, .silent⟩ (fun _ _ _ m => some (.ok (), m)) Category.function.name
          (.root repeating) 0 (.initial (start, ())) = some (.ok (), .initial (s, ())) ∧
        s.get? 1 "a" = some ⟨.argument, (Build.ident "a").withOffsets 4 5⟩ ∧
        s.get? 1 "f" = some ⟨.functionName, Build.ident "f"⟩ ∧ s.get? 1 "c" = none := by
  intro start
  have hscope : globalScope < start.scopes.size := by decide
  obtain ⟨s, hdispatch, -, -, hnames, hname⟩ := function_binds (α := Unit) 0 .silent
    (fun _ _ _ m => some (.ok (), m)) (c := .root repeating) rfl (by decide) (by decide)
    (m := .initial (start, ())) hscope
  refine ⟨s, hdispatch, ?_, hname _ rfl "f" rfl, ?_⟩
  · exact hnames "a" (by decide)
  · exact hnames "c" (by decide)

/-- The program `(function f(f) {});`. -/
def selfNamed : Node :=
  Build.program [Build.exprStmt (Build.funcExpr (some "f") ["f"] [])]

/-- A function expression takes its own name from a parameter. -/
theorem scopeTree_selfNamed : ∃ s, scopeTree selfNamed = some (.ok s) ∧
    s.children globalScope = [1] ∧ s.get? 1 "f" = some ⟨.functionName, Build.ident "f"⟩ :=
  ⟨_, rfl, rfl, rfl⟩

end ScopeWalk

end TreeWalk
