/-
The parts of a node that are walked.

A part is a child that is code, with the role it plays and the steps that lead to it.
`Shape.walked` lists the parts of one layer in the order in which they are walked, and
`Shape.unwalked` the children that are names: together they say what a walk through
the default table sees of a tree, and nothing else here does.

A layer stays what it is when its children are replaced, so a fold over nodes sees the
same parts as the tree does: `walked_map`.  Every part is a child, and a child is lower
than its parent, so trees can be taken apart part by part: `Node.walked_induction`.
-/
import TreeWalk.Walk.Cursor
import TreeWalk.Walk.Category

namespace TreeWalk

/-- A child that is walked. -/
structure Part (α : Type) where
  /-- The steps that lead to the child from its parent, the last one first. -/
  steps : Trail
  role : Category
  child : α

namespace Part

variable {α β : Type}

/-- The part with `f` done to the child. -/
def map (f : α → β) (p : Part α) : Part β := ⟨p.steps, p.role, f p.child⟩

/-- The part as seen from further up. -/
def under (steps : Trail) (p : Part α) : Part α := { p with steps := p.steps ++ steps }

/-- The content of a field. -/
def one (f : Field) (role : Category) (a : α) : Part α := ⟨[.field f], role, a⟩

/-- The content of a field that may be absent. -/
def opt (f : Field) (role : Category) (a : Option α) : List (Part α) := a.toList.map (one f role)

/-- The parts that each item of a list in a field has. -/
def inEach {γ : Type} (f : Field) (parts : γ → List (Part α)) (items : List γ) : List (Part α) :=
  items.zipIdx.flatMap fun (item, i) => (parts item).map (under [.item i, .field f])

/-- Each item of a list in a field. -/
def each (f : Field) (role : Category) (as : List α) : List (Part α) :=
  inEach f (fun a => [⟨[], role, a⟩]) as

theorem mem_opt {f : Field} {role : Category} {a : Option α} {p : Part α} :
    p ∈ opt f role a ↔ ∃ b, a = some b ∧ p = one f role b := by
  cases a <;> simp [opt]

theorem mem_inEach {γ : Type} {f : Field} {parts : γ → List (Part α)} {items : List γ}
    {p : Part α} :
    p ∈ inEach f parts items ↔
      ∃ i item, items[i]? = some item ∧ ∃ q ∈ parts item, p = q.under [.item i, .field f] := by
  simp only [inEach, List.mem_flatMap, Prod.exists, List.mem_zipIdx_iff_getElem?, List.mem_map]
  constructor
  · rintro ⟨item, i, hi, q, hq, rfl⟩
    exact ⟨i, item, hi, q, hq, rfl⟩
  · rintro ⟨i, item, hi, q, hq, rfl⟩
    exact ⟨item, i, hi, q, hq, rfl⟩

theorem mem_each {f : Field} {role : Category} {as : List α} {p : Part α} :
    p ∈ each f role as ↔ ∃ i a, as[i]? = some a ∧ p = ⟨[.item i, .field f], role, a⟩ := by
  simp [each, mem_inEach, under]

@[simp] theorem map_one (g : α → β) (f : Field) (role : Category) (a : α) :
    (one f role a).map g = one f role (g a) := rfl

@[simp] theorem map_opt (g : α → β) (f : Field) (role : Category) (a : Option α) :
    (opt f role a).map (map g) = opt f role (a.map g) := by
  cases a <;> rfl

theorem map_inEach {γ δ : Type} (g : α → β) (h : γ → δ) (f : Field) {parts : γ → List (Part α)}
    {parts' : δ → List (Part β)} (hp : ∀ c, (parts c).map (map g) = parts' (h c))
    (items : List γ) :
    (inEach f parts items).map (map g) = inEach f parts' (items.map h) := by
  simp only [inEach, List.map_flatMap, List.zipIdx_map, List.flatMap_map, List.map_map]
  refine congrArg (items.zipIdx.flatMap ·) (funext fun item => ?_)
  simp only [Prod.map, id, ← hp, List.map_map]
  rfl

@[simp] theorem map_each (g : α → β) (f : Field) (role : Category) (as : List α) :
    (each f role as).map (map g) = each f role (as.map g) :=
  map_inEach g g f (fun _ => rfl) as

end Part

namespace Shape

variable {α β : Type}

open TreeWalk.Part

/-- The parts of a node, in the order in which they are walked. -/
def walked : Shape α → List (Part α)
  | .program body => each .body .statement body
  | .emptyStatement => []
  | .blockStatement body => each .body .statement body
  | .expressionStatement expression => [one .expression .expression expression]
  | .ifStatement test consequent alternate =>
    one .test .expression test :: one .consequent .statement consequent ::
      opt .alternate .statement alternate
  | .labeledStatement _ body => [one .body .statement body]
  | .jump _ _ => []
  | .withStatement object body => [one .object .expression object, one .body .statement body]
  | .switchStatement discriminant cases =>
    one .discriminant .expression discriminant ::
      inEach .cases
        (fun c => opt .test .expression c.test ++ each .consequent .statement c.consequent) cases
  | .returnStatement argument => opt .argument .expression argument
  | .throwStatement argument => [one .argument .expression argument]
  | .tryStatement block handler handlers finalizer =>
    one .block .statement block ::
      (if handlers.isEmpty then
        handler.toList.map fun c => (one .body .scopeBody c.body).under [.field .handler]
      else inEach .handlers (fun c => [one .body .scopeBody c.body]) handlers) ++
      opt .finalizer .statement finalizer
  | .loop _ test body => [one .test .expression test, one .body .statement body]
  | .forStatement init test update body =>
    opt .init .forInit init ++ opt .test .expression test ++ opt .update .expression update ++
      [one .body .statement body]
  | .forInStatement left right body =>
    [one .left .forInit left, one .right .expression right, one .body .statement body]
  | .debuggerStatement => []
  | .function _ _ _ body => [one .body .scopeBody body]
  | .variableDeclaration declarations _ =>
    inEach .declarations (fun d => opt .init .expression d.init) declarations
  | .thisExpression => []
  | .arrayExpression elements =>
    inEach .elements (fun e => e.toList.map fun a => ⟨[], .expression, a⟩) elements
  | .objectExpression properties =>
    inEach .properties (fun p => [one .value .expression p.value]) properties
  | .sequenceExpression expressions => each .expressions .expression expressions
  | .unary _ _ _ argument => [one .argument .expression argument]
  | .binary _ _ left right => [one .left .expression left, one .right .expression right]
  | .conditionalExpression test consequent alternate =>
    [one .test .expression test, one .consequent .expression consequent,
      one .alternate .expression alternate]
  | .call _ callee arguments =>
    one .callee .expression callee :: each .arguments .expression arguments
  | .memberExpression object property computed =>
    one .object .expression object ::
      if computed then [one .property .expression property] else []
  | .identifier _ => []
  | .literal .. => []

/-- The children of a node that are not walked, with the steps that lead to them: labels, the
names of functions, parameters, declared names, caught names, property keys, the name after a
dot, and a single catch clause beside a list of them. -/
def unwalked : Shape α → List (Trail × α)
  | .labeledStatement label _ => [([.field .label], label)]
  | .jump _ label => label.toList.map fun a => ([.field .label], a)
  | .tryStatement _ handler handlers _ =>
    (handler.toList.flatMap fun c =>
      ([.field .param, .field .handler], c.param) ::
        if handlers.isEmpty then [] else [([.field .body, .field .handler], c.body)]) ++
      handlers.zipIdx.map fun (c, i) => ([.field .param, .item i, .field .handlers], c.param)
  | .function _ id params _ =>
    (id.toList.map fun a => ([.field .id], a)) ++
      params.zipIdx.map fun (a, i) => ([.item i, .field .params], a)
  | .variableDeclaration declarations _ =>
    declarations.zipIdx.map fun (d, i) => ([.field .id, .item i, .field .declarations], d.id)
  | .objectExpression properties =>
    properties.zipIdx.map fun (p, i) => ([.field .key, .item i, .field .properties], p.key)
  | .memberExpression _ property computed =>
    if computed then [] else [([.field .property], property)]
  | _ => []

/-- The parts of a `try` in terms of its catch clauses. -/
theorem walked_tryStatement (block : α) (handler : Option (CatchClause α))
    (handlers : List (CatchClause α)) (finalizer : Option α) :
    (tryStatement block handler handlers finalizer).walked =
      one .block .statement block ::
        ((clauses handler handlers).zipIdx.map fun (c, i) =>
          ⟨.field .body ::
            (if handlers.isEmpty then [.field .handler] else [.item i, .field .handlers]),
            .scopeBody, c.body⟩) ++
        opt .finalizer .statement finalizer := by
  cases handlers with
  | nil => cases handler <;> rfl
  | cons first rest =>
    rw [List.map_eq_flatMap]
    rfl

/-- The parts of a variable declaration in terms of its declarators. -/
theorem walked_variableDeclaration (declarations : List (Declarator α)) (kind : DeclarationKind) :
    (variableDeclaration declarations kind).walked =
      declarations.zipIdx.flatMap fun (d, i) => d.init.toList.map fun a =>
        ⟨[.field .init, .item i, .field .declarations], .expression, a⟩ := by
  rw [walked, inEach]
  refine congrArg (declarations.zipIdx.flatMap ·) (funext fun d => ?_)
  exact List.map_map ..

/-- The body of a catch clause is walked. -/
theorem mem_walked_of_clause {block : α} {handler : Option (CatchClause α)}
    {handlers : List (CatchClause α)} {finalizer : Option α} {c : CatchClause α × Nat}
    (h : c ∈ (clauses handler handlers).zipIdx) :
    ⟨.field .body ::
        (if handlers.isEmpty then [.field .handler] else [.item c.2, .field .handlers]),
      .scopeBody, c.1.body⟩ ∈ (tryStatement block handler handlers finalizer).walked := by
  rw [walked_tryStatement]
  exact List.mem_append_left _ (List.mem_cons_of_mem _ (List.mem_map_of_mem h))

/-- The initial value of a declarator is walked. -/
theorem mem_walked_of_init {declarations : List (Declarator α)} {kind : DeclarationKind}
    {d : Declarator α} {i : Nat} (h : (d, i) ∈ declarations.zipIdx) {a : α}
    (ha : a ∈ d.init.toList) :
    ⟨[.field .init, .item i, .field .declarations], .expression, a⟩ ∈
      (variableDeclaration declarations kind).walked := by
  rw [walked_variableDeclaration]
  exact List.mem_flatMap.2 ⟨_, h, List.mem_map_of_mem ha⟩

theorem clauses_map (f : α → β) (handler : Option (CatchClause α))
    (handlers : List (CatchClause α)) :
    clauses (handler.map fun c => ⟨f c.param, f c.body⟩)
        (handlers.map fun c => ⟨f c.param, f c.body⟩) =
      (clauses handler handlers).map fun c => (⟨f c.param, f c.body⟩ : CatchClause β) := by
  unfold clauses
  rw [List.isEmpty_map]
  split
  · exact Option.toList_map ..
  · rfl

/-- A layer has the same parts whatever stands in them. -/
theorem walked_map (f : α → β) (s : Shape α) : (s.map f).walked = s.walked.map (Part.map f) := by
  cases s with
  | switchStatement discriminant cases =>
    simp only [Shape.map, walked, List.map_cons, map_one]
    refine congrArg _ (map_inEach f _ _ ?_ _).symm
    intro c
    rw [List.map_append, map_opt, map_each]
  | tryStatement block handler handlers finalizer =>
    simp only [Shape.map, walked, List.isEmpty_map, List.map_cons, List.map_append, map_one,
      map_opt]
    refine congrArg (one .block .statement (f block) :: · ++ opt .finalizer .statement _) ?_
    by_cases h : handlers.isEmpty
    · rw [if_pos h, if_pos h]
      cases handler <;> rfl
    · rw [if_neg h, if_neg h]
      refine (map_inEach f _ _ ?_ _).symm
      intro c
      rfl
  | variableDeclaration declarations kind =>
    simp only [Shape.map, walked]
    refine (map_inEach f _ _ ?_ _).symm
    intro d
    exact map_opt f _ _ d.init
  | arrayExpression elements =>
    simp only [Shape.map, walked]
    refine (map_inEach f _ _ ?_ _).symm
    intro e
    cases e <;> rfl
  | objectExpression properties =>
    simp only [Shape.map, walked]
    refine (map_inEach f _ _ ?_ _).symm
    intro p
    rfl
  | memberExpression object property computed => cases computed <;> rfl
  | _ => simp [Shape.map, walked]

/-- Doing something to every child does it to the list of them. -/
theorem children_map (f : α → β) (s : Shape α) : (s.map f).children = s.children.map f := by
  cases s <;> simp [Shape.map, children, List.map_flatMap, List.flatMap_map,
    Option.toList_map]

/-- A layer depends on what is done to its children, and on nothing else about a function. -/
theorem map_congr {f g : α → β} {s : Shape α} (h : ∀ c ∈ s.children, f c = g c) :
    s.map f = s.map g := by
  have hopt {o : Option α} (ho : ∀ c ∈ o.toList, f c = g c) : o.map f = o.map g :=
    Option.map_congr fun c hc => ho c (Option.mem_toList.2 hc)
  cases s with
  | switchStatement discriminant cases =>
    simp only [children, List.mem_cons, forall_eq_or_imp, List.mem_flatMap, List.mem_append] at h
    rw [map, map, h.1]
    refine congrArg _ (List.map_congr_left fun c hc => ?_)
    rw [hopt fun a ha => h.2 a ⟨c, hc, .inl ha⟩,
      List.map_congr_left fun a ha => h.2 a ⟨c, hc, .inr ha⟩]
  | tryStatement block handler handlers finalizer =>
    cases handler <;> simp_all [children, map, or_imp, forall_and]
  | variableDeclaration declarations kind =>
    simp only [children, List.mem_flatMap, List.mem_cons] at h
    refine congrArg (variableDeclaration · kind) (List.map_congr_left fun d hd => ?_)
    rw [h d.id ⟨d, hd, .inl rfl⟩, hopt fun a ha => h a ⟨d, hd, .inr ha⟩]
  | arrayExpression elements =>
    simp only [children, List.mem_flatMap] at h
    refine congrArg arrayExpression (List.map_congr_left fun e he => ?_)
    exact hopt fun a ha => h a ⟨e, he, ha⟩
  | objectExpression properties =>
    simp only [children, List.mem_flatMap, List.mem_cons] at h
    refine congrArg objectExpression (List.map_congr_left fun p hp => ?_)
    rw [h p.key ⟨p, hp, .inl rfl⟩, h p.value ⟨p, hp, .inr (.inl rfl)⟩]
  | _ => simp_all [children, map]

theorem map_id (s : Shape α) : s.map id = s := by
  cases s <;> simp [map]

/-- A part is a child. -/
theorem child_mem_of_mem_walked {s : Shape α} {p : Part α} (h : p ∈ s.walked) :
    p.child ∈ s.children := by
  cases s <;> simp [walked, children, mem_opt, mem_inEach, mem_each] at h ⊢ <;>
    grind [one, under, mem_inEach]

end Shape

namespace Node

theorem height_pos (n : Node) : 0 < n.height := by
  rw [height, fold_eq]
  exact Nat.lt_of_lt_of_le Nat.zero_lt_one (Nat.le_add_right _ _)

/-- A child is lower than its parent. -/
theorem height_lt {m n : Node} (h : m ∈ n.shape.children) : m.height < n.height := by
  have hmax : ∀ (l : List Node), m ∈ l → m.height ≤ (l.map height).foldr max 0 := by
    intro l hl
    induction l with
    | nil => cases hl
    | cons k rest ih =>
      rcases List.mem_cons.1 hl with rfl | hl
      · exact Nat.le_max_left _ _
      · exact Nat.le_trans (ih hl) (Nat.le_max_right _ _)
  have hn : n.height = 1 + (n.shape.children.map height).foldr max 0 := by
    rw [height, fold_eq, Shape.children_map]
    rfl
  have := hmax _ h
  omega

/-- Computes a result for a tree from its subtrees and the results for them. -/
def para {α : Type} (f : Node → Shape (Node × α) → α) (n : Node) : α :=
  (n.fold fun n s => (n, f n s)).2

theorem para_eq {α : Type} (f : Node → Shape (Node × α) → α) (n : Node) :
    n.para f = f n (n.shape.map fun m => (m, m.para f)) := by
  have hpair (m : Node) : (m.fold fun n s => (n, f n s)) = (m, m.para f) := by
    refine Prod.ext ?_ rfl
    rw [fold_eq]
  rw [para, fold_eq]
  exact congrArg (fun g => f n (n.shape.map g)) (funext hpair)

/-- What holds of a node whose children it holds of, holds of every node. -/
theorem children_induction {P : Node → Prop}
    (step : ∀ n : Node, (∀ m ∈ n.shape.children, P m) → P n) (n : Node) : P n := by
  induction hn : n.height using Nat.strongRecOn generalizing n with
  | ind h ih =>
    subst hn
    refine step n ?_
    intro m hm
    exact ih m.height (height_lt hm) m rfl

/-- **What holds of a node whose parts it holds of, holds of every node.** -/
theorem walked_induction {P : Node → Prop}
    (step : ∀ n : Node, (∀ p ∈ n.shape.walked, P p.child) → P n) (n : Node) : P n := by
  induction n using children_induction with
  | step n ih => exact step n fun p hp => ih p.child (Shape.child_mem_of_mem_walked hp)

end Node

end TreeWalk
