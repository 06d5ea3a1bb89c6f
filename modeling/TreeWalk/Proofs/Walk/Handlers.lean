/-
The handlers of the default table walk the parts of a node.

Each handler is written for its own shape, one walk after another.  Read as scripts they
all do one thing: they walk what `Shape.walked` lists for the shape, in that order, each
part under its role and with the state unchanged.  `Default.exists_inner` says so for
every node and the handler of its inner key, and it is the only place where the handlers
are looked into one by one.

The fields of a shape are walked in four ways: one child, a child that may be absent, a
list of children, and a list of records with children of their own.  There is a lemma
for each.
-/
import TreeWalk.Proofs.Tree.Places
import TreeWalk.Proofs.Walk.Layers

namespace TreeWalk

namespace Script

variable {ω σ : Type}

/-- Walks parts of the node at the cursor in turn, up to the first failure. -/
def goParts (c : Cursor) (st : σ) (ps : List (Part Node)) : Script ω σ Unit :=
  ps.forM fun p => go (c.part p) st (some p.role)

variable {c : Cursor} {st : σ}

theorem goParts_nil : goParts (ω := ω) c st [] = pure () := rfl

theorem goParts_cons (f : Field) (role : Category) (n : Node) (ps : List (Part Node)) :
    goParts (ω := ω) c st (.one f role n :: ps) =
      (do go (c.down [.field f] n) st (some role); goParts c st ps) := rfl

theorem goParts_append (ps qs : List (Part Node)) :
    goParts (ω := ω) c st (ps ++ qs) = (do goParts c st ps; goParts c st qs) :=
  List.forM_append

theorem goParts_opt (f : Field) (role : Category) (n : Option Node) :
    goParts (ω := ω) c st (Part.opt f role n) =
      goIfSome (n.map (c.down [.field f])) st (some role) := by
  cases n with
  | none => rfl
  | some n => exact bind_pure_unit

theorem goParts_inEach {γ : Type} (f : Field) (parts : γ → List (Part Node)) (items : List γ) :
    goParts (ω := ω) c st (Part.inEach f parts items) =
      items.zipIdx.forM fun (item, i) =>
        goParts c st ((parts item).map (Part.under [.item i, .field f])) := by
  rw [Part.inEach]
  induction items.zipIdx with
  | nil => rfl
  | cons e rest ih =>
    rw [List.flatMap_cons, goParts_append, ih]
    rfl

/-- Parts of one role are walked like a list of nodes. -/
theorem goParts_of_role {role : Category} {ps : List (Part Node)} (h : ∀ p ∈ ps, p.role = role) :
    goParts (ω := ω) c st ps = goAll (ps.map c.part) st (some role) := by
  induction ps with
  | nil => rfl
  | cons p rest ih =>
    have hp := h p (List.mem_cons_self ..)
    have hrest := ih fun q hq => h q (List.mem_cons_of_mem _ hq)
    show (do go (c.part p) st (some p.role); goParts c st rest) =
      (do go (c.part p) st (some role); goAll (rest.map c.part) st (some role))
    rw [hp, hrest]

theorem goParts_under_each (steps : Trail) (f : Field) (role : Category) (ns : List Node) :
    goParts (ω := ω) c st ((Part.each f role ns).map (Part.under steps)) =
      goAll (c.downAll (.field f :: steps) ns) st (some role) := by
  have hrole : ∀ p ∈ (Part.each f role ns).map (Part.under steps), p.role = role := by
    intro p hp
    obtain ⟨q, hq, rfl⟩ := List.mem_map.1 hp
    obtain ⟨i, n, -, rfl⟩ := Part.mem_each.1 hq
    rfl
  rw [goParts_of_role hrole, Cursor.downAll, List.mapIdx_eq_zipIdx_map, Part.each, Part.inEach,
    List.map_map, List.map_flatMap]
  exact congrArg (goAll · st (some role)) List.map_eq_flatMap.symm

theorem goParts_each (f : Field) (role : Category) (ns : List Node) :
    goParts (ω := ω) c st (Part.each f role ns) =
      goAll (c.downAll [.field f] ns) st (some role) := by
  have hnil : (Part.each f role ns).map (Part.under []) = Part.each f role ns := by
    refine (List.map_congr_left ?_).trans (List.map_id _)
    intro p _
    exact congrArg (Part.mk · _ _) (List.append_nil _)
  rw [← hnil, goParts_under_each]

theorem goParts_under_one (steps : Trail) (f : Field) (role : Category) (n : Node) :
    goParts (ω := ω) c st ([Part.one f role n].map (Part.under steps)) =
      go (c.down (.field f :: steps) n) st (some role) := bind_pure_unit

theorem goParts_under_opt (steps : Trail) (f : Field) (role : Category) (n : Option Node) :
    goParts (ω := ω) c st ((Part.opt f role n).map (Part.under steps)) =
      goIfSome (n.map (c.down (.field f :: steps))) st (some role) := by
  cases n with
  | none => rfl
  | some n => exact bind_pure_unit

end Script

namespace Default

open Script

variable {ω σ : Type}

/-- **The handler of a node's inner key walks its parts.** -/
theorem exists_inner (n : Node) : ∃ p : Procedure ω σ, (n.innerKey, p) ∈ procedures ∧
    ∀ c st, c.node = n → p c st = goParts c st n.shape.walked := by
  obtain ⟨shape, start, stop⟩ := n
  have mem (key : String) {p : Procedure ω σ} (hp : (key, p) ∈ procedures)
      (hk : Node.innerKey ⟨shape, start, stop⟩ = key) :
      (Node.innerKey ⟨shape, start, stop⟩, p) ∈ procedures := hk ▸ hp
  cases shape with
  | program body =>
    refine ⟨statementList, mem "Program" (by simp [procedures]) rfl, ?_⟩
    intro c st hc
    rw [statementList, hc]
    exact (goParts_each _ _ _).symm
  | emptyStatement =>
    refine ⟨leaf, mem "EmptyStatement" (by simp [procedures]) rfl, ?_⟩
    intro c st hc
    rfl
  | blockStatement body =>
    refine ⟨statementList, mem "BlockStatement" (by simp [procedures]) rfl, ?_⟩
    intro c st hc
    rw [statementList, hc]
    exact (goParts_each _ _ _).symm
  | expressionStatement expression =>
    refine ⟨expressionStatement, mem "ExpressionStatement" (by simp [procedures]) rfl, ?_⟩
    intro c st hc
    rw [expressionStatement, hc]
    simp only [Shape.walked, goParts_cons, goParts_nil, bind_pure_unit]
  | ifStatement test consequent alternate =>
    refine ⟨ifStatement, mem "IfStatement" (by simp [procedures]) rfl, ?_⟩
    intro c st hc
    rw [ifStatement, hc]
    simp only [Shape.walked, goParts_cons, goParts_opt]
  | labeledStatement label body =>
    refine ⟨labeledStatement, mem "LabeledStatement" (by simp [procedures]) rfl, ?_⟩
    intro c st hc
    rw [labeledStatement, hc]
    simp only [Shape.walked, goParts_cons, goParts_nil, bind_pure_unit]
  | jump form label =>
    refine ⟨leaf, ?_, ?_⟩
    · cases form with
      | break_ => exact mem "BreakStatement" (by simp [procedures]) rfl
      | continue_ => exact mem "ContinueStatement" (by simp [procedures]) rfl
    · intro c st hc
      rfl
  | withStatement object body =>
    refine ⟨withStatement, mem "WithStatement" (by simp [procedures]) rfl, ?_⟩
    intro c st hc
    rw [withStatement, hc]
    simp only [Shape.walked, goParts_cons, goParts_nil, bind_pure_unit]
  | switchStatement discriminant cases =>
    refine ⟨switchStatement, mem "SwitchStatement" (by simp [procedures]) rfl, ?_⟩
    intro c st hc
    rw [switchStatement, hc]
    simp only [Shape.walked, goParts_cons, goParts_inEach, List.map_append, goParts_append,
      goParts_under_opt, goParts_under_each]
  | returnStatement argument =>
    refine ⟨returnStatement, mem "ReturnStatement" (by simp [procedures]) rfl, ?_⟩
    intro c st hc
    rw [returnStatement, hc]
    exact (goParts_opt _ _ _).symm
  | throwStatement argument =>
    refine ⟨throwStatement, mem "ThrowStatement" (by simp [procedures]) rfl, ?_⟩
    intro c st hc
    rw [throwStatement, hc]
    simp only [Shape.walked, goParts_cons, goParts_nil, bind_pure_unit]
  | tryStatement block handler handlers finalizer =>
    refine ⟨tryStatement, mem "TryStatement" (by simp [procedures]) rfl, ?_⟩
    intro c st hc
    rw [tryStatement, hc]
    simp only [Shape.walked, List.cons_append, goParts_cons, goParts_append, goParts_opt]
    cases handlers with
    | nil =>
      cases handler with
      | none => rfl
      | some handler => rfl
    | cons first rest =>
      simp only [List.isEmpty_cons, Bool.false_eq_true, if_false, goParts_inEach, goParts_under_one]
      rfl
  | loop form test body =>
    refine ⟨loop, ?_, ?_⟩
    · cases form with
      | while_ => exact mem "WhileStatement" (by simp [procedures]) rfl
      | doWhile => exact mem "DoWhileStatement" (by simp [procedures]) rfl
    · intro c st hc
      rw [loop, hc]
      simp only [Shape.walked, goParts_cons, goParts_nil, bind_pure_unit]
  | forStatement init test update body =>
    refine ⟨forStatement, mem "ForStatement" (by simp [procedures]) rfl, ?_⟩
    intro c st hc
    rw [forStatement, hc]
    simp only [Shape.walked, goParts_append, goParts_opt, goParts_cons, goParts_nil, bind_pure_unit,
      bind_assoc]
  | forInStatement left right body =>
    refine ⟨forInStatement, mem "ForInStatement" (by simp [procedures]) rfl, ?_⟩
    intro c st hc
    rw [forInStatement, hc]
    simp only [Shape.walked, goParts_cons, goParts_nil, bind_pure_unit]
  | debuggerStatement =>
    refine ⟨leaf, mem "DebuggerStatement" (by simp [procedures]) rfl, ?_⟩
    intro c st hc
    rfl
  | function form id params body =>
    refine ⟨function, mem "Function" (by simp [procedures]) rfl, ?_⟩
    intro c st hc
    rw [function, hc]
    simp only [Shape.walked, goParts_cons, goParts_nil, bind_pure_unit]
  | variableDeclaration declarations kind =>
    refine ⟨variableDeclaration, mem "VariableDeclaration" (by simp [procedures]) rfl, ?_⟩
    intro c st hc
    rw [variableDeclaration, hc]
    simp only [Shape.walked, goParts_inEach, goParts_under_opt]
  | thisExpression =>
    refine ⟨leaf, mem "ThisExpression" (by simp [procedures]) rfl, ?_⟩
    intro c st hc
    rfl
  | arrayExpression elements =>
    refine ⟨arrayExpression, mem "ArrayExpression" (by simp [procedures]) rfl, ?_⟩
    intro c st hc
    rw [arrayExpression, hc]
    simp only [Shape.walked, goParts_inEach]
    refine congrArg _ (funext fun element => ?_)
    obtain ⟨e, i⟩ := element
    cases e with
    | none => rfl
    | some e => exact bind_pure_unit.symm
  | objectExpression properties =>
    refine ⟨objectExpression, mem "ObjectExpression" (by simp [procedures]) rfl, ?_⟩
    intro c st hc
    rw [objectExpression, hc]
    simp only [Shape.walked, goParts_inEach, goParts_under_one]
  | sequenceExpression expressions =>
    refine ⟨sequenceExpression, mem "SequenceExpression" (by simp [procedures]) rfl, ?_⟩
    intro c st hc
    rw [sequenceExpression, hc]
    exact (goParts_each _ _ _).symm
  | unary form operator prefixed argument =>
    refine ⟨unary, ?_, ?_⟩
    · cases form with
      | unary => exact mem "UnaryExpression" (by simp [procedures]) rfl
      | update => exact mem "UpdateExpression" (by simp [procedures]) rfl
    · intro c st hc
      rw [unary, hc]
      simp only [Shape.walked, goParts_cons, goParts_nil, bind_pure_unit]
  | binary form operator left right =>
    refine ⟨binary, ?_, ?_⟩
    · cases form with
      | binary => exact mem "BinaryExpression" (by simp [procedures]) rfl
      | assignment => exact mem "AssignmentExpression" (by simp [procedures]) rfl
      | logical => exact mem "LogicalExpression" (by simp [procedures]) rfl
    · intro c st hc
      rw [binary, hc]
      simp only [Shape.walked, goParts_cons, goParts_nil, bind_pure_unit]
  | conditionalExpression test consequent alternate =>
    refine ⟨conditionalExpression, mem "ConditionalExpression" (by simp [procedures]) rfl, ?_⟩
    intro c st hc
    rw [conditionalExpression, hc]
    simp only [Shape.walked, goParts_cons, goParts_nil, bind_pure_unit]
  | call form callee arguments =>
    refine ⟨call, ?_, ?_⟩
    · cases form with
      | call => exact mem "CallExpression" (by simp [procedures]) rfl
      | construct => exact mem "NewExpression" (by simp [procedures]) rfl
    · intro c st hc
      rw [call, hc]
      simp only [Shape.walked, goParts_cons, goParts_each]
  | memberExpression object property computed =>
    refine ⟨memberExpression, mem "MemberExpression" (by simp [procedures]) rfl, ?_⟩
    intro c st hc
    rw [memberExpression, hc]
    cases computed with
    | false => simp only [Shape.walked, goParts_cons, goParts_nil, Bool.false_eq_true, if_false]
    | true => simp only [Shape.walked, goParts_cons, goParts_nil, if_true, bind_pure_unit]
  | identifier name =>
    refine ⟨leaf, mem "Identifier" (by simp [procedures]) rfl, ?_⟩
    intro c st hc
    rfl
  | literal value raw =>
    refine ⟨leaf, mem "Literal" (by simp [procedures]) rfl, ?_⟩
    intro c st hc
    rfl

end Default

end TreeWalk
