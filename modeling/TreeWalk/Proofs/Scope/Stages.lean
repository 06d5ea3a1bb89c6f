/-
The stages of a node in a scope walk.

A scope walk does four kinds of things at a node: it opens a scope, binds a name, walks a
part, and leaves a scope again.  `Shape.stages` lists them for each shape in order, and
`goStages` reads such a list as a script, with the scopes that are open kept beside it.

The three handlers of their own that scope walks have are such scripts, and so is every
handler of the default table, which only walks.  What is walked is the same as through the
default table: `filterMap_part?_stages`.
-/
import TreeWalk.Proofs.Walk.Descent
import TreeWalk.Scope.Walk

namespace TreeWalk

/-! ### Stages -/

/-- One thing that a scope walk does at a node. -/
inductive Stage (α : Type) where
  /-- Opens a scope and enters it. -/
  | opens (kind : ScopeKind)
  /-- Binds a name in the current scope, or in the one around it. -/
  | binds (outside : Bool) (kind : BindingKind) (name : α) (role : String)
  /-- Walks a part. -/
  | walks (part : Part α)
  /-- Leaves the current scope. -/
  | closes

namespace Stage

variable {α β : Type}

/-- The stage with `f` done to the child. -/
def map (f : α → β) : Stage α → Stage β
  | opens kind => opens kind
  | binds outside kind a role => binds outside kind (f a) role
  | walks p => walks (p.map f)
  | closes => closes

/-- The part that is walked, if one is. -/
def part? : Stage α → Option (Part α)
  | walks p => some p
  | _ => none

/-- The stages of a function's name: a declaration binds it outside, an expression inside. -/
def named (form : FunctionForm) (a : α) : Stage α :=
  match form with
  | .declaration => binds true .function a "function name"
  | .expression => binds false .functionName a "function name"

/-- The stages of a catch clause that the steps lead to. -/
def clause (steps : Trail) (c : CatchClause α) : List (Stage α) :=
  [opens .catchClause, binds false .catchParameter c.param "catch parameter",
    walks ⟨.field .body :: steps, .scopeBody, c.body⟩, closes]

/-- The stages of a declarator. -/
def declarator (i : Nat) (d : Declarator α) : List (Stage α) :=
  binds false .variable d.id "declarator identifier" ::
    d.init.toList.map fun a =>
      walks ⟨[.field .init, .item i, .field .declarations], .expression, a⟩

end Stage

namespace Shape

variable {α β : Type}

open Stage

/-- The stages of a node, in order. -/
def stages : Shape α → List (Stage α)
  | .function form id params body =>
    opens .function :: params.map (fun a => binds false .argument a "parameter identifier") ++
      id.toList.map (named form) ++ [walks (.one .body .scopeBody body), closes]
  | .tryStatement block handler handlers finalizer =>
    walks (.one .block .statement block) ::
      ((clauses handler handlers).zipIdx.flatMap fun (c, i) =>
        clause (if handlers.isEmpty then [.field .handler] else [.item i, .field .handlers]) c) ++
      (Part.opt .finalizer .statement finalizer).map walks
  | .variableDeclaration declarations _ =>
    declarations.zipIdx.flatMap fun (d, i) => declarator i d
  | s => s.walked.map walks

/-- A layer has the same stages whatever stands in it. -/
theorem stages_map (f : α → β) (s : Shape α) : (s.map f).stages = s.stages.map (Stage.map f) := by
  have hwalked (s : Shape α) :
      (s.map f).walked.map walks = (s.walked.map walks).map (Stage.map f) := by
    rw [walked_map, List.map_map, List.map_map]
    rfl
  cases s with
  | function form id params body =>
    simp only [stages, Shape.map, List.map_cons, List.map_append, List.map_map, Option.toList_map]
    refine congrArg₂ (fun a b => opens .function :: a ++ b ++ _) rfl ?_
    cases form <;> rfl
  | tryStatement block handler handlers finalizer =>
    simp only [stages, Shape.map, clauses_map, List.isEmpty_map, List.map_cons, List.map_append,
      List.map_flatMap, List.zipIdx_map, List.flatMap_map, ← Part.map_opt, List.map_map]
    rfl
  | variableDeclaration declarations kind =>
    simp only [stages, Shape.map, List.map_flatMap, List.zipIdx_map, List.flatMap_map]
    refine congrArg (declarations.zipIdx.flatMap ·) (funext fun d => ?_)
    simp only [Prod.map, id, declarator, List.map_cons, List.map_map, Option.toList_map]
    rfl
  | _ => exact hwalked _

/-- **The parts that are walked in stages are those that are walked.** -/
theorem filterMap_part?_stages (s : Shape α) : s.stages.filterMap part? = s.walked := by
  have hwalks (ps : List (Part α)) : (ps.map walks).filterMap part? = ps := by
    rw [List.filterMap_map]
    exact List.filterMap_some
  cases s with
  | function form id params body =>
    have hparams : (params.map fun a =>
        binds false .argument a "parameter identifier").filterMap part? = [] := by
      rw [List.filterMap_map]
      exact List.filterMap_eq_nil_iff.2 fun _ _ => rfl
    have hid : (id.toList.map (named form)).filterMap part? = [] := by
      rw [List.filterMap_map]
      refine List.filterMap_eq_nil_iff.2 ?_
      intro _ _
      cases form <;> rfl
    rw [stages, List.filterMap_append, List.filterMap_append, List.filterMap_cons, hparams, hid]
    rfl
  | tryStatement block handler handlers finalizer =>
    rw [stages, List.filterMap_append, List.filterMap_cons, hwalks, List.filterMap_flatMap,
      walked_tryStatement, List.map_eq_flatMap]
    rfl
  | variableDeclaration declarations kind =>
    rw [stages, List.filterMap_flatMap, walked_variableDeclaration]
    refine congrArg (declarations.zipIdx.flatMap ·) (funext fun d => ?_)
    obtain ⟨⟨id, init⟩, i⟩ := d
    cases init <;> rfl
  | _ => exact hwalks _

end Shape

/-! ### Stages as a script -/

namespace ScopeWalk

open Script

variable {α : Type}

/-- Goes through stages in a scope that lies inside others, the innermost first. -/
def goStages (c : Cursor) : List (Stage Node) → ScopeId → List ScopeId →
    Script (ScopeStore × α) ScopeId Unit
  | [], _, _ => pure ()
  | .opens kind :: rest, scope, around => do
    let inner ← openScope scope kind
    goStages c rest inner (scope :: around)
  | .binds outside kind n role :: rest, scope, around => do
    bindName (if outside then around.headD scope else scope) n kind role
    goStages c rest scope around
  | .walks p :: rest, scope, around => do
    go (c.part p) scope (some p.role)
    goStages c rest scope around
  | .closes :: rest, scope, around => goStages c rest (around.headD scope) around.tail

variable {c : Cursor} {scope : ScopeId} {around : List ScopeId}

/-- Stages that all walk are walks of parts. -/
theorem goStages_walks (ps : List (Part Node)) :
    goStages (α := α) c (ps.map .walks) scope around = goParts c scope ps := by
  induction ps with
  | nil => rfl
  | cons p ps ih =>
    have hparts : goParts (ω := ScopeStore × α) c scope (p :: ps) =
        (do go (c.part p) scope (some p.role); goParts c scope ps) := rfl
    rw [List.map_cons, goStages, ih, hparts]

/-- Stages that come back to the scope for each item of a list are a loop over the list. -/
theorem goStages_flatMap {β : Type} (stages : β → List (Stage Node))
    (script : β → Script (ScopeStore × α) ScopeId Unit)
    (h : ∀ b rest, goStages c (stages b ++ rest) scope around =
      (do script b; goStages c rest scope around)) (bs : List β) (rest : List (Stage Node)) :
    goStages c (bs.flatMap stages ++ rest) scope around =
      (do bs.forM script; goStages c rest scope around) := by
  induction bs with
  | nil => rfl
  | cons b bs ih =>
    have hforM : (b :: bs).forM script = (do script b; bs.forM script) := rfl
    rw [List.flatMap_cons, List.append_assoc, h, ih, hforM, bind_assoc]

/-- A function goes through the stages of its shape. -/
theorem function_eq {form : FunctionForm} {id : Option Node} {params : List Node} {body : Node}
    (hc : c.node.shape = .function form id params body) :
    function c scope = goStages (α := α) c c.node.shape.stages scope [] := by
  have hparams (inner : ScopeId) (rest : List (Stage Node)) :
      goStages (α := α) c
        (params.map (fun a => .binds false .argument a "parameter identifier") ++ rest) inner
          [scope] =
        (do params.forM fun p => bindName inner p .argument "parameter identifier"
            goStages c rest inner [scope]) := by
    rw [List.map_eq_flatMap]
    exact goStages_flatMap _ _ (fun _ _ => rfl) params rest
  rw [function, hc]
  simp only [Shape.stages, List.cons_append, List.append_assoc, goStages, hparams]
  cases id with
  | none =>
    simp only [Option.toList_none, List.map_nil, List.nil_append, goStages, bind_pure_unit]
    rfl
  | some id =>
    cases form with
    | declaration =>
      simp only [Option.toList_some, List.map_cons, List.map_nil, List.cons_append,
        List.nil_append, Stage.named, goStages, bind_pure_unit]
      rfl
    | expression =>
      simp only [Option.toList_some, List.map_cons, List.map_nil, List.cons_append,
        List.nil_append, Stage.named, goStages, bind_pure_unit]
      rfl

/-- A `try` goes through the stages of its shape. -/
theorem tryStatement_eq {block : Node} {handler : Option (CatchClause Node)}
    {handlers : List (CatchClause Node)} {finalizer : Option Node}
    (hc : c.node.shape = .tryStatement block handler handlers finalizer) :
    tryStatement c scope = goStages (α := α) c c.node.shape.stages scope [] := by
  have hfinalizer : goStages (α := α) c ((Part.opt .finalizer .statement finalizer).map .walks)
      scope [] = goIfSome (finalizer.map (c.down [.field .finalizer])) scope (some .statement) := by
    rw [goStages_walks, goParts_opt]
  have hclauses (rest : List (Stage Node)) :
      goStages (α := α) c ((Shape.clauses handler handlers).zipIdx.flatMap (fun clause =>
        Stage.clause (Default.clauseSteps handlers clause.2) clause.1) ++ rest) scope [] =
      (do (Shape.clauses handler handlers).zipIdx.forM fun clause => do
            let inner ← openScope scope .catchClause
            bindName inner clause.1.param .catchParameter "catch parameter"
            go (c.down (.field .body :: Default.clauseSteps handlers clause.2) clause.1.body) inner
              (some .scopeBody)
          goStages c rest scope []) := by
    refine goStages_flatMap _ _ ?_ _ rest
    intro clause rest
    simp only [Stage.clause, List.cons_append, List.nil_append, goStages, bind_assoc]
    rfl
  rw [tryStatement, hc]
  simp only [Shape.stages, List.cons_append, goStages]
  refine congrArg _ (funext fun _ => ?_)
  exact ((hclauses _).trans (by rw [hfinalizer])).symm

/-- A variable declaration goes through the stages of its shape. -/
theorem variableDeclaration_eq {declarations : List (Declarator Node)} {kind : DeclarationKind}
    (hc : c.node.shape = .variableDeclaration declarations kind) :
    variableDeclaration c scope = goStages (α := α) c c.node.shape.stages scope [] := by
  have hdeclarators : goStages (α := α) c
      (declarations.zipIdx.flatMap (fun d => Stage.declarator d.2 d.1) ++ []) scope [] =
      (do declarations.zipIdx.forM fun d => do
            bindName scope d.1.id .variable "declarator identifier"
            goIfSome (d.1.init.map (c.down [.field .init, .item d.2, .field .declarations])) scope
              (some .expression)
          goStages c [] scope []) := by
    refine goStages_flatMap _ _ ?_ _ []
    intro d rest
    obtain ⟨⟨id, init⟩, i⟩ := d
    cases init with
    | none =>
      simp only [Stage.declarator, Option.toList_none, List.map_nil, List.cons_append,
        List.nil_append, goStages, bind_assoc]
      rfl
    | some a =>
      simp only [Stage.declarator, Option.toList_some, List.map_cons, List.map_nil,
        List.cons_append, List.nil_append, goStages, bind_assoc]
      rfl
  rw [List.append_nil] at hdeclarators
  rw [variableDeclaration, hc]
  exact (hdeclarators.trans bind_pure_unit).symm

/-! ### The table of scope walks -/

theorem nodup_keys_procedures : ((@procedures α).map Prod.fst).Nodup := by
  have h : ((@procedures Unit).map Prod.fst).Nodup := by decide
  exact h

/-- What scope walks do not replace is as in the default table. -/
theorem runs_table_of_not_mem (first : Nat) {key : String}
    {p : Procedure (ScopeStore × α) ScopeId} (hkey : key ∉ (@procedures α).map Prod.fst)
    (hp : (Default.table first).Runs key p) : (table first).Runs key p :=
  Table.runs_layer_of_none (Table.get?_ofProcedures_of_not_mem _ hkey) hp

/-- Functions go through the handler of scope walks. -/
theorem runs_function (first : Nat) :
    (table first : Table (ScopeStore × α) ScopeId).Runs Category.function.name function := by
  have hmem : (Category.function.name, function) ∈ @procedures α := by
    simp [procedures, Category.name]
  have hbase : (Category.function.name, Default.function) ∈
      (Default.procedures : List (String × Procedure (ScopeStore × α) ScopeId)) := by
    simp [Default.procedures, Category.name]
  exact Table.runs_layer (Table.runs_ofProcedures _ nodup_keys_procedures hmem)
    (Default.runs_table first hbase)

/-- The handler of a node's inner key goes through the stages of the node. -/
theorem exists_inner (first : Nat) (c : Cursor) :
    ∃ p, (table first : Table (ScopeStore × α) ScopeId).Runs c.node.innerKey p ∧
      ∀ scope, p c scope = goStages c c.node.shape.stages scope [] := by
  obtain ⟨q, hq, hparts⟩ := Default.exists_inner (ω := ScopeStore × α) (σ := ScopeId) c.node
  have hbase := Default.runs_table first hq
  have overridden (key : String) (p : Procedure (ScopeStore × α) ScopeId)
      (hkey : c.node.innerKey = key) (hmem : (key, p) ∈ procedures)
      (hstages : ∀ scope, p c scope = goStages c c.node.shape.stages scope []) :
      ∃ p, (table first : Table (ScopeStore × α) ScopeId).Runs c.node.innerKey p ∧
        ∀ scope, p c scope = goStages c c.node.shape.stages scope [] := by
    refine ⟨p, ?_, hstages⟩
    exact Table.runs_layer (Table.runs_ofProcedures _ nodup_keys_procedures (hkey ▸ hmem)) hbase
  have kept (hf : c.node.isFunction = false) (htry : (c.node.type == .tryStatement) = false)
      (hvar : (c.node.type == .variableDeclaration) = false)
      (hstages : c.node.shape.stages = c.node.shape.walked.map .walks) :
      ∃ p, (table first : Table (ScopeStore × α) ScopeId).Runs c.node.innerKey p ∧
        ∀ scope, p c scope = goStages c c.node.shape.stages scope [] := by
    have hkey : c.node.innerKey ∉ (@procedures α).map Prod.fst := by
      have hfunction := (Category.function.name_ne_typeName c.node.type).symm
      have htry := fun h => ne_of_beq_false htry (NodeType.name_injective h)
      have hvar := fun h => ne_of_beq_false hvar (NodeType.name_injective h)
      rw [Node.innerKey, hf, if_neg Bool.false_ne_true]
      simpa [procedures] using ⟨hfunction, htry, hvar⟩
    refine ⟨q, runs_table_of_not_mem first hkey hbase, ?_⟩
    intro scope
    rw [hparts c scope rfl, hstages, goStages_walks]
  obtain ⟨⟨shape, start, stop⟩, trail⟩ := c
  cases shape with
  | function form id params body =>
    exact overridden "Function" function rfl (by simp [procedures]) fun _ => function_eq rfl
  | tryStatement block handler handlers finalizer =>
    exact overridden "TryStatement" tryStatement rfl (by simp [procedures])
      fun _ => tryStatement_eq rfl
  | variableDeclaration declarations kind =>
    exact overridden "VariableDeclaration" variableDeclaration rfl (by simp [procedures])
      fun _ => variableDeclaration_eq rfl
  | jump form label => cases form <;> exact kept rfl rfl rfl rfl
  | loop form test body => cases form <;> exact kept rfl rfl rfl rfl
  | unary form operator prefixed argument => cases form <;> exact kept rfl rfl rfl rfl
  | binary form operator left right => cases form <;> exact kept rfl rfl rfl rfl
  | call form callee arguments => cases form <;> exact kept rfl rfl rfl rfl
  | _ => exact kept rfl rfl rfl rfl

end ScopeWalk

/-- Nodes are sent on as by the default table, and the handler of a node's inner key goes through
the stages of the node. -/
structure Table.WalksStages {α : Type} (t : Table (ScopeStore × α) ScopeId) : Prop
    extends Table.Redirects t where
  inner : ∀ c : Cursor, ∃ p, t.Runs c.node.innerKey p ∧
    ∀ scope, p c scope = ScopeWalk.goStages c c.node.shape.stages scope []

namespace ScopeWalk

variable {α : Type}

/-- The table of scope walks goes through the stages. -/
theorem walksStages_table (first : Nat) :
    (table first : Table (ScopeStore × α) ScopeId).WalksStages where
  toRedirects := by
    refine (Default.redirects_table first).layer ?_
    intro key hkey
    have hnot : key ∉ (@procedures Unit).map Prod.fst := by
      revert key
      decide
    exact Table.get?_ofProcedures_of_not_mem _ hnot
  inner := exists_inner first

/-- Going through stages asks for walks of parts. -/
theorem asks_goStages {c : Cursor} {stages : List (Stage Node)}
    (h : ∀ p, .walks p ∈ stages → p ∈ c.node.shape.walked) (scope : ScopeId)
    (around : List ScopeId) : (goStages (α := α) c stages scope around).Asks c.IsPart := by
  induction stages generalizing scope around with
  | nil => trivial
  | cons stage rest ih =>
    have hrest := ih fun p hp => h p (List.mem_cons_of_mem _ hp)
    cases stage with
    | opens kind =>
      have hopen : (openScope (α := α) scope kind).Asks c.IsPart := fun _ => trivial
      exact hopen.bind fun inner => hrest inner (scope :: around)
    | binds outside kind n role =>
      have hbind (s : ScopeId) : (bindName (α := α) s n kind role).Asks c.IsPart := by
        unfold bindName
        split
        · exact fun _ => trivial
        · trivial
      exact (hbind _).bind fun _ => hrest scope around
    | walks p =>
      have hp : (Script.go (ω := ScopeStore × α) (c.part p) scope (some p.role)).Asks c.IsPart :=
        ⟨⟨p, h p (List.mem_cons_self ..), rfl, rfl⟩, fun _ => trivial⟩
      exact hp.bind fun _ => hrest scope around
    | closes => exact hrest _ _

end ScopeWalk

namespace Table

variable {α : Type} {t : Table (ScopeStore × α) ScopeId}

theorem WalksStages.descends (h : t.WalksStages) : t.Descends where
  toRedirects := h.toRedirects
  inner c := by
    obtain ⟨p, hp, hstages⟩ := h.inner c
    refine ⟨p, hp, ?_⟩
    intro scope
    rw [hstages]
    refine ScopeWalk.asks_goStages ?_ scope []
    intro p hp
    rw [← Shape.filterMap_part?_stages]
    exact List.mem_filterMap.2 ⟨_, hp, rfl⟩

/-- Nothing changes where nothing is overridden. -/
theorem WalksStages.layer_empty (h : t.WalksStages) : (layer .empty t).WalksStages where
  toRedirects := h.toRedirects.layer fun key _ => OrderedMap.get?_empty key
  inner c := by
    obtain ⟨p, hp, hstages⟩ := h.inner c
    exact ⟨p, runs_layer_of_none (OrderedMap.get?_empty _) hp, hstages⟩

end Table

end TreeWalk
