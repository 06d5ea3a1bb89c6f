/-
Which bodies the visits of a scope walk lie in.

The events of a scope walk open a scope when a body is about to be walked and leave it when
it has been.  So whoever goes through the events can tell which bodies are around: there are
those of the scopes that are open, and the one for the next scope is the next on the list of
bodies.  `Housed` says that at each visit the bodies so found are those that the place of the
visit lies in, and the events of a tree are such events, `housed_events`.
-/
import TreeWalk.Proofs.Scope.Bodies

namespace TreeWalk

namespace ScopeWalk

variable {around : Cursor → List Body} {es : List Event} {inside ahead : List Body}

/-- Starting inside some bodies and with others ahead, each scope is opened for the next body and
left after it, and at each visit `around` gives the bodies that are inside of. -/
def Housed (around : Cursor → List Body) : List Event → List Body → List Body → Prop
  | [], _, _ => True
  | .visits v :: es, inside, ahead => around v.cursor = inside ∧ Housed around es inside ahead
  | .opens kind :: es, inside, ahead =>
    ∃ b rest, ahead = b :: rest ∧ b.kind = kind ∧ Housed around es (b :: inside) rest
  | .binds .. :: es, inside, ahead => Housed around es inside ahead
  | .closes :: es, inside, ahead => inside ≠ [] ∧ Housed around es inside.tail ahead

/-- Events are housed up to wherever they stop. -/
theorem Housed.of_prefix {as bs : List Event} (h : Housed around (as ++ bs) inside ahead) :
    Housed around as inside ahead := by
  induction as generalizing inside ahead with
  | nil => trivial
  | cons e as ih =>
    cases e with
    | visits v => exact ⟨h.1, ih h.2⟩
    | opens kind =>
      obtain ⟨b, rest, rfl, hb, h⟩ := h
      exact ⟨b, rest, rfl, hb, ih h⟩
    | binds outside kind n role => exact ih h
    | closes => exact ⟨h.1, ih h.2⟩

theorem housed_visits {c : Cursor} (hc : around c = inside) (h : Housed around es inside ahead)
    (keys : List String) :
    Housed around (keys.map (fun key => .visits ⟨key, c⟩) ++ es) inside ahead := by
  induction keys with
  | nil => exact h
  | cons key keys ih => exact ⟨hc, ih⟩

theorem housed_binds (h : Housed around es inside ahead) (outside : Bool) (kind : BindingKind)
    (role : String) (names : List Node) :
    Housed around (names.map (.binds outside kind · role) ++ es) inside ahead := by
  induction names with
  | nil => exact h
  | cons n names ih => exact ih

theorem housed_named (h : Housed around es inside ahead) (form : FunctionForm)
    (name : Option Node) :
    Housed around (name.toList.map (Event.named form) ++ es) inside ahead := by
  cases form with
  | declaration => exact housed_binds h true .function "function name" name.toList
  | expression => exact housed_binds h false .functionName "function name" name.toList

/-- Events that go through the bodies of each item of a list, one item after another. -/
theorem housed_flatMap {β : Type} {f : β → List Event} {bodies : β → List Body} {bs : List β}
    (hf : ∀ b ∈ bs, ∀ es ahead, Housed around es inside ahead →
      Housed around (f b ++ es) inside (bodies b ++ ahead))
    (h : Housed around es inside ahead) :
    Housed around (bs.flatMap f ++ es) inside (bs.flatMap bodies ++ ahead) := by
  induction bs with
  | nil => exact h
  | cons b bs ih =>
    rw [List.flatMap_cons, List.flatMap_cons, List.append_assoc, List.append_assoc]
    exact hf b (List.mem_cons_self ..) _ _
      (ih fun b' hb' => hf b' (List.mem_cons_of_mem _ hb'))

section

variable {c : Cursor} {walk : Part Node → List Event} {below : Part Node → List Body}
  (hwalk : ∀ p ∈ c.node.shape.walked, ∀ es ahead,
    Housed around es (c.bodyAt p ++ inside) ahead →
      Housed around (walk p ++ es) (c.bodyAt p ++ inside) (below p ++ ahead))

include hwalk

/-- A part that is no body is walked where the node is. -/
theorem housed_part {p : Part Node} (hp : p ∈ c.node.shape.walked)
    (hkind : c.node.shape.bodyKind? p = none) (h : Housed around es inside ahead) :
    Housed around (walk p ++ es) inside ((c.bodyAt p ++ below p) ++ ahead) := by
  have hpart := hwalk p hp es ahead
  rw [Cursor.bodyAt_of_none hkind] at hpart ⊢
  exact hpart h

/-- A part that is a body is walked inside, until the scope is left. -/
theorem housed_body {p : Part Node} (hp : p ∈ c.node.shape.walked) {kind : ScopeKind}
    (hkind : c.node.shape.bodyKind? p = some kind) (h : Housed around es inside ahead) :
    Housed around ((walk p ++ [.closes]) ++ es) (⟨kind, c.part p⟩ :: inside)
      (below p ++ ahead) := by
  have hpart := hwalk p hp (.closes :: es) ahead
  rw [Cursor.bodyAt_of_some hkind] at hpart
  rw [List.append_assoc]
  exact hpart ⟨List.cons_ne_nil _ _, h⟩

theorem housed_function {form : FunctionForm} {name : Option Node} {params : List Node}
    {body : Node} (hc : c.node.shape = .function form name params body)
    (h : Housed around es inside ahead) :
    Housed around ((c.node.shape.stages.flatMap fun stage => stage.expand id walk) ++ es) inside
      ((c.node.shape.walked.flatMap fun p => c.bodyAt p ++ below p) ++ ahead) := by
  have hp : Part.one .body .scopeBody body ∈ c.node.shape.walked := by
    rw [hc]
    exact List.mem_singleton_self _
  have hkind : c.node.shape.bodyKind? (.one .body .scopeBody body) = some .function := by
    rw [hc]
    rfl
  have hbody := housed_body hwalk hp hkind h
  have hparams := housed_binds (housed_named hbody form name) false .argument
    "parameter identifier" params
  rw [hc, Shape.events_function, List.cons_append, List.append_assoc, List.append_assoc,
    Shape.walked, List.flatMap_singleton, Cursor.bodyAt_of_some hkind]
  exact ⟨_, _, rfl, rfl, hparams⟩

theorem housed_tryStatement {block : Node} {handler : Option (CatchClause Node)}
    {handlers : List (CatchClause Node)} {finalizer : Option Node}
    (hc : c.node.shape = .tryStatement block handler handlers finalizer)
    (h : Housed around es inside ahead) :
    Housed around ((c.node.shape.stages.flatMap fun stage => stage.expand id walk) ++ es) inside
      ((c.node.shape.walked.flatMap fun p => c.bodyAt p ++ below p) ++ ahead) := by
  let clauseBody (d : CatchClause Node × Nat) : Part Node :=
    ⟨.field .body :: (if handlers.isEmpty then [.field .handler]
      else [.item d.2, .field .handlers]), .scopeBody, d.1.body⟩
  have hfinalizer : Housed around
      ((Part.opt .finalizer .statement finalizer).flatMap walk ++ es) inside
        (((Part.opt .finalizer .statement finalizer).flatMap fun p => c.bodyAt p ++ below p) ++
          ahead) := by
    refine housed_flatMap ?_ h
    intro p hp es ahead h
    refine housed_part hwalk (hc ▸ List.mem_append_right _ hp) ?_ h
    obtain ⟨a, -, rfl⟩ := Part.mem_opt.1 hp
    rw [hc]
    rfl
  have hclause : ∀ d ∈ (Shape.clauses handler handlers).zipIdx, ∀ es ahead,
      Housed around es inside ahead →
        Housed around (Event.clause walk (if handlers.isEmpty then [.field .handler]
          else [.item d.2, .field .handlers]) d.1 ++ es) inside
            ((c.bodyAt (clauseBody d) ++ below (clauseBody d)) ++ ahead) := by
    intro d hd es ahead h
    have hkind : c.node.shape.bodyKind? (clauseBody d) = some .catchClause := by
      rw [hc]
      rfl
    have hbody := housed_body hwalk (hc ▸ Shape.mem_walked_of_clause hd) hkind h
    rw [Cursor.bodyAt_of_some hkind]
    exact ⟨_, _, rfl, rfl, hbody⟩
  have hblock : Part.one .block .statement block ∈ c.node.shape.walked := by
    rw [hc]
    exact List.mem_cons_self ..
  have hall := housed_part hwalk hblock (by rw [hc]; rfl) (housed_flatMap hclause hfinalizer)
  rw [hc, Shape.events_tryStatement, Shape.walked_tryStatement]
  simpa only [List.flatMap_append, List.flatMap_cons, List.flatMap_map, List.append_assoc,
    List.cons_append] using hall

theorem housed_variableDeclaration {declarations : List (Declarator Node)}
    {kind : DeclarationKind} (hc : c.node.shape = .variableDeclaration declarations kind)
    (h : Housed around es inside ahead) :
    Housed around ((c.node.shape.stages.flatMap fun stage => stage.expand id walk) ++ es) inside
      ((c.node.shape.walked.flatMap fun p => c.bodyAt p ++ below p) ++ ahead) := by
  have hnone (p : Part Node) : c.node.shape.bodyKind? p = none := by
    rw [hc]
    rfl
  rw [hc, Shape.events_variableDeclaration, Shape.walked_variableDeclaration, List.flatMap_assoc]
  simp only [List.flatMap_map]
  refine housed_flatMap ?_ h
  intro d hd es ahead h
  refine housed_flatMap ?_ h
  intro a ha es ahead h
  exact housed_part hwalk (hc ▸ Shape.mem_walked_of_init hd ha) (hnone _) h

/-- **The stages of a node go through the bodies of its parts, if the events of each part do so
inside the part where that is a body itself.** -/
theorem housed_stages (h : Housed around es inside ahead) :
    Housed around ((c.node.shape.stages.flatMap fun stage => stage.expand id walk) ++ es) inside
      ((c.node.shape.walked.flatMap fun p => c.bodyAt p ++ below p) ++ ahead) := by
  have hordinary (hstages : c.node.shape.stages = c.node.shape.walked.map .walks)
      (hkind : ∀ p, c.node.shape.bodyKind? p = none) :
      Housed around ((c.node.shape.stages.flatMap fun stage => stage.expand id walk) ++ es) inside
        ((c.node.shape.walked.flatMap fun p => c.bodyAt p ++ below p) ++ ahead) := by
    rw [hstages, List.flatMap_map]
    exact housed_flatMap (fun p hp _ _ h => housed_part hwalk hp (hkind p) h) h
  cases hc : c.node.shape with
  | function form name params body => exact hc ▸ housed_function hwalk hc h
  | tryStatement block handler handlers finalizer => exact hc ▸ housed_tryStatement hwalk hc h
  | variableDeclaration declarations kind => exact hc ▸ housed_variableDeclaration hwalk hc h
  | _ => exact hc ▸ hordinary (hc ▸ rfl) (fun _ => hc ▸ rfl)

end

/-- **The events of a node go through the bodies below it, and are housed where `around` gives
for each place that is reached the bodies on the way there.** -/
theorem housed_events (c : Cursor) (role : Option Category)
    (haround : ∀ d, c.Reaches d → around d = c.bodiesTo d ++ inside)
    (h : Housed around es inside ahead) :
    Housed around (c.events role ++ es) inside (c.bodies ++ ahead) := by
  obtain ⟨n, trail⟩ := c
  induction n using Node.walked_induction generalizing trail role inside es ahead with
  | step n ih =>
    have hself : around ⟨n, trail⟩ = inside := by
      rw [haround _ (.here _), Cursor.bodiesTo_self, List.nil_append]
    have hparts : ∀ p ∈ n.shape.walked, ∀ es ahead,
        Housed around es (Cursor.bodyAt ⟨n, trail⟩ p ++ inside) ahead →
          Housed around ((Cursor.part ⟨n, trail⟩ p).events (some p.role) ++ es)
            (Cursor.bodyAt ⟨n, trail⟩ p ++ inside) ((Cursor.part ⟨n, trail⟩ p).bodies ++ ahead) := by
      intro p hp es ahead h
      refine ih p hp (some p.role) h _ ?_
      intro d hd
      rw [← List.append_assoc, haround d (.inside hp hd), Cursor.bodiesTo_of_part hp hd]
      rfl
    rw [Cursor.events_eq, Cursor.bodies_eq, List.append_assoc]
    exact housed_visits hself (housed_stages hparts h) _

end ScopeWalk

end TreeWalk
