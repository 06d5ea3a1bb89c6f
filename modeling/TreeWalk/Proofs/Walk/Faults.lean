/-
Walks that fail.

Take entries out of the default table and let others fail for some nodes.  A walk through
what is left makes the dispatches of the default walk up to the first one that has no entry
or fails, and not one more, whichever that is: every handler stops at the failure of a child
and passes it on.

The turns of a walk say when it enters a dispatch and when it leaves it again, so that what
comes before a failure can be spoken of: `Nest.turnsAll`.  A walk with visitors on the way
down tells them of what it has entered by then, the failing dispatch included, and one with
visitors on the way up of what it has left: `fails_at_first_fault`.
-/
import TreeWalk.Proofs.Walk.Conduct

namespace TreeWalk

variable {ω σ : Type}

/-! ### Turns -/

/-- A walk enters a dispatch, or leaves it when all is done there, with the nodes of the calls that
are open then. -/
inductive Turn where
  | enter (visit : Visit)
  | leave (visit : Visit) (opened : List Cursor)

namespace Turn

/-- The dispatch that is entered. -/
def entered? : Turn → Option Visit
  | enter v => some v
  | leave _ _ => none

/-- The dispatch that is left, with the path to it. -/
def left? : Turn → Option (Visit × List Cursor)
  | enter _ => none
  | leave v opened => some (v, openPath opened)

end Turn

/-- The dispatches that are entered in some turns. -/
def entered (ts : List Turn) : List Visit := ts.filterMap Turn.entered?

/-- The dispatches that are left in some turns, with the paths to them. -/
def left (ts : List Turn) : List (Visit × List Cursor) := ts.filterMap Turn.left?

@[simp] theorem entered_append (ts us : List Turn) :
    entered (ts ++ us) = entered ts ++ entered us := List.filterMap_append

@[simp] theorem entered_enter (v : Visit) (ts : List Turn) :
    entered (.enter v :: ts) = v :: entered ts := rfl

@[simp] theorem entered_leave (v : Visit) (opened : List Cursor) (ts : List Turn) :
    entered (.leave v opened :: ts) = entered ts := rfl

@[simp] theorem left_append (ts us : List Turn) : left (ts ++ us) = left ts ++ left us :=
  List.filterMap_append

@[simp] theorem left_enter (v : Visit) (ts : List Turn) : left (.enter v :: ts) = left ts := rfl

@[simp] theorem left_leave (v : Visit) (opened : List Cursor) (ts : List Turn) :
    left (.leave v opened :: ts) = (v, openPath opened) :: left ts := rfl

namespace Nest

mutual
/-- The turns of a dispatch and of those inside it. -/
def turns (opened : List Cursor) : Nest → List Turn
  | mk v inside =>
    .enter v :: (turnsAll (v.cursor :: opened) inside ++ [.leave v (v.cursor :: opened)])
/-- The turns of one dispatch after another. -/
def turnsAll (opened : List Cursor) : List Nest → List Turn
  | [] => []
  | n :: ns => turns opened n ++ turnsAll opened ns
end

mutual
/-- Dispatches are entered with the outer ones first. -/
theorem entered_turns (opened : List Cursor) : ∀ n : Nest, entered (turns opened n) = preorder n
  | mk v inside => by
    rw [turns, preorder, entered_enter, entered_append, entered_turnsAll _ inside]
    exact congrArg (v :: ·) (List.append_nil _)
/-- The same for one dispatch after another. -/
theorem entered_turnsAll (opened : List Cursor) :
    ∀ ns : List Nest, entered (turnsAll opened ns) = preorderAll ns
  | [] => rfl
  | n :: ns => by
    rw [turnsAll, preorderAll, entered_append, entered_turns opened n, entered_turnsAll opened ns]
end

mutual
/-- Dispatches are left with the inner ones first. -/
theorem left_turns (opened : List Cursor) :
    ∀ n : Nest, (left (turns opened n)).map Prod.fst = postorder n
  | mk v inside => by
    rw [turns, postorder, left_enter, left_append, List.map_append, left_turnsAll _ inside]
    rfl
/-- The same for one dispatch after another. -/
theorem left_turnsAll (opened : List Cursor) :
    ∀ ns : List Nest, (left (turnsAll opened ns)).map Prod.fst = postorderAll ns
  | [] => rfl
  | n :: ns => by
    rw [turnsAll, postorderAll, left_append, List.map_append, left_turns opened n,
      left_turnsAll opened ns]
end

end Nest

/-! ### Taking turns up to the first failure -/

/-- Follows a conduct along turns, up to the first failure. -/
def takeTurns (b : Conduct ω) : List Turn → ω → Outcome × ω
  | [], w => (.ok (), w)
  | .enter v :: ts, w =>
    match b.ends v with
    | some (.error e) => (.error e, b.enter v w)
    | _ => takeTurns b ts (b.enter v w)
  | .leave v opened :: ts, w => takeTurns b ts (b.leave opened v w)

theorem takeTurns_append (b : Conduct ω) (ts us : List Turn) (w : ω) :
    takeTurns b (ts ++ us) w =
      match takeTurns b ts w with
      | (.ok (), w) => takeTurns b us w
      | (.error e, w) => (.error e, w) := by
  induction ts generalizing w with
  | nil => rfl
  | cons t ts ih =>
    cases t with
    | enter v =>
      rw [List.cons_append, takeTurns, takeTurns]
      rcases b.ends v with _ | _ | _
      · exact ih _
      · rfl
      · exact ih _
    | leave v opened => exact ih _

/-- A dispatch ends at once only if it fails. -/
def Conduct.Fails (b : Conduct ω) : Prop := ∀ v r, b.ends v = some r → ∃ e, r = .error e

namespace Nest

variable {b : Conduct ω}

mutual
/-- Where nothing ends at once but by a failure, a walk takes turns up to the first one. -/
theorem run_eq_takeTurns (hb : b.Fails) (opened : List Cursor) :
    ∀ (n : Nest) (w : ω), run b opened n w = takeTurns b (turns opened n) w
  | mk v inside, w => by
    rw [run, turns, takeTurns]
    cases hends : b.ends v with
    | some r =>
      obtain ⟨e, rfl⟩ := hb v r hends
      rfl
    | none =>
      simp only [takeTurns_append, runAll_eq_takeTurns hb _ inside]
      rcases takeTurns b (turnsAll (v.cursor :: opened) inside) (b.enter v w) with ⟨_ | _, w⟩
      · rfl
      · rfl
/-- The same for one dispatch after another. -/
theorem runAll_eq_takeTurns (hb : b.Fails) (opened : List Cursor) :
    ∀ (ns : List Nest) (w : ω), runAll b opened ns w = takeTurns b (turnsAll opened ns) w
  | [], w => rfl
  | n :: ns, w => by
    rw [runAll, turnsAll, takeTurns_append, run_eq_takeTurns hb opened n w]
    rcases takeTurns b (turns opened n) w with ⟨_ | _, w⟩
    · rfl
    · exact runAll_eq_takeTurns hb opened ns w
end

end Nest

/-- What is done in a turn. -/
def Conduct.turn (b : Conduct ω) (w : ω) : Turn → ω
  | .enter v => b.enter v w
  | .leave v opened => b.leave opened v w

/-- Turns that enter nothing that ends at once are all taken. -/
theorem takeTurns_of_none {b : Conduct ω} {ts : List Turn}
    (h : ∀ v ∈ entered ts, b.ends v = none) (us : List Turn) (w : ω) :
    takeTurns b (ts ++ us) w = takeTurns b us (ts.foldl b.turn w) := by
  induction ts generalizing w with
  | nil => rfl
  | cons t ts ih =>
    cases t with
    | enter v =>
      obtain ⟨hv, hts⟩ := List.forall_mem_cons.1 h
      rw [List.cons_append, takeTurns, hv]
      exact ih hts _
    | leave v opened => exact ih h _

/-- Some turn is the first to enter a dispatch that fails, if any is. -/
theorem exists_first_fault (fault? : Visit → Option WalkError) (ts : List Turn) :
    (∀ v ∈ entered ts, fault? v = none) ∨
      ∃ before v after e, ts = before ++ .enter v :: after ∧
        (∀ u ∈ entered before, fault? u = none) ∧ fault? v = some e := by
  induction ts with
  | nil => exact .inl (List.forall_mem_nil _)
  | cons t ts ih =>
    cases t with
    | enter v =>
      cases hv : fault? v with
      | some e => exact .inr ⟨[], v, ts, e, rfl, List.forall_mem_nil _, hv⟩
      | none =>
        rcases ih with hnone | ⟨before, u, after, e, rfl, hnone, he⟩
        · exact .inl (List.forall_mem_cons.2 ⟨hv, hnone⟩)
        · exact .inr ⟨.enter v :: before, u, after, e, rfl,
            List.forall_mem_cons.2 ⟨hv, hnone⟩, he⟩
    | leave v opened =>
      rcases ih with hnone | ⟨before, u, after, e, rfl, hnone, he⟩
      · exact .inl hnone
      · exact .inr ⟨.leave v opened :: before, u, after, e, rfl, hnone, he⟩

/-! ### Tables with faults -/

/-- A handler that fails for some nodes, by itself. -/
structure Fault where
  id : Nat
  error? : Cursor → Option WalkError

/-- Fails at once for some nodes, and otherwise does what the handler does. -/
def Handler.failing (f : Fault) (h : Handler ω σ) : Handler ω σ where
  id := f.id
  run c st :=
    match f.error? c with
    | some e => Script.fail e
    | none => h.run c st

/-- The default table with some entries missing and others failing for some nodes. -/
def Default.faulty (first : Nat) (kept : String → Bool) (faults : String → Option Fault) :
    Table ω σ :=
  ((table first).filterKeys kept).mapValues fun key h =>
    match faults key with
    | some f => h.failing f
    | none => h

/-- Why a dispatch fails at once, if it does. -/
def Visit.fault? (kept : String → Bool) (faults : String → Option Fault) (v : Visit) :
    Option WalkError :=
  if kept v.key then (faults v.key).bind fun f => f.error? v.cursor
  else some (.unknownType v.key)

/-- A dispatch in a table with faults fails at once, or does what the default table does. -/
theorem Default.notes_faulty (first : Nat) (kept : String → Bool) (faults : String → Option Fault)
    (st : σ) :
    (faulty first kept faults : Table ω σ).Notes st (fun _ w => w)
      fun v => (v.fault? kept faults).map .error := by
  intro key p hp c walk w
  obtain ⟨h, hget, rfl⟩ := Option.map_eq_some_iff.1 (runs_table first hp)
  by_cases hkept : kept key = true
  · have hentry : (faulty first kept faults).get? key = some (match faults key with
        | some f => h.failing f
        | none => h) := by
      rw [faulty, OrderedMap.get?_mapValues, OrderedMap.get?_filterKeys, if_pos hkept, hget]
      rfl
    have hfault : Visit.fault? kept faults ⟨key, c⟩ =
        (faults key).bind fun f => f.error? c := if_pos hkept
    simp only [Table.dispatchWorld, hentry, hfault]
    cases faults key with
    | none => rfl
    | some f =>
      simp only [Handler.failing, Option.bind_some]
      cases f.error? c <;> rfl
  · have hentry : (faulty first kept faults : Table ω σ).get? key = none := by
      rw [faulty, OrderedMap.get?_mapValues, OrderedMap.get?_filterKeys, if_neg hkept]
      rfl
    have hfault : Visit.fault? kept faults ⟨key, c⟩ = some (.unknownType key) := if_neg hkept
    simp only [Table.dispatchWorld, hentry, hfault, Option.map_some]

/-! ### Walks through a table with faults -/

/-- The turns of a walk of the whole tree. -/
def Node.turns (tree : Node) : List Turn := Nest.turnsAll [] ((Cursor.root tree).nests none)

/-- What a walk of a tree enters are the visits. -/
theorem Node.entered_turns (tree : Node) :
    entered tree.turns = (Cursor.root tree).visits none := by
  rw [turns, Nest.entered_turnsAll, Cursor.preorder_nests]

/-- What a walk of a tree leaves is under keys of the default table. -/
theorem Node.key_mem_of_mem_left {tree : Node} {p : Visit × List Cursor}
    (hp : p ∈ left tree.turns) : p.1.key ∈ StatsReport.keys := by
  have hpost : p.1 ∈ Nest.postorderAll ((Cursor.root tree).nests none) := by
    rw [← Nest.left_turnsAll []]
    exact List.mem_map_of_mem hp
  rw [← Cursor.postorder_nests _ []] at hpost
  exact Cursor.key_mem_of_mem_visits (((Cursor.root tree).perm_visits [] none).mem_iff.1 hpost)

namespace Walk

open Observer

/-- The conduct of a walk that does nothing of its own but fail. -/
def failing (o : Observer ω σ) (st : σ) (fault? : Visit → Option WalkError) : Conduct ω :=
  conduct o st (fun _ w => w) fun v => (fault? v).map .error

variable {fault? : Visit → Option WalkError}

theorem ends_failing_of_none (o : Observer ω σ) (st : σ) {v : Visit} (h : fault? v = none) :
    (failing o st fault?).ends v = none := congrArg (Option.map Except.error) h

theorem ends_failing_of_some (o : Observer ω σ) (st : σ) {v : Visit} {e : WalkError}
    (h : fault? v = some e) : (failing o st fault?).ends v = some (.error e) :=
  congrArg (Option.map Except.error) h

/-- What a walk with visitors on the way down does in some turns. -/
theorem foldl_turn_before (visitors : OrderedMap (Visitor ω σ)) (st : σ) (ts : List Turn) (w : ω) :
    ts.foldl (failing (.before visitors) st fault?).turn w =
      (entered ts).foldl (tell visitors st) w := by
  induction ts generalizing w with
  | nil => rfl
  | cons t ts ih => cases t <;> exact ih _

/-- What a walk with visitors on the way up does in some turns. -/
theorem foldl_turn_after (visitors : OrderedMap (PathVisitor ω σ)) (st : σ) (ts : List Turn)
    (w : ω) :
    ts.foldl (failing (.after visitors) st fault?).turn w =
      (left ts).foldl (fun w p => tellAfter visitors p.1.key p.1.cursor st p.2 (.ok ()) w) w := by
  induction ts generalizing w with
  | nil => rfl
  | cons t ts ih => cases t <;> exact ih _

section

variable {t : Table ω σ} {st : σ}

/-- Where every dispatch that ends at once fails, a walk of a tree takes its turns. -/
theorem run_eq_takeTurns (ht : t.Notes st (fun _ w => w) fun v => (fault? v).map .error)
    {o : Observer ω σ} (ho : o.Watches) (tree : Node) (spare : Nat) (w : ω) :
    (Walker.run ⟨t, o⟩ (tree.walkFuel + spare) tree st w).map (fun (r, w, _) => (r, w)) =
      some (takeTurns (failing o st fault?) tree.turns w) := by
  rw [run_eq_runAll ht ho]
  refine congrArg some (Nest.runAll_eq_takeTurns ?_ [] _ w)
  intro v r hr
  obtain ⟨e, -, rfl⟩ := Option.map_eq_some_iff.1 hr
  exact ⟨e, rfl⟩

/-- Where nothing fails, a walk of a tree takes all its turns. -/
theorem run_of_none (ht : t.Notes st (fun _ w => w) fun v => (fault? v).map .error)
    {o : Observer ω σ} (ho : o.Watches) {tree : Node}
    (hnone : ∀ v ∈ entered tree.turns, fault? v = none) (spare : Nat) (w : ω) :
    (Walker.run ⟨t, o⟩ (tree.walkFuel + spare) tree st w).map (fun (r, w, _) => (r, w)) =
      some (.ok (), tree.turns.foldl (failing o st fault?).turn w) := by
  have htaken := takeTurns_of_none (fun v hv => ends_failing_of_none o st (hnone v hv)) [] w
  rw [List.append_nil] at htaken
  rw [run_eq_takeTurns ht ho, htaken]
  rfl

/-- Where something fails, a walk of a tree takes its turns up to the first failure. -/
theorem run_of_first (ht : t.Notes st (fun _ w => w) fun v => (fault? v).map .error)
    {o : Observer ω σ} (ho : o.Watches) {tree : Node} {before after : List Turn} {v : Visit}
    {e : WalkError} (hturns : tree.turns = before ++ .enter v :: after)
    (hnone : ∀ u ∈ entered before, fault? u = none) (he : fault? v = some e) (spare : Nat)
    (w : ω) :
    (Walker.run ⟨t, o⟩ (tree.walkFuel + spare) tree st w).map (fun (r, w, _) => (r, w)) =
      some (.error e, (before ++ [Turn.enter v]).foldl (failing o st fault?).turn w) := by
  have htaken := takeTurns_of_none (fun u hu => ends_failing_of_none o st (hnone u hu))
    (.enter v :: after) w
  rw [run_eq_takeTurns ht ho, hturns, htaken, takeTurns, ends_failing_of_some o st he,
    List.foldl_append]
  rfl

end

/-- A walk with visitors on the way up through the default table tells them of the dispatches. -/
theorem ancestor_base (tree : Node) (visitUp : String → PathVisitor ω σ) (first spare : Nat)
    (st : σ) (w : ω) :
    (Walker.run ⟨Default.table first, .after (PathVisitor.everywhere visitUp)⟩
        (tree.walkFuel + spare) tree st w).map (fun (r, w, _) => (r, w)) =
      some (.ok (), tree.dispatches.foldl (fun w d => visitUp d.key d.cursor st d.path w) w) := by
  have hfuel : 4 * (Cursor.root tree).node.height ≤ tree.walkFuel + spare := Nat.le_add_right _ _
  rw [Walker.run, walk_after (Default.walksParts_table first) _ hfuel st tree.plays_none,
    ← toldAfter_everywhere]
  rfl

/-- Visitors under every key are told of all that is left. -/
theorem foldl_tellAfter_everywhere (visitUp : String → PathVisitor ω σ) (st : σ)
    {ps : List (Visit × List Cursor)} (hps : ∀ p ∈ ps, p.1.key ∈ StatsReport.keys) (w : ω) :
    ps.foldl (fun w p =>
        tellAfter (PathVisitor.everywhere visitUp) p.1.key p.1.cursor st p.2 (.ok ()) w) w =
      ps.foldl (fun w p => visitUp p.1.key p.1.cursor st p.2 w) w := by
  refine List.foldl_ext _ _ _ ?_
  intro w p hp
  have hkey : (PathVisitor.everywhere visitUp).get? p.1.key = some (visitUp p.1.key) :=
    OrderedMap.get?_keys visitUp (hps p hp)
  simp only [tellAfter, hkey]

end Walk

/-- **What a walk of a tree leaves are its dispatches, each with the path to it.** -/
theorem Node.left_turns (tree : Node) :
    left tree.turns = tree.dispatches.map fun d => (d.visit, d.path) := by
  -- Both are what visitors on the way up are told, so visitors that take it down tell.
  let noted : String → PathVisitor (List (Visit × List Cursor)) Unit :=
    fun key c _ path w => w ++ [(⟨key, c⟩, path)]
  have hfold {β : Type} (f : β → Visit × List Cursor) (bs : List β) :
      ∀ w, bs.foldl (fun w b => w ++ [f b]) w = w ++ bs.map f := by
    induction bs with
    | nil => exact fun w => (List.append_nil w).symm
    | cons b bs ih =>
      intro w
      rw [List.foldl_cons, ih, List.append_assoc, List.map_cons, List.singleton_append]
  have hnotes : (Default.table 0 : Table (List (Visit × List Cursor)) Unit).Notes ()
      (fun _ w => w) fun v => ((fun _ => none : Visit → Option WalkError) v).map .error := by
    intro key p hp c walk w
    obtain ⟨h, hget, rfl⟩ := Option.map_eq_some_iff.1 (Default.runs_table 0 hp)
    rw [Table.dispatchWorld, hget]
    rfl
  have hturns := Walk.run_of_none hnotes (o := .after (PathVisitor.everywhere noted)) trivial
    (fun v (_ : v ∈ entered tree.turns) => rfl) 0 []
  rw [Walk.ancestor_base, Walk.foldl_turn_after,
    Walk.foldl_tellAfter_everywhere noted () fun p hp => key_mem_of_mem_left hp] at hturns
  have heq : tree.dispatches.foldl (fun w d => w ++ [(d.visit, d.path)]) [] =
      (left tree.turns).foldl (fun w p => w ++ [p]) [] :=
    (Prod.mk.inj (Option.some.inj hturns)).2
  rw [hfold fun d : Dispatch => (d.visit, d.path), hfold fun p => p, List.map_id'] at heq
  exact heq.symm

namespace Walk

/-- **A walk stops at the first dispatch that fails.**

Take the default table without some of its entries, and with others replaced by handlers that fail
at once for some nodes and otherwise do what the entry does.  The turns of a walk through the full
table enter the visits in their order and leave the dispatches in theirs.  Either none of the
visits fails, and both kinds of walk end well and tell their visitors everything; or there is a
first turn that enters a visit that fails.  Then both walks end with just that failure.  Visitors
on the way down have been told of what was entered by then and of that visit, and visitors on the
way up of what was left by then. -/
theorem fails_at_first_fault (tree : Node) (first : Nat) (kept : String → Bool)
    (faults : String → Option Fault) (visit : String → Visitor ω σ)
    (visitUp : String → PathVisitor ω σ) (spare : Nat) (st : σ) (world : ω) :
    entered tree.turns = (Cursor.root tree).visits none ∧
      left tree.turns = tree.dispatches.map (fun d => (d.visit, d.path)) ∧
      (((∀ v ∈ (Cursor.root tree).visits none, v.fault? kept faults = none) ∧
          simple (tree.walkFuel + spare) tree (Visitor.everywhere visit)
              (some (Default.faulty first kept faults)) st world =
            some (.ok (), ((Cursor.root tree).visits none).foldl
              (fun w v => visit v.key v.cursor st w) world) ∧
          ancestor (tree.walkFuel + spare) tree (PathVisitor.everywhere visitUp)
              (some (Default.faulty first kept faults)) st world =
            some (.ok (), tree.dispatches.foldl
              (fun w d => visitUp d.key d.cursor st d.path w) world)) ∨
        ∃ before v after e, tree.turns = before ++ .enter v :: after ∧
          (∀ u ∈ entered before, u.fault? kept faults = none) ∧
          v.fault? kept faults = some e ∧
          simple (tree.walkFuel + spare) tree (Visitor.everywhere visit)
              (some (Default.faulty first kept faults)) st world =
            some (.error e, (entered before ++ [v]).foldl
              (fun w v => visit v.key v.cursor st w) world) ∧
          ancestor (tree.walkFuel + spare) tree (PathVisitor.everywhere visitUp)
              (some (Default.faulty first kept faults)) st world =
            some (.error e, (left before).foldl
              (fun w p => visitUp p.1.key p.1.cursor st p.2 w) world)) := by
  have hnotes := Default.notes_faulty (ω := ω) first kept faults st
  have hvisits := tree.entered_turns
  have hleft := tree.left_turns
  refine ⟨hvisits, hleft, ?_⟩
  rcases exists_first_fault (Visit.fault? kept faults) tree.turns with
    hnone | ⟨before, v, after, e, hturns, hnone, he⟩
  · refine .inl ⟨hvisits ▸ hnone, ?_, ?_⟩
    · rw [simple, baseTable, Option.getD_some, run_of_none hnotes (o := .before _) trivial hnone,
        foldl_turn_before, hvisits, Observer.foldl_tell_everywhere]
    · rw [ancestor, baseTable, Option.getD_some, run_of_none hnotes (o := .after _) trivial hnone,
        foldl_turn_after, foldl_tellAfter_everywhere visitUp st fun p hp =>
          Node.key_mem_of_mem_left hp, hleft, List.foldl_map]
      rfl
  · have hentered : entered (before ++ [.enter v]) = entered before ++ [v] := entered_append ..
    have hleftBefore : left (before ++ [.enter v]) = left before := by
      rw [left_append]
      exact List.append_nil _
    refine .inr ⟨before, v, after, e, hturns, hnone, he, ?_, ?_⟩
    · have hkeys : ∀ u ∈ entered before ++ [v], u.key ∈ StatsReport.keys := by
        intro u hu
        have hmem : u ∈ entered tree.turns := by
          rw [hturns, List.append_cons, entered_append, hentered]
          exact List.mem_append_left _ hu
        exact Cursor.key_mem_of_mem_visits (hvisits ▸ hmem)
      rw [simple, baseTable, Option.getD_some,
        run_of_first hnotes (o := .before _) trivial hturns hnone he, foldl_turn_before, hentered,
        Observer.foldl_tell_of_mem visit st hkeys]
    · have hkeys : ∀ p ∈ left before, p.1.key ∈ StatsReport.keys := by
        intro p hp
        have hmem : p ∈ left tree.turns := by
          rw [hturns, left_append]
          exact List.mem_append_left _ hp
        exact Node.key_mem_of_mem_left hmem
      rw [ancestor, baseTable, Option.getD_some,
        run_of_first hnotes (o := .after _) trivial hturns hnone he, foldl_turn_after, hleftBefore,
        foldl_tellAfter_everywhere visitUp st hkeys]

end Walk

end TreeWalk
