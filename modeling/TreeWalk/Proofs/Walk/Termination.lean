/-
Walks come to an end.

Through a frugal table no walk goes on forever, whatever the handlers do besides walking and
whoever watches.  A handler walks the node on under a key that it has left, of which there are
four at most, or it walks the parts, and below a node there are no more levels of parts than
its longest chain has.  `Arrival.rank` counts both, and it is the fuel that a walk needs:
`calls_walk`, by induction on the fuel.

Along with that goes an account of the calls of handlers.  They are among the visits of a walk
through the default table, in the same order, so no place has a call under a key that it has
not and none has two under the same key.
-/
import Mathlib.Data.List.Flatten
import Mathlib.Data.List.MinMax
import TreeWalk.Proofs.Walk.Ancestors
import TreeWalk.Proofs.Walk.Frugality
import TreeWalk.Proofs.Walk.Observation
import TreeWalk.Walk.Fuel

namespace TreeWalk

variable {ω σ α : Type}

/-! ### The longest chain of parts -/

/-- The number of nodes on the longest chain that leads from the node to parts and their parts. -/
def Node.walkedHeight (n : Node) : Nat :=
  n.fold fun _ s => 1 + (s.walked.map Part.child).foldr max 0

namespace Node

theorem walkedHeight_eq (n : Node) :
    n.walkedHeight = 1 + (n.shape.walked.map fun p => p.child.walkedHeight).foldr max 0 := by
  rw [walkedHeight, fold_eq, Shape.walked_map, List.map_map]
  rfl

theorem walkedHeight_pos (n : Node) : 0 < n.walkedHeight := by
  rw [walkedHeight_eq]
  omega

/-- A part has a shorter chain. -/
theorem walkedHeight_lt {n : Node} {p : Part Node} (hp : p ∈ n.shape.walked) :
    p.child.walkedHeight < n.walkedHeight := by
  have hle : p.child.walkedHeight ≤
      (n.shape.walked.map fun p => p.child.walkedHeight).foldr max 0 :=
    List.le_max_of_le' 0 (List.mem_map_of_mem hp) (Nat.le_refl _)
  rw [n.walkedHeight_eq]
  omega

/-- A node without parts is a chain by itself; else a part has all of the chain but the node. -/
theorem walkedHeight_cases (n : Node) :
    (n.shape.walked = [] ∧ n.walkedHeight = 1) ∨
      ∃ p ∈ n.shape.walked, n.walkedHeight = p.child.walkedHeight + 1 := by
  rw [walkedHeight_eq]
  induction n.shape.walked with
  | nil => exact .inl ⟨rfl, rfl⟩
  | cons p rest ih =>
    right
    rw [List.map_cons, List.foldr_cons]
    rcases ih with ⟨hrest, -⟩ | ⟨q, hq, hheight⟩
    · refine ⟨p, List.mem_cons_self, ?_⟩
      rw [hrest, List.map_nil, List.foldr_nil]
      omega
    · by_cases hle : p.child.walkedHeight ≤ q.child.walkedHeight
      · exact ⟨q, List.mem_cons_of_mem _ hq, by omega⟩
      · exact ⟨p, List.mem_cons_self, by omega⟩

end Node

namespace Cursor

/-- No chain of parts is longer. -/
theorem length_le_walkedHeight {path : List Cursor} (h : path.IsChain HasPart) {c : Cursor}
    (hc : path.head? = some c) : path.length ≤ c.node.walkedHeight := by
  induction path generalizing c with
  | nil => cases hc
  | cons d rest ih =>
    obtain rfl := Option.some.inj hc
    cases rest with
    | nil => exact d.node.walkedHeight_pos
    | cons e rest =>
      obtain ⟨⟨p, hp, rfl⟩, hrest⟩ := List.isChain_cons_cons.1 h
      have hle := ih hrest rfl
      have hlt : p.child.walkedHeight < d.node.walkedHeight := Node.walkedHeight_lt hp
      rw [List.length_cons]
      exact Nat.lt_of_le_of_lt hle hlt

/-- There is a chain of parts that long, and it leads to a node without parts. -/
theorem exists_longest (c : Cursor) :
    ∃ (path : List Cursor) (leaf : Cursor), path.head? = some c ∧ path.getLast? = some leaf ∧
      path.IsChain HasPart ∧ leaf.node.shape.walked = [] ∧
        path.length = c.node.walkedHeight := by
  obtain ⟨n, trail⟩ := c
  induction n using Node.walked_induction generalizing trail with
  | step n ih =>
    rcases n.walkedHeight_cases with ⟨hleaf, hheight⟩ | ⟨p, hp, hheight⟩
    · exact ⟨[⟨n, trail⟩], ⟨n, trail⟩, rfl, rfl, List.isChain_singleton _, hleaf, hheight.symm⟩
    · obtain ⟨path, leaf, hhead, hlast, hchain, hleaf, hlength⟩ := ih p hp (p.steps ++ trail)
      obtain ⟨rest, rfl⟩ := List.head?_eq_some_iff.1 hhead
      refine ⟨⟨n, trail⟩ :: ⟨p.child, p.steps ++ trail⟩ :: rest, leaf, rfl, ?_, ?_, hleaf, ?_⟩
      · rw [List.getLast?_cons_cons]
        exact hlast
      · exact List.isChain_cons_cons.2 ⟨⟨p, hp, rfl⟩, hchain⟩
      · rw [List.length_cons, hlength]
        exact hheight.symm

end Cursor

/-! ### The rank of an arrival -/

namespace Arrival

/-- How many walks may be open inside one another from here on: one for each key of the node, and
four for each level of parts below it. -/
def rank (a : Arrival) : Nat := 4 * (a.cursor.node.walkedHeight - 1) + a.keys.length

theorem rank_le (a : Arrival) : a.rank ≤ 4 * a.cursor.node.walkedHeight := by
  have hkeys : a.keys.length ≤ 4 := a.cursor.node.length_keysIn a.role
  have hpos := a.cursor.node.walkedHeight_pos
  unfold rank
  omega

theorem rank_pos (a : Arrival) : 0 < a.rank := by
  have hkeys : 0 < a.keys.length :=
    List.length_pos_iff.2 (a.cursor.node.keysIn_ne_nil a.role)
  unfold rank
  omega

/-- **What a node is walked on as ranks lower.** -/
theorem rank_lt_of_mem_next {a b : Arrival} (hb : b ∈ a.next) : b.rank < a.rank := by
  rcases a.next_cases with ⟨role, hnext, hkeys⟩ | ⟨hnext, -⟩
  · rw [hnext, List.mem_singleton] at hb
    subst hb
    -- the same place, with one key less
    have hlength : a.keys.length = (a.cursor.node.keysIn role).length + 1 := by rw [hkeys]; rfl
    show 4 * (a.cursor.node.walkedHeight - 1) + (a.cursor.node.keysIn role).length <
      4 * (a.cursor.node.walkedHeight - 1) + a.keys.length
    omega
  · rw [hnext] at hb
    obtain ⟨p, hp, rfl⟩ := mem_parts.1 hb
    -- a part may have four keys, but it has a level less below it
    have hlt : p.child.walkedHeight < a.cursor.node.walkedHeight := Node.walkedHeight_lt hp
    have hle : rank ⟨a.cursor.part p, some p.role⟩ ≤ 4 * p.child.walkedHeight := rank_le _
    have hkeys : 0 < a.keys.length :=
      List.length_pos_iff.2 (a.cursor.node.keysIn_ne_nil a.role)
    unfold rank at hle ⊢
    omega

end Arrival

/-! ### Calls among visits -/

/-- The visit that a call of a handler belongs to. -/
def Call.visit (call : Call σ) : Visit := ⟨call.key, call.cursor⟩

/-- The run comes to an end, and the calls that it takes down belong to some of the visits, in
their order. -/
def Run.Calls (vs : List Visit) (m : Memory (ω × List (Call σ)))
    (run : Run (ω × List (Call σ)) α) : Prop :=
  ∃ r m' calls, run = some (r, m') ∧ m'.world.2 = m.world.2 ++ calls ∧
    (calls.map Call.visit).Sublist vs

namespace Run.Calls

variable {vs : List Visit} {m : Memory (ω × List (Call σ))}

/-- A run that calls nothing. -/
theorem of_same (r : Except WalkError α) {m' : Memory (ω × List (Call σ))}
    (h : m'.world.2 = m.world.2) : Run.Calls vs m (some (r, m')) :=
  ⟨r, m', [], rfl, by rw [h, List.append_nil], List.nil_sublist vs⟩

end Run.Calls

/-- A script calls no more than the walks that it asks for do. -/
theorem Script.AsksFrom.calls {s : Script ω σ α} {as : List Arrival} (hs : s.AsksFrom as)
    {walk : Cursor → σ → Option Category → Memory (ω × List (Call σ)) →
      Run (ω × List (Call σ)) Unit}
    (hwalk : ∀ a ∈ as, ∀ st m, Run.Calls a.visits m (walk a.cursor st a.role m))
    (keys : List String) (m : Memory (ω × List (Call σ))) :
    Run.Calls (as.flatMap Arrival.visits) m (s.beside.exec walk keys m) := by
  induction s generalizing as m with
  | done r => exact .of_same r rfl
  | read next ih => exact ih m.world.1 (hs m.world.1) hwalk m
  | write w next ih => exact ih hs hwalk { m with world := (w, m.world.2) }
  | keys next ih => exact ih keys (hs keys) hwalk m
  | walk c st role next ih =>
    obtain ⟨rest, hrest, hnext⟩ := hs
    have hmem : (⟨c, role⟩ : Arrival) ∈ as := hrest.subset List.mem_cons_self
    obtain ⟨r, m₁, calls₁, hrun₁, hcalls₁, hsub₁⟩ := hwalk ⟨c, role⟩ hmem st m
    have hlater := fun a ha => hwalk a (hrest.subset (List.mem_cons_of_mem _ ha))
    obtain ⟨r', m₂, calls₂, hrun₂, hcalls₂, hsub₂⟩ := ih r (hnext r) hlater m₁
    refine ⟨r', m₂, calls₁ ++ calls₂, ?_, ?_, ?_⟩
    · rw [beside, exec, hrun₁]
      exact hrun₂
    · rw [hcalls₂, hcalls₁, List.append_assoc]
    · rw [List.map_append]
      exact (hsub₁.append hsub₂).trans (hrest.flatMap Arrival.visits)

/-- What is done around a dispatch calls no handler. -/
theorem Observer.calls_surround (o : Observer ω σ) (key : String) (c : Cursor) (st : σ)
    {vs : List Visit} {d : Memory (ω × List (Call σ)) → Run (ω × List (Call σ)) Unit}
    (hd : ∀ m, Run.Calls vs m (d m)) (m : Memory (ω × List (Call σ))) :
    Run.Calls vs m (o.beside.surround key c st d m) := by
  cases o with
  | silent => exact hd m
  | before visitors =>
    rw [beside, surround_before, tell, OrderedMap.get?_mapValues]
    cases visitors.get? key with
    | none => exact hd m
    | some visit => exact hd _
  | after visitors =>
    have hentered : (if (!m.onTop c) = true then m.push c else m).world = m.world := by
      split <;> rfl
    obtain ⟨r, m', calls, hrun, hcalls, hsub⟩ := hd (if (!m.onTop c) = true then m.push c else m)
    rw [hentered] at hcalls
    simp only [beside, surround, hrun, OrderedMap.get?_mapValues]
    refine ⟨r, _, calls, rfl, ?_, hsub⟩
    cases r with
    | error e => split <;> exact hcalls
    | ok u => cases visitors.get? key <;> split <;> exact hcalls
  | search test target =>
    have hdispatched : Run.Calls vs m (if target.covers c.node then d m else some (.ok (), m)) := by
      split
      · exact hd m
      · exact .of_same _ rfl
    obtain ⟨r, m', calls, hrun, hcalls, hsub⟩ := hdispatched
    rw [beside, surround, hrun]
    cases r with
    | error e => exact ⟨_, m', calls, rfl, hcalls, hsub⟩
    | ok u =>
      show Run.Calls vs m (if _ then _ else _)
      split
      · exact ⟨_, _, calls, rfl, hcalls, hsub⟩
      · exact ⟨_, m', calls, rfl, hcalls, hsub⟩

/-- A dispatch to a frugal table calls a handler for the first visit, and for some of those of what
the node is walked on as. -/
theorem Table.Frugal.calls_dispatch {t : Table ω σ} (ht : t.Frugal) (o : Observer ω σ)
    {walk : Cursor → σ → Option Category → Memory (ω × List (Call σ)) →
      Run (ω × List (Call σ)) Unit} {a : Arrival}
    (hwalk : ∀ b ∈ a.next, ∀ st m, Run.Calls b.visits m (walk b.cursor st b.role m)) (st : σ)
    (m : Memory (ω × List (Call σ))) :
    Run.Calls a.visits m
      (Walker.dispatch ⟨t.recorded, o.beside⟩ walk a.key a.cursor st m) := by
  have hrecorded : t.recorded.get? a.key = (t.get? a.key).map (Handler.recorded a.key) :=
    OrderedMap.get?_mapValues _ t a.key
  simp only [Walker.dispatch, hrecorded]
  cases hget : t.get? a.key with
  | none => exact .of_same _ rfl
  | some h =>
    obtain ⟨r, m', calls, hrun, hcalls, hsub⟩ := (ht a h hget st).calls hwalk t.recorded.keys
      { m with world := (m.world.1, m.world.2 ++ [⟨a.key, a.cursor, st⟩]) }
    refine ⟨r, m', ⟨a.key, a.cursor, st⟩ :: calls, hrun, ?_, ?_⟩
    · rw [hcalls, List.append_assoc]
      rfl
    · rw [Arrival.visits_eq_next]
      exact hsub.cons_cons _

/-- **A walk through a frugal table comes to an end**, and it calls handlers for some of the visits
of a walk through the default table, in their order. -/
theorem Table.Frugal.calls_walk {t : Table ω σ} (ht : t.Frugal) (o : Observer ω σ) {fuel : Nat}
    {a : Arrival} (hfuel : a.rank ≤ fuel) (st : σ) (m : Memory (ω × List (Call σ))) :
    Run.Calls a.visits m
      (Walker.walk ⟨t.recorded, o.beside⟩ fuel a.cursor st a.role m) := by
  induction fuel generalizing a st m with
  | zero =>
    have hpos := a.rank_pos
    omega
  | succ fuel ih =>
    rw [Walker.walk]
    split
    · exact .of_same _ rfl
    · -- what the node is walked on as ranks lower, and finds the fuel that is left
      refine o.calls_surround a.key a.cursor st (ht.calls_dispatch o ?_ st) m
      intro b hb
      have hrank := Arrival.rank_lt_of_mem_next hb
      exact fun st m => ih (by omega) st m

/-! ### Tables made from the default one and from that of scope walks -/

/-- The keys that handlers are called for a place under. -/
def Call.keysAt (calls : List (Call σ)) (c : Cursor) : List String :=
  (calls.filter fun call => call.cursor.trail == c.trail).map Call.key

/-- Where the calls belong to some of the visits of a walk, in their order, those for a place are
under keys that the place has in the role that the walk reaches it in, each at most once. -/
theorem Call.sublist_keysAt {calls : List (Call σ)} {a b : Arrival}
    (hcalls : (calls.map visit).Sublist a.visits) (hb : b ∈ a.onward) :
    (keysAt calls b.cursor).Sublist b.keys := by
  have hkeys : (calls.filter fun call => call.cursor.trail == b.cursor.trail).map key =
      ((calls.map visit).filter fun v => v.cursor.trail == b.cursor.trail).map Visit.key := by
    rw [List.filter_map, List.map_map]
    rfl
  have hown := (hcalls.filter fun v => v.cursor.trail == b.cursor.trail).map Visit.key
  rw [Arrival.filter_visits hb, Arrival.own, List.map_map] at hown
  rw [keysAt, hkeys]
  exact hown.trans (by rw [show Visit.key ∘ (⟨·, b.cursor⟩) = id from rfl, List.map_id])

/-- **Walks come to an end.**

Take a table made from the default one or from that of scope walks, layer on layer, with
overrides each of which walks nothing or calls the handler that it replaces, once and with the
same node and state.  A walk of a tree through it comes to an end, from whatever role it starts
in and whoever watches.  The walks that are open inside one another are never more than four times
the nodes on the longest path from the root to a node without parts, and more fuel makes no
difference.  Every dispatch finds a handler to call.  Handlers are called for places that the
default walk comes to, and for each of them under four keys at most, which all differ. -/
theorem Table.Modest.walk_ends {t : Table ω σ} (ht : t.Modest) (o : Observer ω σ) (tree : Node)
    (role : Option Category) (st : σ) (w : ω) :
    ∃ path leaf, tree.IsPath path leaf ∧ leaf.node.shape.walked = [] ∧
      (∀ other c, tree.IsPath other c → other.length ≤ path.length) ∧
      ∃ r m calls, (∀ spare,
        Walker.walk ⟨t, o⟩ (4 * path.length + spare) (.root tree) st role (.initial w) =
          some (r, m) ∧
        Walker.walk ⟨t.recorded, o.beside⟩ (4 * path.length + spare) (.root tree) st role
          (.initial (w, [])) = some (r, ⟨(m.world, calls), m.path, m.found⟩)) ∧
        (∀ c role, dispatchKey c role ∈ t.keys) ∧ (∀ call ∈ calls, tree.Walked call.cursor) ∧
        ∀ c, tree.Walked c → (Call.keysAt calls c).length ≤ 4 ∧ (Call.keysAt calls c).Nodup := by
  obtain ⟨path, leaf, hhead, hlast, hchain, hleaf, hlength⟩ := (Cursor.root tree).exists_longest
  have hlongest : ∀ other c, tree.IsPath other c → other.length ≤ path.length := by
    intro other c hother
    rw [hlength]
    exact Cursor.length_le_walkedHeight hother.steps hother.head
  refine ⟨path, leaf, ⟨hhead, hlast, hchain, Cursor.nodup_of_isChain hchain⟩, hleaf, hlongest, ?_⟩
  have hfuel : Arrival.rank ⟨.root tree, role⟩ ≤ 4 * path.length := by
    rw [hlength]
    exact Arrival.rank_le ⟨.root tree, role⟩
  obtain ⟨r, recorded, calls, hrecorded, hcalls, hsub⟩ :=
    ht.frugal.calls_walk o hfuel st (.initial (w, []))
  have hwalk := (simulates_recorded t o).walk (4 * path.length) (.root tree) st role
    (.initial (w, [])) (.initial w) ⟨rfl, rfl⟩
  rcases hwalk.cases with ⟨hnone, -⟩ | ⟨r', recorded', m, hsome, hplain, hworld, hkept⟩
  · rw [hnone] at hrecorded
    cases hrecorded
  · obtain ⟨rfl, rfl⟩ := Prod.mk.inj (Option.some.inj (hsome.symm.trans hrecorded))
    -- but for what it takes down, the recording walk keeps what the plain one does
    have hsame : recorded' = ⟨(m.world, calls), m.path, m.found⟩ := by
      obtain ⟨⟨v, taken⟩, p, found⟩ := recorded'
      obtain ⟨rfl, rfl⟩ := Prod.mk.inj hkept
      obtain rfl : v = m.world := hworld
      obtain rfl : taken = calls := hcalls
      rfl
    refine ⟨r', m, calls, ?_, ht.dispatchKey_mem, ?_, ?_⟩
    · intro spare
      refine ⟨Walker.walk_mono (Nat.le_add_right _ _) hplain, ?_⟩
      rw [← hsame]
      exact Walker.walk_mono (Nat.le_add_right _ _) hsome
    · intro call hcall
      exact (Cursor.reaches_of_mem_visits (hsub.subset (List.mem_map_of_mem hcall))).1
    · intro c hc
      obtain ⟨b, hb, rfl⟩ := Arrival.exists_mem_onward (a := ⟨.root tree, role⟩) hc
      have hkeys := Call.sublist_keysAt hsub hb
      exact ⟨hkeys.length_le.trans (b.cursor.node.length_keysIn b.role), b.nodup_keys.sublist hkeys⟩

namespace Walk

/-- An override under one key. -/
def overriding (key : String) (id : Nat) (p : Procedure Nat Unit) : Table Nat Unit :=
  .ofList [(key, ⟨id, p⟩)]

/-- The default table, where statements go through a handler that calls the old one and names are
counted. -/
def relayed : Table Nat Unit :=
  Table.layer (overriding "Identifier" 100 fun _ _ => Script.modify (· + 1))
    (Table.layer (overriding "Statement" 101 Default.ownType) (Default.table 0))

theorem of_get?_overriding {key name : String} {id : Nat} {p : Procedure Nat Unit}
    {h : Handler Nat Unit} (hget : (overriding name id p).get? key = some h) :
    key = name ∧ h = ⟨id, p⟩ := by
  rw [overriding, OrderedMap.ofList, List.foldl_cons, List.foldl_nil,
    OrderedMap.get?_insert] at hget
  split at hget
  · exact ⟨Eq.symm ‹_›, (Option.some.inj hget).symm⟩
  · cases hget

/-- The walk of `f(x)` through that table, started as that of the body of a scope. -/
theorem walk_ends_relayed :
    relayed.Modest ∧ ∃ m calls,
      Walker.walk ⟨relayed, .silent⟩ 8 (.root callOfF) () (some .scopeBody) (.initial 0) =
        some (.ok (), m) ∧
      Walker.walk ⟨relayed.recorded, .silent⟩ 8 (.root callOfF) () (some .scopeBody)
        (.initial (0, [])) = some (.ok (), ⟨(m.world, calls), m.path, m.found⟩) ∧
      m.world = 2 ∧
      Call.keysAt calls (.root callOfF) = ["ScopeBody", "Statement", "CallExpression"] := by
  have hmodest : relayed.Modest := by
    refine .layer (.layer (.default 0) ?_) ?_
    · intro key g h hg hh
      obtain ⟨rfl, rfl⟩ := of_get?_overriding hh
      exact .of_run_eq ((Default.redirects_table 0).statement.eq_of_get? hg).symm
    · intro key g h hg hh
      obtain ⟨rfl, rfl⟩ := of_get?_overriding hh
      refine .of_idle ?_ g
      intro c st w
      trivial
  obtain ⟨path, leaf, hpath, -, -, r, m, calls, hends, -⟩ :=
    hmodest.walk_ends .silent callOfF (some .scopeBody) () 0
  have hle : path.length ≤ 2 := Cursor.length_le_walkedHeight hpath.steps hpath.head
  obtain ⟨hwalk, hrecorded⟩ := hends (8 - 4 * path.length)
  rw [show 4 * path.length + (8 - 4 * path.length) = 8 by omega] at hwalk hrecorded
  have heval : (Walker.walk ⟨relayed.recorded, Observer.silent.beside⟩ 8 (.root callOfF) ()
      (some .scopeBody) (.initial (0, []))).map (fun (r, m) =>
        (r, m.world.1, Call.keysAt m.world.2 (.root callOfF))) =
      some (.ok (), 2, ["ScopeBody", "Statement", "CallExpression"]) := by decide
  rw [hrecorded] at heval
  obtain ⟨rfl, hrest⟩ := Prod.mk.inj (Option.some.inj heval)
  obtain ⟨hworld, hkeys⟩ := Prod.mk.inj hrest
  exact ⟨hmodest, m, calls, hwalk, hrecorded, hworld, hkeys⟩

end Walk

end TreeWalk
