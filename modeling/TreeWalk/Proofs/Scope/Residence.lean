/-
Which scope a visitor is told.

At each visit of a scope walk the current scope is the one that was opened for the innermost
body around, or the root scope where there is none.  `Lodged` says how things stand between
two events: the scopes of the bodies around were opened one inside the other, the outermost
in the root scope, and visitors, which may do much to scopes, cannot change that.  Each event
keeps it so, `exists_homes`.

Visitors that note what they are told, and the scopes as they found and left them, then have
noted for each visit the scope of its innermost body: the same for two visits just where
those have the same one.
-/
import TreeWalk.Proofs.Scope.Agreement
import TreeWalk.Proofs.Scope.Housing
import TreeWalk.Proofs.Scope.Lifetime
import TreeWalk.Proofs.Scope.Traversal

namespace TreeWalk

/-- What a visitor was told, and the scopes as it found and left them. -/
structure Note where
  visit : Visit
  scope : ScopeId
  found : ScopeStore
  left : ScopeStore

/-- Does what a visitor under the key does, and notes it. -/
def Visitor.logging {α : Type} (visit : String → Visitor (ScopeStore × α) ScopeId) (key : String) :
    Visitor (ScopeStore × α × List Note) ScopeId := fun c scope (s, a, notes) =>
  match visit key c scope (s, a) with
  | (t, a) => (t, a, notes ++ [⟨⟨key, c⟩, scope, s, t⟩])

namespace ScopeWalk

open Observer

variable {α : Type} {root : ScopeId} {s t u : ScopeStore} {opened : Trail → ScopeId}
  {inside : List Body}

/-- Visitors may do to scopes what forgets none and leaves each where it is, while the walk keeps
the root scope alive. -/
structure Tends (root : ScopeId) (visit : String → Visitor (ScopeStore × α) ScopeId) : Prop where
  keeps : ∀ key c scope (w : ScopeStore × α), w.1.Keeps (visit key c scope w).1
  alive : ∀ key c scope (w : ScopeStore × α), root < w.1.scopes.size → w.1.alive root = true →
    (visit key c scope w).1.alive root = true

/-! ### The scopes of bodies -/

/-- The scopes that were opened for bodies, inner ones first, and the root scope. -/
def homes (opened : Trail → ScopeId) (root : ScopeId) (inside : List Body) : List ScopeId :=
  inside.map (fun b => opened b.place.trail) ++ [root]

theorem homes_congr {f : Trail → ScopeId}
    (h : ∀ b ∈ inside, f b.place.trail = opened b.place.trail) :
    homes f root inside = homes opened root inside := by
  rw [homes, List.map_congr_left h, homes]

/-- **The scopes of the bodies inside of which things happen**, in a walk that began with the
scopes `s` at the root. -/
structure Lodged (s : ScopeStore) (root : ScopeId) (opened : Trail → ScopeId)
    (inside : List Body) (t : ScopeStore) : Prop where
  keeps : s.Keeps t
  alive : t.alive root = true
  /-- Inner ones are younger. -/
  younger : (homes opened root inside).Pairwise (· > ·)
  lt : ∀ i ∈ homes opened root inside, i < t.scopes.size
  /-- Each was opened in the next. -/
  chain : ∀ {i outer}, i :: outer <:+ homes opened root inside →
    (t.scope i).enclosing = outer ++ (s.scope root).enclosing
  /-- Each is of the kind of its body, and was not there at first. -/
  kind : ∀ b ∈ inside, (t.scope (opened b.place.trail)).kind = b.kind
  new : ∀ b ∈ inside, s.scopes.size ≤ opened b.place.trail

namespace Lodged

/-- At first there is the root scope only. -/
theorem start (hroot : root < s.scopes.size) (halive : s.alive root = true) :
    Lodged s root opened [] s where
  keeps := .refl s
  alive := halive
  younger := List.pairwise_singleton _ _
  lt i hi := by
    obtain rfl := List.mem_singleton.1 hi
    exact hroot
  chain {i outer} h := by
    rcases List.suffix_cons_iff.1 h with heq | hnil
    · obtain ⟨rfl, rfl⟩ := List.cons.inj heq
      rfl
    · exact absurd (List.suffix_nil.1 hnil) (List.cons_ne_nil _ _)
  kind _ hb := nomatch hb
  new _ hb := nomatch hb

theorem root_lt (h : Lodged s root opened inside t) : root < t.scopes.size :=
  h.lt root (List.mem_append_right _ (List.mem_singleton_self _))

/-- Scopes that are kept are still lodged so. -/
theorem trans (h : Lodged s root opened inside t) (htu : t.Keeps u) (halive : u.alive root = true) :
    Lodged s root opened inside u where
  keeps := h.keeps.trans htu
  alive := halive
  younger := h.younger
  lt i hi := Nat.lt_of_lt_of_le (h.lt i hi) htu.size
  chain {i outer} hi := by
    have hmem := hi.subset (List.mem_cons_self ..)
    rw [htu.enclosing i (h.lt i hmem), h.chain hi]
  kind b hb := by
    have hmem := List.mem_append_left [root] (List.mem_map_of_mem (f := fun b =>
      opened b.place.trail) hb)
    rw [htu.kind _ (h.lt _ hmem), h.kind b hb]
  new := h.new

theorem congr {f : Trail → ScopeId} (h : Lodged s root opened inside t)
    (hf : ∀ b ∈ inside, f b.place.trail = opened b.place.trail) : Lodged s root f inside t := by
  have hhomes : homes f root inside = homes opened root inside := homes_congr hf
  constructor
  · exact h.keeps
  · exact h.alive
  · rw [hhomes]
    exact h.younger
  · rw [hhomes]
    exact h.lt
  · rw [hhomes]
    exact h.chain
  · intro b hb
    rw [hf b hb]
    exact h.kind b hb
  · intro b hb
    rw [hf b hb]
    exact h.new b hb

/-- A scope is opened for the next body, in the innermost one that there is. -/
theorem push {b : Body} {scope : ScopeId} {outer : List ScopeId}
    (h : Lodged s root opened inside t) (hscope : homes opened root inside = scope :: outer)
    (hb : opened b.place.trail = t.scopes.size) :
    Lodged s root opened (b :: inside) (t.openChild scope b.kind).2 := by
  have hkeeps := t.keeps_openChild scope b.kind
  have hroot := h.root_lt
  have halive : (t.openChild scope b.kind).2.alive root = true := hkeeps.alive rfl hroot h.alive
  have hbefore := h.trans hkeeps halive
  have hnew : (t.openChild scope b.kind).2.scope t.scopes.size =
      ⟨b.kind, .empty, scope :: (t.scope scope).enclosing, []⟩ := by
    rw [ScopeStore.scope_openChild, if_pos rfl]
  have hhomes : homes opened root (b :: inside) = t.scopes.size :: homes opened root inside := by
    rw [← hb]
    rfl
  constructor
  · exact hbefore.keeps
  · exact halive
  · rw [hhomes, List.pairwise_cons]
    exact ⟨h.lt, h.younger⟩
  · rw [hhomes, ScopeStore.size_openChild]
    intro i hi
    rcases List.mem_cons.1 hi with rfl | hi
    · exact Nat.lt_succ_self _
    · exact Nat.lt_succ_of_lt (h.lt i hi)
  · rw [hhomes]
    intro i rest hi
    rcases List.suffix_cons_iff.1 hi with heq | hi
    · obtain ⟨rfl, rfl⟩ := List.cons.inj heq
      have hself : scope :: outer <:+ homes opened root inside :=
        hscope ▸ List.suffix_refl _
      rw [hnew, hscope, List.cons_append, ← h.chain hself]
    · exact hbefore.chain hi
  · intro c hc
    rcases List.mem_cons.1 hc with rfl | hc
    · rw [hb, hnew]
    · exact hbefore.kind c hc
  · intro c hc
    rcases List.mem_cons.1 hc with rfl | hc
    · rw [hb]
      exact h.keeps.size
    · exact h.new c hc

/-- The innermost scope is left. -/
theorem pop (h : Lodged s root opened inside t) : Lodged s root opened inside.tail t := by
  cases inside with
  | nil => exact h
  | cons b inside =>
    have hhomes : homes opened root inside <:+ homes opened root (b :: inside) :=
      List.suffix_cons _ _
    constructor
    · exact h.keeps
    · exact h.alive
    · exact h.younger.sublist hhomes.sublist
    · exact fun i hi => h.lt i (hhomes.subset hi)
    · exact fun hi => h.chain (hi.trans hhomes)
    · exact fun c hc => h.kind c (List.mem_cons_of_mem _ hc)
    · exact fun c hc => h.new c (List.mem_cons_of_mem _ hc)

/-- **Each body that something happens in adds one to the depth of the root scope.** -/
theorem depth {scope : ScopeId} {outer : List ScopeId} (h : Lodged s root opened inside t)
    (hscope : homes opened root inside = scope :: outer) :
    t.depth scope = t.depth root + inside.length := by
  cases inside with
  | nil =>
    obtain ⟨rfl, rfl⟩ := List.cons.inj hscope
    rfl
  | cons b inside =>
    obtain ⟨rfl, rfl⟩ := List.cons.inj hscope
    have hroot : (t.scope root).enclosing = (s.scope root).enclosing :=
      h.chain (List.suffix_append ((b :: inside).map fun b => opened b.place.trail) [root])
    have hinner : (t.scope (opened b.place.trail)).enclosing =
        homes opened root inside ++ (t.scope root).enclosing := by
      rw [hroot]
      exact h.chain (List.suffix_refl _)
    show (t.living (t.scope (opened b.place.trail)).enclosing).length = _
    rw [hinner, homes, List.append_assoc, List.singleton_append,
      ScopeStore.living_append h.alive, List.length_append, List.length_map, List.length_cons,
      List.length_cons, ScopeStore.depth]
    omega

end Lodged

/-! ### What is noted -/

variable {around : Cursor → List Body} {es : List Event} {notes : List Note} {ahead : List Body}

/-- The bodies were around where the visit was noted, or their scopes were opened after that. -/
def Known (around : Cursor → List Body) (opened : Trail → ScopeId) (m : Note)
    (bodies : List Body) : Prop :=
  ∀ b ∈ bodies, b ∈ around m.visit.cursor ∨ m.left.scopes.size ≤ opened b.place.trail

/-- What was noted: the innermost scope of the bodies around. -/
structure Fits (s : ScopeStore) (root : ScopeId) (opened : Trail → ScopeId)
    (around : Cursor → List Body) (n : Note) : Prop where
  scope : ∃ outer, homes opened root (around n.visit.cursor) = n.scope :: outer
  lodged : Lodged s root opened (around n.visit.cursor) n.found
  size : n.found.scopes.size ≤ n.left.scopes.size

/-- **The notes of events that are performed inside of bodies**, from the scopes `t` on. -/
structure Logged (s : ScopeStore) (root : ScopeId) (opened : Trail → ScopeId)
    (around : Cursor → List Body) (inside : List Body) (t : ScopeStore) (es : List Event)
    (notes : List Note) : Prop where
  visits : notes.map Note.visit = es.filterMap Event.visit?
  fits : ∀ n ∈ notes, Fits s root opened around n
  ordered : notes.Pairwise fun m n => Known around opened m (around n.visit.cursor)
  later : ∀ m : Note, m.left.scopes.size ≤ t.scopes.size → Known around opened m inside →
    ∀ n ∈ notes, Known around opened m (around n.visit.cursor)

namespace Logged

theorem nil : Logged s root opened around inside t [] [] where
  visits := rfl
  fits _ hn := nomatch hn
  ordered := .nil
  later _ _ _ _ hn := nomatch hn

/-- A visit is noted. -/
theorem visit {n : Note} (hn : Fits s root opened around n)
    (hinside : around n.visit.cursor = inside)
    (h : Logged s root opened around inside n.left es notes) :
    Logged s root opened around inside n.found (.visits n.visit :: es) (n :: notes) where
  visits := congrArg (n.visit :: ·) h.visits
  fits := List.forall_mem_cons.2 ⟨hn, h.fits⟩
  ordered := by
    refine List.pairwise_cons.2 ⟨?_, h.ordered⟩
    exact h.later n (Nat.le_refl _) fun b hb => .inl (hinside ▸ hb)
  later m hsize hm := by
    refine List.forall_mem_cons.2 ⟨hinside ▸ hm, ?_⟩
    exact h.later m (Nat.le_trans hsize hn.size) hm

/-- Any other event leaves no note. -/
theorem silent {e : Event} {inside' : List Body} (he : e.visit? = none)
    (h : Logged s root opened around inside' u es notes) (hsize : t.scopes.size ≤ u.scopes.size)
    (hinside : ∀ b ∈ inside', b ∈ inside ∨ t.scopes.size ≤ opened b.place.trail) :
    Logged s root opened around inside t (e :: es) notes where
  visits := by rw [h.visits, List.filterMap_cons, he]
  fits := h.fits
  ordered := h.ordered
  later m hm hknown := by
    refine h.later m (Nat.le_trans hm hsize) ?_
    intro b hb
    rcases hinside b hb with hb | hb
    · exact hknown b hb
    · exact .inr (Nat.le_trans hm hb)

end Logged

variable {visit : String → Visitor (ScopeStore × α) ScopeId}

/-- **Each visit among events is noted in the scope of the innermost body around.**  The scopes of
the bodies ahead are found on the way; those of the bodies inside of which the events happen
are given. -/
theorem exists_homes (htends : Tends root visit) (hes : ∀ e ∈ es, e.fault? = none)
    (hkeys : ∀ v ∈ es.filterMap Event.visit?, v.key ∈ StatsReport.keys)
    (hhoused : Housed around es inside ahead)
    (hahead : ahead.Pairwise fun a b => a.place.trail ≠ b.place.trail)
    (hapart : ∀ a ∈ inside, ∀ b ∈ ahead, b.place.trail ≠ a.place.trail)
    {p : Place (α × List Note)} (hscope : homes opened root inside = p.scope :: p.around)
    (hlodged : Lodged s root opened inside p.world.1) :
    ∃ opened' notes, (∀ l, (∀ b ∈ ahead, b.place.trail ≠ l) → opened' l = opened l) ∧
      (perform (Visitor.everywhere (Visitor.logging visit)) es p).2.world.2.2 =
        p.world.2.2 ++ notes ∧
      Logged s root opened' around inside p.world.1 es notes := by
  induction es generalizing inside ahead opened p with
  | nil => exact ⟨opened, [], fun _ _ => rfl, (List.append_nil _).symm, .nil⟩
  | cons e es ih =>
    have hes' := fun e he => hes e (List.mem_cons_of_mem _ he)
    cases e with
    | visits v =>
      obtain ⟨hinside, hhoused⟩ := hhoused
      let after := visit v.key v.cursor p.scope (p.world.1, p.world.2.1)
      let n : Note := ⟨v, p.scope, p.world.1, after.1⟩
      have hkept : p.world.1.Keeps after.1 :=
        htends.keeps v.key v.cursor p.scope (p.world.1, p.world.2.1)
      have hlodged' := hlodged.trans hkept (htends.alive _ _ _ _ hlodged.root_lt hlodged.alive)
      obtain ⟨opened', notes, hsame, hperform, hlogged⟩ := ih hes'
        (fun u hu => hkeys u (List.mem_cons_of_mem _ hu)) hhoused hahead hapart
        (p := ⟨p.scope, p.around, (after.1, after.2, p.world.2.2 ++ [n])⟩) hscope hlodged'
      have hinner : ∀ b ∈ inside, opened' b.place.trail = opened b.place.trail :=
        fun b hb => hsame _ (hapart b hb)
      have hfits : Fits s root opened' around n :=
        ⟨⟨p.around, by rw [hinside, homes_congr hinner, hscope]⟩,
          hinside ▸ hlodged.congr hinner, hkept.size⟩
      have htell : tell (Visitor.everywhere (Visitor.logging visit)) p.scope p.world v =
          (after.1, after.2, p.world.2.2 ++ [n]) := by
        rw [Observer.tell, Visitor.get?_everywhere _ (hkeys v (List.mem_cons_self ..))]
        rfl
      refine ⟨opened', n :: notes, hsame, ?_, hlogged.visit hfits hinside⟩
      rw [perform, step, htell]
      exact hperform.trans (List.append_assoc ..)
    | opens kind =>
      obtain ⟨b, rest, rfl, rfl, hhoused⟩ := hhoused
      obtain ⟨hb, hrest⟩ := List.pairwise_cons.1 hahead
      let store := p.world.1.openChild p.scope b.kind
      -- From here on the place of the body says which scope was opened for it.
      let f : Trail → ScopeId := Function.update opened b.place.trail p.world.1.scopes.size
      have hf {l : Trail} (hl : b.place.trail ≠ l) : f l = opened l :=
        Function.update_of_ne (Ne.symm hl) ..
      have hself : f b.place.trail = p.world.1.scopes.size := Function.update_self ..
      have hinner : ∀ a ∈ inside, f a.place.trail = opened a.place.trail :=
        fun a ha => hf (hapart a ha b (List.mem_cons_self ..))
      have hscope' : homes f root (b :: inside) = store.1 :: p.scope :: p.around := by
        rw [← hscope, ← homes_congr hinner]
        exact congrArg (· :: homes f root inside) hself
      have hlodged' : Lodged s root f (b :: inside) store.2 :=
        (hlodged.congr hinner).push (homes_congr hinner ▸ hscope) hself
      obtain ⟨opened', notes, hsame, hperform, hlogged⟩ := ih hes' hkeys hhoused hrest
        (by
          intro a ha c hc
          rcases List.mem_cons.1 ha with rfl | ha
          · exact (hb c hc).symm
          · exact hapart a ha c (List.mem_cons_of_mem _ hc))
        (p := ⟨store.1, p.scope :: p.around, (store.2, p.world.2)⟩) hscope' hlodged'
      refine ⟨opened', notes, ?_, hperform, hlogged.silent rfl ?_ ?_⟩
      · intro l hl
        rw [hsame l fun c hc => hl c (List.mem_cons_of_mem _ hc), hf (hl b (List.mem_cons_self ..))]
      · exact (p.world.1.keeps_openChild p.scope b.kind).size
      · intro c hc
        rcases List.mem_cons.1 hc with rfl | hc
        · exact .inr (Nat.le_of_eq (hself ▸ (hsame _ fun d hd => (hb d hd).symm).symm))
        · exact .inl hc
    | binds outside kind n role =>
      cases hn : n.name? with
      | none =>
        have hfault := hes _ (List.mem_cons_self ..)
        rw [Event.fault?, hn] at hfault
        cases hfault
      | some name =>
        let store := p.world.1.declare (if outside then p.around.headD p.scope else p.scope) name
          ⟨kind, n⟩
        have hkept : p.world.1.Keeps store := p.world.1.keeps_declare ..
        have hlodged' := hlodged.trans hkept (hkept.alive rfl hlodged.root_lt hlodged.alive)
        obtain ⟨opened', notes, hsame, hperform, hlogged⟩ := ih hes' hkeys hhoused hahead hapart
          (p := ⟨p.scope, p.around, (store, p.world.2)⟩) hscope hlodged'
        refine ⟨opened', notes, hsame, ?_, hlogged.silent rfl hkept.size fun b hb => .inl hb⟩
        rw [perform, step, hn]
        exact hperform
    | closes =>
      obtain ⟨hne, hhoused⟩ := hhoused
      cases inside with
      | nil => exact absurd rfl hne
      | cons b inside =>
        have haround : p.around = homes opened root inside := (List.cons.inj hscope).2.symm
        have hscope' : homes opened root inside = p.around.headD p.scope :: p.around.tail := by
          rw [haround]
          cases inside <;> rfl
        obtain ⟨opened', notes, hsame, hperform, hlogged⟩ := ih hes' hkeys hhoused hahead
          (fun a ha => hapart a (List.mem_cons_of_mem _ ha))
          (p := ⟨p.around.headD p.scope, p.around.tail, p.world⟩) hscope' hlodged.pop
        refine ⟨opened', notes, hsame, hperform, hlogged.silent rfl (Nat.le_refl _) ?_⟩
        exact fun c hc => .inl (List.mem_cons_of_mem _ hc)

/-! ### Scopes and bodies -/

namespace Fits

variable {m n : Note}

theorem scope_eq (h : Fits s root opened around n) :
    n.scope = (around n.visit.cursor).head?.elim root fun b => opened b.place.trail := by
  obtain ⟨outer, hscope⟩ := h.scope
  cases hinside : around n.visit.cursor <;> rw [hinside] at hscope <;>
    exact (List.cons.inj hscope).1.symm

/-- The scope was there when it was told. -/
theorem scope_lt (h : Fits s root opened around n) : n.scope < n.found.scopes.size := by
  obtain ⟨outer, hscope⟩ := h.scope
  exact h.lodged.lt n.scope (hscope ▸ List.mem_cons_self ..)

/-- The scope of a body inside of which something else is around is younger than that. -/
theorem opened_lt {b : Body} {outer : List Body} (h : Fits s root opened around n)
    (hinside : around n.visit.cursor = b :: outer) {i : ScopeId}
    (hi : i ∈ homes opened root outer) : i < opened b.place.trail := by
  have hyounger := h.lodged.younger
  rw [hinside] at hyounger
  exact (List.pairwise_cons.1 hyounger).1 i hi

/-- **Of two visits that are told the same scope, the innermost body of one is that of the
other.** -/
theorem head?_eq (hm : Fits s root opened around m) (hn : Fits s root opened around n)
    (hknown : Known around opened m (around n.visit.cursor)) (hscope : m.scope = n.scope) :
    (around m.visit.cursor).head? = (around n.visit.cursor).head? := by
  have hmscope := hm.scope_eq
  have hnscope := hn.scope_eq
  cases hninside : around n.visit.cursor with
  | nil =>
    cases hminside : around m.visit.cursor with
    | nil => rfl
    | cons b outer =>
      have hroot := hm.opened_lt hminside (List.mem_append_right _ (List.mem_singleton_self _))
      rw [hminside] at hmscope
      rw [hninside] at hnscope
      exact absurd (hnscope.symm.trans (hscope.symm.trans hmscope)) (Nat.ne_of_lt hroot)
  | cons b outer =>
    rw [hninside] at hknown hnscope
    rcases hknown b (List.mem_cons_self ..) with hb | hlater
    · cases hminside : around m.visit.cursor with
      | nil =>
        rw [hminside] at hb
        cases hb
      | cons c rest =>
        rw [hminside] at hb hmscope
        rcases List.mem_cons.1 hb with rfl | hb
        · rfl
        · have hlt := hm.opened_lt hminside (List.mem_append_left _ (List.mem_map_of_mem hb))
          exact absurd (hnscope.symm.trans (hscope.symm.trans hmscope)) (Nat.ne_of_lt hlt)
    · have hlt : m.scope < opened b.place.trail :=
        Nat.lt_of_lt_of_le hm.scope_lt (Nat.le_trans hm.size hlater)
      exact absurd (hscope.trans hnscope) (Nat.ne_of_lt hlt)

end Fits

/-- **Each visitor is told the scope that was opened for the innermost body around.** -/
structure Resides (tree : Node) (root : ScopeId) (s : ScopeStore) (opened : Trail → ScopeId)
    (notes : List Note) : Prop where
  /-- It is the root scope where no body is around. -/
  scope : ∀ n ∈ notes, n.scope =
    (tree.bodyAround n.visit.cursor).elim root fun b => opened b.place.trail
  /-- Each body that is around adds one to its depth. -/
  depth : ∀ n ∈ notes, n.found.depth n.scope =
    n.found.depth root + (tree.bodiesAround n.visit.cursor).length
  /-- Two visitors are told the same where the innermost bodies around are the same. -/
  same : ∀ m ∈ notes, ∀ n ∈ notes, m.scope = n.scope ↔
    tree.bodyAround m.visit.cursor = tree.bodyAround n.visit.cursor
  /-- The scope of a body is of its kind, and lies in those of the bodies around the body. -/
  placed : ∀ n ∈ notes, ∀ b outer, tree.bodiesAround n.visit.cursor = b :: outer →
    (n.found.scope n.scope).kind = b.kind ∧ (n.found.scope n.scope).enclosing =
      (outer.map fun c => opened c.place.trail) ++ root :: (s.scope root).enclosing
  /-- It is opened in the walk, when all visits before those in the body have been made: -/
  new : ∀ n ∈ notes, ∀ b ∈ tree.bodiesAround n.visit.cursor,
    s.scopes.size ≤ opened b.place.trail ∧ opened b.place.trail < n.found.scopes.size
  /-- it was not there when they were over. -/
  later : notes.Pairwise fun m n => ∀ b ∈ tree.bodiesAround n.visit.cursor,
    b ∈ tree.bodiesAround m.visit.cursor ∨ m.left.scopes.size ≤ opened b.place.trail

theorem Logged.resides {tree : Node}
    (h : Logged s root opened tree.bodiesAround inside t es notes) :
    Resides tree root s opened notes where
  scope n hn := (h.fits n hn).scope_eq
  depth n hn := by
    obtain ⟨outer, hscope⟩ := (h.fits n hn).scope
    exact (h.fits n hn).lodged.depth hscope
  same m hm n hn := by
    constructor
    · have hsymm : Std.Symm fun m n : Note => m.scope = n.scope →
          tree.bodyAround m.visit.cursor = tree.bodyAround n.visit.cursor :=
        ⟨fun _ _ hmn heq => (hmn heq.symm).symm⟩
      have hpairs : notes.Pairwise fun m n => m.scope = n.scope →
          tree.bodyAround m.visit.cursor = tree.bodyAround n.visit.cursor :=
        h.ordered.imp_of_mem fun hm hn hknown => (h.fits _ hm).head?_eq (h.fits _ hn) hknown
      exact hpairs.forall_of_forall (fun _ _ _ => rfl) hm hn
    · intro heq
      rw [(h.fits m hm).scope_eq, (h.fits n hn).scope_eq]
      exact congrArg (·.elim root fun b => opened b.place.trail) heq
  placed n hn b outer hinside := by
    have hlodged := (h.fits n hn).lodged
    have hscope := (h.fits n hn).scope_eq
    rw [hinside] at hlodged hscope
    have hchain := hlodged.chain (List.suffix_refl _)
    rw [hscope]
    refine ⟨hlodged.kind b (List.mem_cons_self ..), hchain.trans ?_⟩
    exact List.append_assoc ..
  new n hn b hb :=
    ⟨(h.fits n hn).lodged.new b hb, (h.fits n hn).lodged.lt _
      (List.mem_append_left _ (List.mem_map_of_mem hb))⟩
  later := h.ordered

/-- Events are performed up to the first that fails. -/
theorem exists_performed (visitors : OrderedMap (Visitor (ScopeStore × α) ScopeId))
    (es : List Event) (p : Place α) :
    ∃ before after, es = before ++ after ∧ (∀ e ∈ before, e.fault? = none) ∧
      (perform visitors es p).2 = (perform visitors before p).2 ∧
      ((perform visitors es p).1 = .ok () → after = []) := by
  rcases Event.fault?_cases es with hall | ⟨before, e, after, err, rfl, hbefore, he⟩
  · exact ⟨es, [], (List.append_nil es).symm, hall, rfl, fun _ => rfl⟩
  · refine ⟨before, e :: after, rfl, hbefore, ?_, ?_⟩
    · rw [perform_of_fault hbefore he]
    · rw [perform_of_fault hbefore he]
      exact nofun

/-- **A walk tells each visitor the scope of the innermost body around.**

Visitors under every key may do to scopes what they like, as long as no scope is forgotten or
comes to lie elsewhere, and the root scope stays alive.  A walk through the table of scope walks
tells them of the visits of the tree, or where it fails of the first of these.  With each it
tells the root scope where the place lies in no body of a function or of a catch clause that is
walked, and else the scope that was opened for the innermost such body.  That scope is of the
kind of its body and deeper than the root by the number of bodies that the place lies in, and
it is told with the visits that have that innermost body and with no others. -/
theorem simple_resides (tree : Node) {visit : String → Visitor (ScopeStore × α) ScopeId}
    (htends : Tends root visit) (hroot : root < s.scopes.size) (halive : s.alive root = true)
    (first spare : Nat) (a : α) :
    ∃ r after opened,
      Walk.simple (tree.walkFuel + spare) tree (Visitor.everywhere (Visitor.logging visit))
        (some (table first)) root (s, a, []) = some (r, after) ∧
      after.2.2.map Note.visit <+: (Cursor.root tree).visits none ∧
      (r = .ok () → after.2.2.map Note.visit = (Cursor.root tree).visits none) ∧
      Resides tree root s opened after.2.2 := by
  have hvisits := (Cursor.root tree).filterMap_visit?_events none
  have hhoused : Housed tree.bodiesAround ((Cursor.root tree).events none) []
      (Cursor.root tree).bodies := by
    have h := housed_events (.root tree) none (fun d _ => (List.append_nil _).symm)
      (show Housed tree.bodiesAround [] [] [] from trivial)
    rwa [List.append_nil, List.append_nil] at h
  obtain ⟨before, after, hes, hbefore, hperform, hall⟩ := exists_performed
    (Visitor.everywhere (Visitor.logging visit)) ((Cursor.root tree).events none)
    ⟨root, [], (s, a, [])⟩
  have hkeys : ∀ v ∈ before.filterMap Event.visit?, v.key ∈ StatsReport.keys := by
    intro v hv
    have hmem : v ∈ (Cursor.root tree).visits none := by
      rw [← hvisits, hes, List.filterMap_append]
      exact List.mem_append_left _ hv
    obtain ⟨-, role, hkey⟩ := Cursor.reaches_of_mem_visits hmem
    exact v.cursor.node.keysIn_subset role hkey
  rw [hes] at hhoused
  -- No body is around at first, so it does not matter what stands for the scopes of bodies.
  have hstart : Lodged s root (fun _ => root) [] s := .start hroot halive
  obtain ⟨opened, notes, -, hnotes, hlogged⟩ := exists_homes (p := ⟨root, [], (s, a, [])⟩)
    htends hbefore hkeys hhoused.of_prefix (Cursor.root tree).pairwise_bodies
    (fun _ ha => nomatch ha) rfl hstart
  have hafter : (perform (Visitor.everywhere (Visitor.logging visit))
      ((Cursor.root tree).events none) ⟨root, [], (s, a, [])⟩).2.world.2.2 = notes :=
    (congrArg (·.world.2.2) hperform).trans hnotes
  refine ⟨_, _, opened, simple_eq tree _ first spare root (s, a, []), ?_, ?_, ?_⟩
  · rw [hafter, hlogged.visits, ← hvisits, hes, List.filterMap_append]
    exact List.prefix_append _ _
  · intro hr
    rw [hafter, hlogged.visits, ← hvisits, hes, hall hr, List.append_nil]
  · rw [hafter]
    exact hlogged.resides

/-- Opens a scope in the one that it is told. -/
def burrow : Visitor (ScopeStore × Unit) ScopeId := fun _ scope (s, a) =>
  ((s.openChild scope .function).2, a)

theorem tends_burrow : Tends root fun _ => burrow where
  keeps _ _ scope w := w.1.keeps_openChild scope .function
  alive _ _ scope w hroot halive := (w.1.keeps_openChild scope .function).alive rfl hroot halive

/-- The function lies in the block of the `try` and the other in the clause, so the depth is one
more in the first, and two more in the second, than around the `try` and in its finalizer. -/
theorem simple_resides_rebinding :
    1 < surroundings.scopes.size ∧ surroundings.alive 1 = true ∧
    (∃ r after opened,
      Walk.simple (rebinding.walkFuel + 0) rebinding
        (Visitor.everywhere (Visitor.logging fun _ => burrow)) (some (table 0)) 1
        (surroundings, (), []) = some (r, after) ∧
      after.2.2.map Note.visit <+: (Cursor.root rebinding).visits none ∧
      Resides rebinding 1 surroundings opened after.2.2) ∧
    (Walk.simple (rebinding.walkFuel + 0) rebinding
        (Visitor.everywhere (Visitor.logging fun _ => burrow)) (some (table 0)) 1
        (surroundings, (), [])).map (fun (_, world) =>
          (world.2.2.filter fun n => n.visit.key = "BlockStatement").map fun n =>
            (n.scope, n.found.depth n.scope)) =
      some [(1, 1), (12, 2), (16, 2), (25, 3), (1, 1)] := by
  have hroot : 1 < surroundings.scopes.size := by decide
  have halive : surroundings.alive 1 = true := by decide
  obtain ⟨r, after, opened, hsimple, hvisits, -, hresides⟩ :=
    simple_resides rebinding tends_burrow hroot halive 0 0 ()
  refine ⟨hroot, halive, ⟨r, after, opened, hsimple, hvisits, hresides⟩, ?_⟩
  rw [simple_eq]
  decide

end ScopeWalk

end TreeWalk
