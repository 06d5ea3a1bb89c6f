/-
What programs do with scopes, and what scopes are after it.

A program opens scopes, declares names in them, takes hold of scopes that it can reach and
lets go of scopes that it holds.  It works on scopes that are alive only.  `History` says
that a store is what a program has made of an empty one, by a list of operations.

What a scope is can be read off such a list: which scopes were opened in it, and what was
declared in it, in order.  `Records` says that the store agrees with the list.  Every
operation keeps that, `Records.perform`, and all else follows: what is alive, which way
scopes lead to their parents, how deep they are, and what a name stands for in them.
-/
import Mathlib.Data.Set.Card
import Mathlib.Logic.Relation
import TreeWalk.Proofs.Scope.Frame
import TreeWalk.Proofs.Scope.Lifetime
import TreeWalk.Syntax.Build

namespace TreeWalk

namespace ScopeStore

/-! ### Operations -/

/-- One thing that a program does with scopes. -/
inductive Operation where
  /-- Opens an outermost scope and takes hold of it. -/
  | openGlobal
  /-- Opens a scope in another and takes hold of it. -/
  | openChild (parent : ScopeId) (kind : ScopeKind)
  /-- Binds a name in a scope. -/
  | declare (scope : ScopeId) (name : String) (b : Binding)
  /-- Takes hold of a scope once more. -/
  | take (scope : ScopeId)
  /-- Takes hold of all scopes opened in a scope. -/
  | takeChildren (scope : ScopeId)
  /-- Takes hold of the scope around a scope, where that is alive. -/
  | takeParent (scope : ScopeId)
  /-- Lets go of a scope once. -/
  | drop (scope : ScopeId)

/-- What an operation makes of a store. -/
def perform (s : ScopeStore) : Operation → ScopeStore
  | .openGlobal => s.openGlobal.2.hold s.openGlobal.1
  | .openChild p kind => (s.openChild p kind).2.hold (s.openChild p kind).1
  | .declare i name b => s.declare i name b
  | .take i => s.hold i
  | .takeChildren i => (s.children i).foldl hold s
  | .takeParent i => (s.parent? i).elim s s.hold
  | .drop i => s.release i

/-- A program works on scopes that are alive, and lets go of scopes that it holds. -/
def Allows (s : ScopeStore) : Operation → Prop
  | .openGlobal => True
  | .openChild i _ | .declare i _ _ | .take i | .takeChildren i | .takeParent i =>
    s.alive i = true
  | .drop i => i ∈ s.held

instance (s : ScopeStore) : (op : Operation) → Decidable (s.Allows op)
  | .openGlobal => inferInstanceAs (Decidable True)
  | .openChild i _ | .declare i _ _ | .take i | .takeChildren i | .takeParent i =>
    inferInstanceAs (Decidable (s.alive i = true))
  | .drop i => inferInstanceAs (Decidable (i ∈ s.held))

/-- The store is what the operations, one after another, have made of the store without scopes. -/
inductive History : List Operation → ScopeStore → Prop where
  | start : History [] .empty
  | step {ops : List Operation} {s : ScopeStore} {op : Operation} (h : History ops s)
    (hop : s.Allows op) : History (ops ++ [op]) (s.perform op)

/-- A program may do all of these, one after another. -/
def Permits (s : ScopeStore) : List Operation → Prop
  | [] => True
  | op :: ops => s.Allows op ∧ (s.perform op).Permits ops

instance decidablePermits (s : ScopeStore) : (ops : List Operation) → Decidable (s.Permits ops)
  | [] => inferInstanceAs (Decidable True)
  | op :: ops =>
    have := decidablePermits (s.perform op) ops
    inferInstanceAs (Decidable (_ ∧ _))

/-- What may be done goes on a history. -/
theorem History.append {ops : List Operation} {s : ScopeStore} (h : History ops s)
    {more : List Operation} (hmore : s.Permits more) :
    History (ops ++ more) (more.foldl perform s) := by
  induction more generalizing ops s with
  | nil => rwa [List.append_nil]
  | cons op more ih =>
    have hall := ih (h.step hmore.1) hmore.2
    rwa [List.append_assoc] at hall

/-! ### What the operations say -/

/-- The scope that an operation opens one in, if it opens any. -/
def Operation.opens? : Operation → Option (Option ScopeId)
  | openGlobal => some none
  | openChild p _ => some (some p)
  | _ => none

/-- What the scopes were opened in, in the order in which they were opened; the scope of a number
is the one that stands there. -/
def openings (ops : List Operation) : List (Option ScopeId) := ops.filterMap Operation.opens?

/-- The scopes that were opened in a scope, in the order in which they were opened. -/
def openedIn (ops : List Operation) (p : ScopeId) : List ScopeId :=
  (List.range (openings ops).length).filter fun c => (openings ops)[c]? = some (some p)

/-- The name that an operation declares in a scope, if it does. -/
def Operation.declares? (i : ScopeId) : Operation → Option (String × Binding)
  | declare j name b => if j = i then some (name, b) else none
  | _ => none

/-- What was declared in a scope, in order. -/
def declaredIn (ops : List Operation) (i : ScopeId) : List (String × Binding) :=
  ops.filterMap (Operation.declares? i)

variable {ops : List Operation} {s : ScopeStore} {c i p : ScopeId}

theorem mem_openedIn : c ∈ openedIn ops p ↔ (openings ops)[c]? = some (some p) := by
  simp only [openedIn, List.mem_filter, List.mem_range, decide_eq_true_eq, and_iff_right_iff_imp]
  intro h
  exact (List.getElem?_eq_some_iff.1 h).1

theorem pairwise_openedIn : (openedIn ops p).Pairwise (· < ·) :=
  List.pairwise_lt_range.filter _

/-- Operations that open nothing leave the openings as they are. -/
theorem openings_append_of_none {op : Operation} (h : op.opens? = none) :
    openings (ops ++ [op]) = openings ops := by
  simp [openings, List.filterMap_append, h]

theorem openings_append_of_some {op : Operation} {around : Option ScopeId}
    (h : op.opens? = some around) : openings (ops ++ [op]) = openings ops ++ [around] := by
  simp [openings, List.filterMap_append, h]

theorem openedIn_append_of_none {op : Operation} (h : op.opens? = none) (p : ScopeId) :
    openedIn (ops ++ [op]) p = openedIn ops p := by
  rw [openedIn, openedIn, openings_append_of_none h]

/-- A scope that is opened comes after those that were. -/
theorem openedIn_append_of_some {op : Operation} {around : Option ScopeId}
    (h : op.opens? = some around) (p : ScopeId) :
    openedIn (ops ++ [op]) p =
      openedIn ops p ++ if around = some p then [(openings ops).length] else [] := by
  have hold : (List.range (openings ops).length).filter
      (fun c => (openings ops ++ [around])[c]? = some (some p)) = openedIn ops p := by
    refine List.filter_congr fun c hc => ?_
    rw [List.getElem?_append_left (List.mem_range.1 hc)]
  rw [openedIn, openings_append_of_some h, List.length_append, List.length_singleton,
    List.range_succ, List.filter_append, hold]
  refine congrArg _ ?_
  by_cases hp : around = some p <;> simp [hp]

theorem declaredIn_append (op : Operation) (i : ScopeId) :
    declaredIn (ops ++ [op]) i = declaredIn ops i ++ (op.declares? i).toList := by
  cases h : op.declares? i <;> simp [declaredIn, List.filterMap_append, h]

/-! ### The store agrees with the operations -/

/-- **The store is what the operations say.** -/
structure Records (ops : List Operation) (s : ScopeStore) : Prop where
  size : s.scopes.size = (openings ops).length
  held : ∀ i ∈ s.held, i < s.scopes.size
  outermost : ∀ {c}, (openings ops)[c]? = some none → (s.scope c).enclosing = []
  /-- A scope is opened after the one around it, and knows all that lie around that. -/
  inner : ∀ {c p}, (openings ops)[c]? = some (some p) →
    p < c ∧ (s.scope c).enclosing = p :: (s.scope p).enclosing
  children : ∀ p, s.children p = openedIn ops p
  bindings : ∀ i, (s.scope i).bindings = .ofList (declaredIn ops i)

/-- Taking hold of scopes one after another. -/
theorem foldl_hold (s : ScopeStore) (ids : List ScopeId) :
    ids.foldl hold s = { s with held := ids.reverse ++ s.held } := by
  induction ids generalizing s with
  | nil => rfl
  | cons i ids ih => rw [List.foldl_cons, ih, hold, List.reverse_cons, List.append_assoc]; rfl

namespace Records

theorem empty : Records [] .empty where
  size := rfl
  held _ hi := nomatch hi
  outermost _ := rfl
  inner hc := nomatch hc
  children _ := rfl
  bindings _ := rfl

theorem lt_of_alive (h : Records ops s) (hi : s.alive i = true) : i < s.scopes.size := by
  by_contra hle
  have hnone : s.scope i = default := scope_of_size_le (Nat.not_lt.1 hle)
  obtain ⟨e, he, hheld⟩ := alive_iff.1 hi
  rw [hnone] at he
  obtain rfl : e = i := List.mem_singleton.1 he
  exact hle (h.held _ hheld)

/-- An operation that changes what is held, and nothing else. -/
theorem of_scopes_eq (h : Records ops s) {op : Operation} {t : ScopeStore}
    (hopens : op.opens? = none) (hdeclares : ∀ i, op.declares? i = none)
    (hscopes : t.scopes = s.scopes) (hheld : ∀ i ∈ t.held, i < s.scopes.size) :
    Records (ops ++ [op]) t := by
  have hscope (i : ScopeId) : t.scope i = s.scope i := by rw [scope, hscopes, scope]
  have hdeclared (i : ScopeId) : declaredIn (ops ++ [op]) i = declaredIn ops i := by
    rw [declaredIn_append, hdeclares, Option.toList_none, List.append_nil]
  constructor
  · rw [hscopes, openings_append_of_none hopens, h.size]
  · rwa [hscopes]
  · intro c hc
    rw [openings_append_of_none hopens] at hc
    rw [hscope, h.outermost hc]
  · intro c p hc
    rw [openings_append_of_none hopens] at hc
    rw [hscope, hscope]
    exact h.inner hc
  · intro p
    show (t.scope p).children = _
    rw [hscope, openedIn_append_of_none hopens]
    exact h.children p
  · intro i
    rw [hscope, hdeclared]
    exact h.bindings i

/-- An operation that opens a scope, outermost or in one that there is, and takes hold of it. -/
theorem of_opened (h : Records ops s) {op : Operation} {t : ScopeStore} (kind : ScopeKind)
    (around : Option ScopeId) (hopens : op.opens? = some around)
    (hdeclares : ∀ i, op.declares? i = none) (haround : ∀ p ∈ around, p < s.scopes.size)
    (hsize : t.scopes.size = s.scopes.size + 1) (hheld : t.held = s.scopes.size :: s.held)
    (hnew : t.scope s.scopes.size =
      ⟨kind, .empty, around.elim [] fun p => p :: (s.scope p).enclosing, []⟩)
    (hold : ∀ i ≠ s.scopes.size, t.scope i = { s.scope i with
      children := (s.scope i).children ++ if around = some i then [s.scopes.size] else [] }) :
    Records (ops ++ [op]) t := by
  have hlast : (openings (ops ++ [op]))[s.scopes.size]? = some around := by
    rw [openings_append_of_some hopens, h.size]
    simp
  have hbefore {c : ScopeId} {o : Option ScopeId} (hc : (openings (ops ++ [op]))[c]? = some o)
      (hne : c ≠ s.scopes.size) : (openings ops)[c]? = some o ∧ c < s.scopes.size := by
    have hlt := (List.getElem?_eq_some_iff.1 hc).1
    rw [openings_append_of_some hopens, List.length_append, List.length_singleton, ← h.size] at hlt
    have hlt : c < s.scopes.size := Nat.lt_of_le_of_ne (Nat.le_of_lt_succ hlt) hne
    rw [openings_append_of_some hopens, List.getElem?_append_left (h.size ▸ hlt)] at hc
    exact ⟨hc, hlt⟩
  have henclosing {i : ScopeId} (hi : i < s.scopes.size) :
      (t.scope i).enclosing = (s.scope i).enclosing := by
    rw [hold i (Nat.ne_of_lt hi)]
  constructor
  · rw [hsize, openings_append_of_some hopens, List.length_append, h.size]
    rfl
  · intro i hi
    rw [hheld] at hi
    rw [hsize]
    rcases List.mem_cons.1 hi with rfl | hi
    · exact Nat.lt_succ_self _
    · exact Nat.lt_succ_of_lt (h.held i hi)
  · intro c hc
    by_cases hne : c = s.scopes.size
    · subst hne
      obtain rfl := Option.some.inj (hlast.symm.trans hc)
      rw [hnew]
      rfl
    · obtain ⟨hc, hlt⟩ := hbefore hc hne
      rw [henclosing hlt, h.outermost hc]
  · intro c p hc
    by_cases hne : c = s.scopes.size
    · subst hne
      obtain rfl := Option.some.inj (hlast.symm.trans hc)
      have hp : p < s.scopes.size := haround p rfl
      rw [hnew, henclosing hp]
      exact ⟨hp, rfl⟩
    · obtain ⟨hc, hlt⟩ := hbefore hc hne
      obtain ⟨hpc, hinner⟩ := h.inner hc
      rw [henclosing hlt, henclosing (Nat.lt_trans hpc hlt)]
      exact ⟨hpc, hinner⟩
  · intro p
    show (t.scope p).children = _
    rw [openedIn_append_of_some hopens, ← h.children p, ← h.size]
    by_cases hne : p = s.scopes.size
    · subst hne
      have hnot : around ≠ some s.scopes.size := fun he => Nat.lt_irrefl _ (haround _ he)
      have hnone : s.children s.scopes.size = [] := by
        show (s.scope s.scopes.size).children = []
        rw [scope_of_size_le (Nat.le_refl _)]
        rfl
      rw [hnew, hnone, if_neg hnot]
      rfl
    · rw [hold p hne]
      rfl
  · intro i
    rw [declaredIn_append, hdeclares, Option.toList_none, List.append_nil]
    by_cases hne : i = s.scopes.size
    · subst hne
      have hnone := h.bindings s.scopes.size
      rw [scope_of_size_le (Nat.le_refl _)] at hnone
      rw [hnew, ← hnone]
      rfl
    · rw [hold i hne]
      exact h.bindings i

theorem of_declared (h : Records ops s) (hi : i < s.scopes.size) (name : String) (b : Binding) :
    Records (ops ++ [.declare i name b]) (s.declare i name b) := by
  have hopens : (Operation.declare i name b).opens? = none := rfl
  have hscope (j : ScopeId) : (s.declare i name b).scope j =
      if j = i then { s.scope j with bindings := (s.scope j).bindings.insert name b }
      else s.scope j := by
    simp only [scope_declare, hi, and_true]
  have henclosing := s.enclosing_declare (i := i) name b
  have hsize : (s.declare i name b).scopes.size = s.scopes.size := size_declare name b
  constructor
  · rw [hsize, openings_append_of_none hopens, h.size]
  · rw [hsize]
    exact h.held
  · intro c hc
    rw [openings_append_of_none hopens] at hc
    rw [henclosing, h.outermost hc]
  · intro c p hc
    rw [openings_append_of_none hopens] at hc
    rw [henclosing, henclosing]
    exact h.inner hc
  · intro p
    have hchildren : (s.declare i name b).children p = s.children p := by
      show ((s.declare i name b).scope p).children = _
      rw [hscope]
      split <;> rfl
    rw [hchildren, openedIn_append_of_none hopens]
    exact h.children p
  · intro j
    rw [hscope, declaredIn_append, Operation.declares?]
    by_cases hij : j = i
    · subst hij
      rw [if_pos rfl, if_pos rfl, OrderedMap.ofList, Option.toList_some, List.foldl_append]
      exact congrArg (OrderedMap.insert · name b) (h.bindings j)
    · rw [if_neg hij, if_neg (Ne.symm hij), Option.toList_none, List.append_nil]
      exact h.bindings j

theorem opened_iff (h : Records ops s) : s.Opened p c ↔ (openings ops)[c]? = some (some p) := by
  rw [Opened, h.children, mem_openedIn]

theorem lt_of_opened (h : Records ops s) (hc : s.Opened p c) : c < s.scopes.size := by
  rw [h.size]
  exact (List.getElem?_eq_some_iff.1 (h.opened_iff.1 hc)).1

/-- A scope was opened in no other, or in one that came before it and whose chain it goes on. -/
theorem opened_cases (h : Records ops s) (i : ScopeId) :
    (s.scope i).enclosing = [] ∧ (∀ p, ¬ s.Opened p i) ∨
      ∃ p < i, (s.scope i).enclosing = p :: (s.scope p).enclosing ∧
        ∀ q, s.Opened q i ↔ q = p := by
  cases hi : (openings ops)[i]? with
  | none =>
    have hle : s.scopes.size ≤ i := h.size ▸ List.getElem?_eq_none_iff.1 hi
    refine .inl ⟨by rw [scope_of_size_le hle]; rfl, fun p hp => ?_⟩
    exact Nat.not_lt.2 hle (h.lt_of_opened hp)
  | some around =>
    cases around with
    | none =>
      refine .inl ⟨h.outermost hi, fun p hp => ?_⟩
      rw [h.opened_iff, hi] at hp
      cases hp
    | some p =>
      obtain ⟨hlt, hinner⟩ := h.inner hi
      refine .inr ⟨p, hlt, hinner, fun q => ?_⟩
      rw [h.opened_iff, hi]
      simp [eq_comm]

/-- **The parent of a scope is the one that it was opened in, while that is alive.** -/
theorem parent?_eq_some_iff (h : Records ops s) :
    s.parent? i = some p ↔ s.Opened p i ∧ s.alive p = true := by
  rcases h.opened_cases i with ⟨hnone, hnot⟩ | ⟨q, -, hinner, hopened⟩
  · rw [parent?, ancestors_of_outermost hnone]
    exact iff_of_false (by simp) fun hp => hnot p hp.1
  · rw [parent?_of_opened hinner, hopened]
    constructor
    · intro hp
      obtain ⟨halive, hqp⟩ := Option.ite_none_right_eq_some.1 hp
      obtain rfl := Option.some.inj hqp
      exact ⟨rfl, halive⟩
    · rintro ⟨rfl, halive⟩
      exact if_pos halive

/-- **Every operation keeps the store in agreement with what was done.** -/
theorem perform (h : Records ops s) {op : Operation} (hop : s.Allows op) :
    Records (ops ++ [op]) (s.perform op) := by
  cases op with
  | openGlobal =>
    refine h.of_opened .global none rfl (fun _ => rfl) (fun _ hp => nomatch hp)
      (by simp [ScopeStore.perform, hold, openGlobal]) rfl ?_ ?_
    · exact (s.scope_openGlobal _).trans (if_pos rfl)
    · intro i hne
      exact (s.scope_openGlobal i).trans ((if_neg hne).trans (by simp))
  | openChild p kind =>
    have hp : p < s.scopes.size := h.lt_of_alive hop
    have hscope := s.scope_openChild p kind
    refine h.of_opened kind (some p) rfl (fun _ => rfl) (fun _ he => Option.some.inj he ▸ hp)
      (s.size_openChild kind) rfl ?_ ?_
    · exact (hscope _).trans (if_pos rfl)
    · intro i hne
      refine (hscope i).trans ?_
      rw [if_neg hne]
      by_cases hip : i = p
      · rw [if_pos ⟨hip, hp⟩, if_pos (congrArg some hip.symm)]
      · rw [if_neg (fun h => hip h.1), if_neg (fun he => hip (Option.some.inj he).symm),
          List.append_nil]
  | declare i name b => exact h.of_declared (h.lt_of_alive hop) name b
  | take i =>
    refine h.of_scopes_eq rfl (fun _ => rfl) rfl ?_
    intro j hj
    rcases List.mem_cons.1 hj with rfl | hj
    · exact h.lt_of_alive hop
    · exact h.held j hj
  | takeChildren i =>
    have hheld : (s.perform (.takeChildren i)).held = (s.children i).reverse ++ s.held := by
      rw [ScopeStore.perform, foldl_hold]
    refine h.of_scopes_eq rfl (fun _ => rfl) ?_ ?_
    · rw [ScopeStore.perform, foldl_hold]
    · intro j hj
      rw [hheld, List.mem_append, List.mem_reverse] at hj
      exact hj.elim h.lt_of_opened (h.held j)
  | takeParent i =>
    cases hp : s.parent? i with
    | none =>
      have hsame : s.perform (.takeParent i) = s := by rw [ScopeStore.perform, hp]; rfl
      rw [hsame]
      exact h.of_scopes_eq rfl (fun _ => rfl) rfl h.held
    | some p =>
      have htaken : s.perform (.takeParent i) = s.hold p := by rw [ScopeStore.perform, hp]; rfl
      rw [htaken]
      refine h.of_scopes_eq rfl (fun _ => rfl) rfl ?_
      intro j hj
      rcases List.mem_cons.1 hj with rfl | hj
      · exact h.lt_of_alive (h.parent?_eq_some_iff.1 hp).2
      · exact h.held j hj
  | drop i => exact h.of_scopes_eq rfl (fun _ => rfl) rfl fun j hj => h.held j (List.mem_of_mem_erase hj)

end Records

/-- What programs make of scopes agrees with what they did. -/
theorem History.records (h : History ops s) : Records ops s := by
  induction h with
  | start => exact .empty
  | step _ hop ih => exact ih.perform hop

/-! ### Chains of scopes

The scopes around a scope are those from which lists of children lead to it.
-/

namespace Records

open Relation

theorem lt_of_transGen (h : Records ops s) (hpi : TransGen s.Opened p i) : p < i := by
  have hstep {a b : ScopeId} (hab : s.Opened a b) : a < b := (h.inner (h.opened_iff.1 hab)).1
  induction hpi with
  | single hab => exact hstep hab
  | tail _ hab ih => exact Nat.lt_trans ih (hstep hab)

theorem mem_enclosing_iff (h : Records ops s) :
    p ∈ (s.scope i).enclosing ↔ TransGen s.Opened p i := by
  induction i using Nat.strong_induction_on with
  | _ i ih =>
    rcases h.opened_cases i with ⟨hnone, hnot⟩ | ⟨q, hlt, hinner, hopened⟩
    · rw [hnone]
      refine iff_of_false List.not_mem_nil fun hp => ?_
      obtain ⟨b, -, hb⟩ := TransGen.tail'_iff.1 hp
      exact hnot b hb
    · have hreach : TransGen s.Opened p i ↔ ReflTransGen s.Opened p q := by
        rw [TransGen.tail'_iff]
        simp only [hopened, exists_eq_right]
      rw [hreach, hinner, List.mem_cons, ih q hlt, reflTransGen_iff_eq_or_transGen, @eq_comm _ p q]

/-- **A scope is alive just where a scope that is held leads to it.** -/
theorem alive_iff_reached (h : Records ops s) :
    s.alive i = true ↔ ∃ e ∈ s.held, ReflTransGen s.Opened e i := by
  rw [alive_iff]
  simp only [List.mem_cons, h.mem_enclosing_iff, reflTransGen_iff_eq_or_transGen, eq_comm,
    and_comm]

theorem alive_of_reached (h : Records ops s) (hp : s.alive p = true)
    (hpi : ReflTransGen s.Opened p i) : s.alive i = true := by
  obtain ⟨e, hheld, hep⟩ := h.alive_iff_reached.1 hp
  exact h.alive_iff_reached.2 ⟨e, hheld, hep.trans hpi⟩

/-- The scopes above a scope are those around it that are alive. -/
theorem mem_ancestors_iff (h : Records ops s) :
    p ∈ s.ancestors i ↔ s.alive p = true ∧ TransGen s.Opened p i := by
  induction i using Nat.strong_induction_on with
  | _ i ih =>
    rcases h.opened_cases i with ⟨hnone, hnot⟩ | ⟨q, hlt, hinner, hopened⟩
    · rw [ancestors_of_outermost hnone, ← h.mem_enclosing_iff, hnone]
      simp
    · rw [ancestors_of_opened hinner, ← h.mem_enclosing_iff, hinner, List.mem_cons,
        h.mem_enclosing_iff]
      by_cases hq : s.alive q = true
      · rw [if_pos hq, List.mem_cons, ih q hlt]
        constructor
        · rintro (rfl | ⟨hp, hpq⟩)
          · exact ⟨hq, .inl rfl⟩
          · exact ⟨hp, .inr hpq⟩
        · rintro ⟨hp, hpq⟩
          exact hpq.imp id fun hpq => ⟨hp, hpq⟩
      · rw [if_neg hq]
        refine iff_of_false List.not_mem_nil ?_
        rintro ⟨hp, rfl | hpq⟩
        · exact hq hp
        · exact hq (h.alive_of_reached hp hpq.to_reflTransGen)

/-- The scopes above a scope are listed from the inside out. -/
theorem pairwise_ancestors (h : Records ops s) (i : ScopeId) :
    (i :: s.ancestors i).Pairwise fun a b => TransGen s.Opened b a := by
  induction i using Nat.strong_induction_on with
  | _ i ih =>
    refine List.pairwise_cons.2 ⟨fun a ha => (h.mem_ancestors_iff.1 ha).2, ?_⟩
    rcases h.opened_cases i with ⟨hnone, -⟩ | ⟨q, hlt, hinner, -⟩
    · rw [ancestors_of_outermost hnone]
      exact .nil
    · rw [ancestors_of_opened hinner]
      split
      · exact ih q hlt
      · exact .nil

/-- **The depth of a scope is the number of scopes around it that are alive.** -/
theorem depth_eq_ncard (h : Records ops s) (i : ScopeId) :
    s.depth i = {p | s.alive p = true ∧ TransGen s.Opened p i}.ncard := by
  have hset : {p | s.alive p = true ∧ TransGen s.Opened p i} = ((s.ancestors i).toFinset : Set _) := by
    ext p
    simp [h.mem_ancestors_iff]
  have hnodup : (s.ancestors i).Nodup := by
    refine (List.pairwise_cons.1 (h.pairwise_ancestors i)).2.imp fun hba => ?_
    exact (Nat.ne_of_lt (h.lt_of_transGen hba)).symm
  rw [depth, hset, Set.ncard_coe_finset, List.toFinset_card_of_nodup hnodup]

/-- The way from parent to parent never comes back. -/
theorem not_transGen_parent? (h : Records ops s) (i : ScopeId) :
    ¬ TransGen (fun a b => s.parent? a = some b) i i := by
  have hlt {a b : ScopeId} (hab : TransGen (fun a b => s.parent? a = some b) a b) : b < a := by
    induction hab with
    | single hab => exact h.lt_of_transGen (.single (h.parent?_eq_some_iff.1 hab).1)
    | tail _ hbc ih =>
      exact Nat.lt_trans (h.lt_of_transGen (.single (h.parent?_eq_some_iff.1 hbc).1)) ih
  exact fun hi => Nat.lt_irrefl i (hlt hi)

/-! ### Names -/

theorem mem_chain_iff (h : Records ops s) (hi : s.alive i = true) :
    p ∈ i :: s.ancestors i ↔ s.alive p = true ∧ ReflTransGen s.Opened p i := by
  rw [List.mem_cons, h.mem_ancestors_iff, reflTransGen_iff_eq_or_transGen]
  constructor
  · rintro (rfl | ⟨hp, hpi⟩)
    · exact ⟨hi, .inl rfl⟩
    · exact ⟨hp, .inr hpi⟩
  · rintro ⟨hp, rfl | hpi⟩
    · exact .inl rfl
    · exact .inr ⟨hp, hpi⟩

theorem lookup?_eq_none_iff (h : Records ops s) (hi : s.alive i = true) (name : String) :
    s.lookup? i name = none ↔
      ∀ p, s.alive p = true → ReflTransGen s.Opened p i → s.get? p name = none := by
  simp only [lookup?, List.findSome?_eq_none_iff, h.mem_chain_iff hi, and_imp]

/-- **A name stands for what it does in the nearest scope that binds it.** -/
theorem lookup?_eq_some_iff (h : Records ops s) (hi : s.alive i = true) (name : String)
    (b : Binding) :
    s.lookup? i name = some b ↔
      ∃ p, s.alive p = true ∧ ReflTransGen s.Opened p i ∧ s.get? p name = some b ∧
        ∀ e, TransGen s.Opened p e → ReflTransGen s.Opened e i → s.get? e name = none := by
  have hpairs := h.pairwise_ancestors i
  rw [lookup?, List.findSome?_eq_some_iff]
  constructor
  · rintro ⟨nearer, p, further, hchain, hb, hnearer⟩
    have hp : p ∈ i :: s.ancestors i := hchain ▸ by simp
    obtain ⟨halive, hreach⟩ := (h.mem_chain_iff hi).1 hp
    refine ⟨p, halive, hreach, hb, ?_⟩
    intro e hpe hei
    have he : e ∈ i :: s.ancestors i :=
      (h.mem_chain_iff hi).2 ⟨h.alive_of_reached halive hpe.to_reflTransGen, hei⟩
    rw [hchain] at he hpairs
    rcases List.mem_append.1 he with he | he
    · exact hnearer e he
    · have hep : e = p ∨ TransGen s.Opened e p := (List.mem_cons.1 he).imp id fun he =>
        (List.pairwise_cons.1 (List.pairwise_append.1 hpairs).2.1).1 e he
      rcases hep with rfl | hep
      · exact absurd (h.lt_of_transGen hpe) (Nat.lt_irrefl _)
      · exact absurd (h.lt_of_transGen (hpe.trans hep)) (Nat.lt_irrefl _)
  · rintro ⟨p, halive, hreach, hb, hnone⟩
    obtain ⟨nearer, further, hchain⟩ :=
      List.append_of_mem ((h.mem_chain_iff hi).2 ⟨halive, hreach⟩)
    refine ⟨nearer, p, further, hchain, hb, ?_⟩
    intro e he
    have hmem : e ∈ i :: s.ancestors i := hchain ▸ List.mem_append_left _ he
    rw [hchain] at hpairs
    have hpe : TransGen s.Opened p e :=
      (List.pairwise_append.1 hpairs).2.2 e he p (List.mem_cons_self ..)
    exact hnone e hpe ((h.mem_chain_iff hi).1 hmem).2

end Records

open Relation

/-! ### Dying -/

/-- No operation changes what a scope was opened in. -/
theorem keeps_perform (s : ScopeStore) (op : Operation) : s.Keeps (s.perform op) := by
  cases op with
  | openGlobal => exact s.keeps_openGlobal.trans (.of_scopes_eq rfl)
  | openChild p kind => exact (s.keeps_openChild p kind).trans (.of_scopes_eq rfl)
  | declare i name b => exact s.keeps_declare i name b
  | take i => exact .of_scopes_eq rfl
  | takeChildren i => exact .of_scopes_eq (by rw [perform, foldl_hold])
  | takeParent i =>
    refine .of_scopes_eq ?_
    rw [perform]
    cases s.parent? i <;> rfl
  | drop i => exact .of_scopes_eq rfl

/-- What is held after an operation was held before, or was opened or reached by it. -/
theorem Records.held_perform (h : Records ops s) {op : Operation} (hop : s.Allows op) :
    ∀ e ∈ (s.perform op).held, e = s.scopes.size ∨ s.alive e = true := by
  have hheld : ∀ e ∈ s.held, s.alive e = true := fun e he =>
    alive_iff.2 ⟨e, List.mem_cons_self .., he⟩
  intro e he
  cases op with
  | openGlobal => exact (List.mem_cons.1 he).imp id (hheld e)
  | openChild p kind => exact (List.mem_cons.1 he).imp id (hheld e)
  | declare i name b => exact .inr (hheld e he)
  | take i =>
    rcases List.mem_cons.1 he with rfl | he
    · exact .inr hop
    · exact .inr (hheld e he)
  | takeChildren i =>
    rw [ScopeStore.perform, foldl_hold, List.mem_append, List.mem_reverse] at he
    rcases he with he | he
    · exact .inr (h.alive_of_reached hop (.single he))
    · exact .inr (hheld e he)
  | takeParent i =>
    rw [ScopeStore.perform] at he
    cases hp : s.parent? i with
    | none =>
      rw [hp] at he
      exact .inr (hheld e he)
    | some p =>
      rw [hp] at he
      rcases List.mem_cons.1 he with rfl | he
      · exact .inr (h.parent?_eq_some_iff.1 hp).2
      · exact .inr (hheld e he)
  | drop i => exact .inr (hheld e (List.mem_of_mem_erase he))

/-- **A scope that has died stays dead.** -/
theorem Records.alive_of_alive_perform (h : Records ops s) {op : Operation} (hop : s.Allows op)
    {i : ScopeId} (hi : i < s.scopes.size) (halive : (s.perform op).alive i = true) :
    s.alive i = true := by
  obtain ⟨e, he, hheld⟩ := alive_iff.1 halive
  rw [(s.keeps_perform op).enclosing i hi] at he
  have hreach : ReflTransGen s.Opened e i := by
    rcases List.mem_cons.1 he with rfl | he
    · exact .refl
    · exact (h.mem_enclosing_iff.1 he).to_reflTransGen
  rcases h.held_perform hop e hheld with rfl | he
  · have hle : s.scopes.size ≤ i := by
      rcases reflTransGen_iff_eq_or_transGen.1 hreach with heq | htrans
      · exact Nat.le_of_eq heq.symm
      · exact Nat.le_of_lt (h.lt_of_transGen htrans)
    exact absurd hi (Nat.not_lt.2 hle)
  · exact h.alive_of_reached he hreach

/-! ### The laws of scopes -/

/-- **What holds of a store that came about by the operations.** -/
structure Lawful (ops : List Operation) (s : ScopeStore) : Prop where
  /-- A scope is alive just where a scope that is held leads to it through lists of children. -/
  alive : ∀ i, s.alive i = true ↔ ∃ e ∈ s.held, ReflTransGen s.Opened e i
  /-- One that has died stays dead. -/
  dead : ∀ op, s.Allows op → ∀ i < s.scopes.size, s.alive i = false → (s.perform op).alive i = false
  /-- The children of a scope are the scopes that were opened in it, in that order. -/
  children : ∀ p, s.children p = openedIn ops p
  /-- Each of them is a child once, and later ones come later. -/
  ordered : ∀ p, (s.children p).Pairwise (· < ·)
  /-- They live as long as it does, and lead back to it. -/
  inside : ∀ p c, s.alive p = true → c ∈ s.children p → s.alive c = true ∧ s.parent? c = some p
  /-- The parent of a scope is the one that it was opened in, while that is alive; so an outermost
  scope has none, nor has one whose surroundings died. -/
  parent : ∀ c p, s.parent? c = some p ↔
    (openings ops)[c]? = some (some p) ∧ s.alive p = true
  acyclic : ∀ i, ¬ TransGen (fun a b => s.parent? a = some b) i i
  /-- The depth of a scope is the number of scopes around it that are alive. -/
  depth : ∀ i, s.depth i = {p | s.alive p = true ∧ TransGen s.Opened p i}.ncard
  /-- A name stands for what it does in the nearest scope that is alive and binds it, -/
  lookup : ∀ i name b, s.alive i = true → (s.lookup? i name = some b ↔
    ∃ p, s.alive p = true ∧ ReflTransGen s.Opened p i ∧ s.get? p name = some b ∧
      ∀ e, TransGen s.Opened p e → ReflTransGen s.Opened e i → s.get? e name = none)
  /-- and for nothing where there is none. -/
  unbound : ∀ i name, s.alive i = true → (s.lookup? i name = none ↔
    ∀ p, s.alive p = true → ReflTransGen s.Opened p i → s.get? p name = none)
  /-- Names stand in the order in which they were first declared, -/
  names : ∀ i, s.names i = ((declaredIn ops i).map Prod.fst).eraseDups
  /-- and each for what was declared last. -/
  get : ∀ i name, s.get? i name = (declaredIn ops i).reverse.lookup name
  /-- Letting go of a scope changes none that goes on living. -/
  drop : ∀ e ∈ s.held, ∀ i, (s.perform (.drop e)).alive i = true →
    (s.perform (.drop e)).bindings i = s.bindings i ∧
      (s.perform (.drop e)).children i = s.children i

/-- **Whatever a program does with scopes, the laws of scopes hold.** -/
theorem lawful_of_history (h : History ops s) : s.Lawful ops := by
  have hrecords := h.records
  constructor
  · exact fun i => hrecords.alive_iff_reached
  · intro op hop i hi hdead
    by_contra hlives
    have halive := hrecords.alive_of_alive_perform hop hi (Bool.of_not_eq_false hlives)
    rw [halive] at hdead
    cases hdead
  · exact hrecords.children
  · intro p
    rw [hrecords.children]
    exact pairwise_openedIn
  · intro p c hp hc
    exact ⟨hrecords.alive_of_reached hp (.single hc), hrecords.parent?_eq_some_iff.2 ⟨hc, hp⟩⟩
  · intro c p
    rw [hrecords.parent?_eq_some_iff, hrecords.opened_iff]
  · exact hrecords.not_transGen_parent?
  · exact hrecords.depth_eq_ncard
  · exact fun i name b hi => hrecords.lookup?_eq_some_iff hi name b
  · exact fun i name hi => hrecords.lookup?_eq_none_iff hi name
  · intro i
    rw [names, hrecords.bindings, OrderedMap.keys_ofList]
  · intro i name
    rw [get?, hrecords.bindings, OrderedMap.get?_ofList_eq_lookup]
  · exact fun e _ i _ => ⟨rfl, rfl⟩

/-- A clause and a function inside a function.  The outermost scope is let go, then the function
inside, which the one around it keeps alive; that is reached from the clause and left again with
all that was opened in it in hand, of which in the end only the function inside stays. -/
def goings : List Operation :=
  let bound (kind : BindingKind) (name : String) : Binding := ⟨kind, Build.ident name⟩
  [.openGlobal, .declare 0 "a" (bound .variable "a"), .openChild 0 .function,
    .declare 1 "b" (bound .argument "b"), .declare 1 "c" (bound .variable "c"),
    .openChild 1 .catchClause, .openChild 1 .function, .declare 1 "b" (bound .function "b"),
    .drop 0, .drop 3, .takeParent 2, .drop 1, .takeChildren 1, .drop 2, .drop 2, .drop 1]

/-- In the end the outermost scope is dead and the second function outermost by itself. -/
theorem lawful_goings :
    ScopeStore.empty.Permits goings ∧ (goings.foldl perform .empty).Lawful goings ∧
      (List.range 4).map (goings.foldl perform .empty).alive = [false, false, false, true] ∧
      ((goings.take 8).foldl perform .empty).depth 3 = 2 ∧
      ((goings.take 9).foldl perform .empty).depth 3 = 1 ∧
      ((goings.take 8).foldl perform .empty).names 1 = ["b", "c"] := by
  have hpermits : ScopeStore.empty.Permits goings := by decide
  refine ⟨hpermits, lawful_of_history (History.start.append hpermits), ?_, ?_, ?_, ?_⟩ <;> decide

end ScopeStore

end TreeWalk
