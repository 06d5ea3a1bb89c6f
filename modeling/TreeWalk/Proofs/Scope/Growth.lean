/-
How a store of scopes grows.

A `ScopeTree` is a scope as a value: what is declared in it, in order, and the scopes
inside it.  `layout` writes such a tree down as the scopes of a store, each before those
inside it, which is the order in which a walk opens them.

What a walk brings to the scope that it runs in is a `Scoping`: names declared there and
scopes opened there.  `ScopeStore.grow` adds both to a store at once.  A walk does it bit
by bit and in another order, but bits added to one scope add up, `grow_grow`, and a bit
added to a scope that was just opened is part of that scope, `grow_openChild`.  So nothing
needs to be said about the stores in between.
-/
import TreeWalk.Scope.Store

namespace TreeWalk

/-! ### Scopes as values -/

/-- A scope with what is declared in it and with the scopes inside it, both in order. -/
inductive ScopeTree where
  | mk (kind : ScopeKind) (declared : List (String × Binding)) (opened : List ScopeTree)

namespace ScopeTree

mutual
/-- The number of scopes in a tree. -/
def size : ScopeTree → Nat
  | mk _ _ opened => sizeAll opened + 1
/-- The number of scopes in trees one after another. -/
def sizeAll : List ScopeTree → Nat
  | [] => 0
  | t :: rest => t.size + sizeAll rest
end

/-- The numbers of the outermost scopes of trees that are laid out from a number on. -/
def ids (next : ScopeId) : List ScopeTree → List ScopeId
  | [] => []
  | t :: rest => next :: ids (next + t.size) rest

mutual
/-- The scopes of a tree, numbered from `id` on, inside others, the innermost first. -/
def layout (around : List ScopeId) (id : ScopeId) : ScopeTree → List Scope
  | mk kind declared opened =>
    ⟨kind, .ofList declared, around, ids (id + 1) opened⟩ ::
      layoutAll (id :: around) (id + 1) opened
/-- The scopes of trees one after another. -/
def layoutAll (around : List ScopeId) (next : ScopeId) : List ScopeTree → List Scope
  | [] => []
  | t :: rest => t.layout around next ++ layoutAll around (next + t.size) rest
end

theorem ids_append (next : ScopeId) (as bs : List ScopeTree) :
    ids next (as ++ bs) = ids next as ++ ids (next + sizeAll as) bs := by
  induction as generalizing next with
  | nil => rfl
  | cons t rest ih => rw [List.cons_append, ids, ids, ih, sizeAll, Nat.add_assoc, List.cons_append]

theorem layoutAll_append (around : List ScopeId) (next : ScopeId) (as bs : List ScopeTree) :
    layoutAll around next (as ++ bs) =
      layoutAll around next as ++ layoutAll around (next + sizeAll as) bs := by
  induction as generalizing next with
  | nil => rfl
  | cons t rest ih =>
    rw [List.cons_append, layoutAll, layoutAll, ih, sizeAll, Nat.add_assoc, List.append_assoc]

mutual
theorem length_layout (around : List ScopeId) (id : ScopeId) :
    (t : ScopeTree) → (t.layout around id).length = t.size
  | mk kind declared opened => by
    rw [layout, size, List.length_cons, length_layoutAll]
theorem length_layoutAll (around : List ScopeId) (next : ScopeId) :
    (ts : List ScopeTree) → (layoutAll around next ts).length = sizeAll ts
  | [] => rfl
  | t :: rest => by
    rw [layoutAll, sizeAll, List.length_append, length_layout, length_layoutAll]
end

end ScopeTree

/-! ### What is brought to a scope -/

/-- Names declared in a scope and scopes opened in it, each in order. -/
structure Scoping where
  declared : List (String × Binding)
  opened : List ScopeTree

namespace Scoping

/-- Nothing. -/
def empty : Scoping := ⟨[], []⟩

instance : Append Scoping := ⟨fun a b => ⟨a.declared ++ b.declared, a.opened ++ b.opened⟩⟩

/-- One after another. -/
def concat (scs : List Scoping) : Scoping := scs.foldr (· ++ ·) empty

@[simp] theorem append_empty (a : Scoping) : a ++ empty = a := by
  show Scoping.mk (a.declared ++ []) (a.opened ++ []) = a
  rw [List.append_nil, List.append_nil]

@[simp] theorem concat_singleton (a : Scoping) : concat [a] = a := append_empty a

/-- A name declared. -/
def declare (name : String) (b : Binding) : Scoping := ⟨[(name, b)], []⟩

/-- A scope opened, with what was brought to it. -/
def scope (kind : ScopeKind) (sc : Scoping) : Scoping := ⟨[], [.mk kind sc.declared sc.opened]⟩

/-- The scope with all that is brought to it, where new scopes are numbered from `next` on. -/
def addTo (sc : Scoping) (next : ScopeId) (c : Scope) : Scope :=
  { c with
    bindings := sc.declared.foldl (fun m (name, b) => m.insert name b) c.bindings
    children := c.children ++ ScopeTree.ids next sc.opened }

theorem addTo_append (a b : Scoping) (next : ScopeId) :
    (a ++ b).addTo next = b.addTo (next + ScopeTree.sizeAll a.opened) ∘ a.addTo next := by
  funext c
  show Scope.mk _ _ _ _ = Scope.mk _ _ _ _
  rw [show (a ++ b).declared = a.declared ++ b.declared from rfl,
    show (a ++ b).opened = a.opened ++ b.opened from rfl, List.foldl_append,
    ScopeTree.ids_append, ← List.append_assoc]
  rfl

end Scoping

/-! ### Growing -/

namespace ScopeStore

theorem ext_toList {s t : ScopeStore} (h : s.scopes.toList = t.scopes.toList)
    (hheld : s.held = t.held) : s = t := by
  obtain ⟨⟨as⟩, held⟩ := s
  obtain ⟨⟨bs⟩, held'⟩ := t
  cases h
  cases hheld
  rfl

theorem modify_append {α : Type} {i : Nat} (f : α → α) {as : List α} (bs : List α)
    (h : i < as.length) : (as ++ bs).modify i f = as.modify i f ++ bs := by
  refine List.ext_getElem? ?_
  intro j
  rw [List.getElem?_modify]
  by_cases hj : j < as.length
  · rw [List.getElem?_append_left hj, List.getElem?_append_left (by simpa using hj),
      List.getElem?_modify]
  · have hij : ¬ i = j := by omega
    rw [List.getElem?_append_right (by omega), List.getElem?_append_right (by simpa using hj),
      List.length_modify]
    simp [hij]

theorem modify_concat {α : Type} (f : α → α) (as : List α) (a : α) :
    (as ++ [a]).modify as.length f = as ++ [f a] := by
  induction as with
  | nil => rfl
  | cons b as ih => rw [List.cons_append, List.length_cons, List.modify_succ_cons, ih]; rfl

/-- The store with something brought to a scope. -/
def grow (s : ScopeStore) (i : ScopeId) (sc : Scoping) : ScopeStore :=
  { s with
    scopes := s.scopes.modify i (sc.addTo s.scopes.size) ++
      (ScopeTree.layoutAll (i :: (s.scope i).enclosing) s.scopes.size sc.opened).toArray }

variable {s : ScopeStore} {i : ScopeId}

theorem toList_grow (sc : Scoping) :
    (s.grow i sc).scopes.toList = s.scopes.toList.modify i (sc.addTo s.scopes.size) ++
      ScopeTree.layoutAll (i :: (s.scope i).enclosing) s.scopes.size sc.opened := by
  simp [grow]

theorem size_grow (sc : Scoping) :
    (s.grow i sc).scopes.size = s.scopes.size + ScopeTree.sizeAll sc.opened := by
  simp [grow, ScopeTree.length_layoutAll]

theorem enclosing_grow (sc : Scoping) (h : i < s.scopes.size) :
    ((s.grow i sc).scope i).enclosing = (s.scope i).enclosing := by
  simp [scope, grow, h, Array.getElem?_append, Array.getElem_modify]
  rfl

@[simp] theorem grow_empty : s.grow i .empty = s := by
  refine ext_toList ?_ rfl
  have hid : Scoping.empty.addTo s.scopes.size = id := by
    funext c
    simp [Scoping.addTo, Scoping.empty, ScopeTree.ids]
  rw [toList_grow, hid, List.modify_id]
  exact List.append_nil _

/-- **Bits brought to one scope add up.** -/
theorem grow_grow (a b : Scoping) (h : i < s.scopes.size) :
    (s.grow i a).grow i b = s.grow i (a ++ b) := by
  refine ext_toList ?_ rfl
  have hopened : (a ++ b).opened = a.opened ++ b.opened := rfl
  have hlen : i < (s.scopes.toList.modify i (a.addTo s.scopes.size)).length := by
    simpa using h
  rw [toList_grow, toList_grow, toList_grow, size_grow, enclosing_grow a h,
    modify_append _ _ hlen, List.modify_modify_eq, Scoping.addTo_append, hopened,
    ScopeTree.layoutAll_append, List.append_assoc]

/-- Declaring a name is bringing it to the scope. -/
theorem declare_eq_grow (name : String) (b : Binding) :
    s.declare i name b = s.grow i (.declare name b) := by
  refine ext_toList ?_ rfl
  have hadd : (Scoping.declare name b).addTo s.scopes.size =
      fun c => { c with bindings := c.bindings.insert name b } := by
    funext c
    simp [Scoping.addTo, Scoping.declare, ScopeTree.ids]
  rw [toList_grow, hadd, declare, Array.toList_modify]
  exact (List.append_nil _).symm

theorem enclosing_declare (name : String) (b : Binding) (j : ScopeId) :
    ((s.declare i name b).scope j).enclosing = (s.scope j).enclosing := by
  rw [scope, scope, declare, Array.getElem?_modify]
  split
  · cases s.scopes[j]? <;> rfl
  · rfl

theorem size_declare (name : String) (b : Binding) :
    (s.declare i name b).scopes.size = s.scopes.size :=
  Array.size_modify

/-- The list of scopes after one was opened. -/
theorem toList_openChild (kind : ScopeKind) :
    (s.openChild i kind).2.scopes.toList =
      s.scopes.toList.modify i (fun c => { c with children := c.children ++ [s.scopes.size] }) ++
        [⟨kind, .empty, i :: (s.scope i).enclosing, []⟩] := by
  simp [openChild]

theorem size_openChild (kind : ScopeKind) :
    (s.openChild i kind).2.scopes.size = s.scopes.size + 1 := by
  simp [openChild]

/-- The scope that was opened is in the store. -/
theorem lt_size_openChild (kind : ScopeKind) :
    s.scopes.size < (s.openChild i kind).2.scopes.size :=
  size_openChild kind ▸ Nat.lt_succ_self _

theorem enclosing_openChild (kind : ScopeKind) :
    ((s.openChild i kind).2.scope s.scopes.size).enclosing = i :: (s.scope i).enclosing := by
  simp only [openChild, scope, Array.getElem?_push, Array.size_modify, if_true, Option.getD_some]

/-- **What is brought to a scope that was just opened is brought there with it.** -/
theorem grow_openChild (kind : ScopeKind) (sc : Scoping) :
    (s.openChild i kind).2.grow s.scopes.size sc = s.grow i (.scope kind sc) := by
  refine ext_toList ?_ rfl
  let opened : List Scope := s.scopes.toList.modify i
    fun c => { c with children := c.children ++ [s.scopes.size] }
  have hlast := modify_concat (sc.addTo (s.scopes.size + 1)) opened
    ⟨kind, .empty, i :: (s.scope i).enclosing, []⟩
  have hlen : opened.length = s.scopes.size := by simp [opened]
  rw [hlen] at hlast
  rw [toList_grow, toList_grow, toList_openChild, size_openChild, enclosing_openChild, hlast,
    List.append_assoc]
  exact congrArg (opened ++ ·) (List.append_nil _).symm

/-- A name declared further out is declared just as well before. -/
theorem declare_grow {j : ScopeId} (hi : i < s.scopes.size) (hij : i ≠ j) (name : String)
    (b : Binding) (sc : Scoping) :
    (s.grow j sc).declare i name b = (s.declare i name b).grow j sc := by
  refine ext_toList ?_ rfl
  have hlen : i < (s.scopes.toList.modify j (sc.addTo s.scopes.size)).length := by simpa using hi
  rw [declare, Array.toList_modify, toList_grow, toList_grow, modify_append _ _ hlen,
    enclosing_declare, size_declare, List.modify_modify_ne _ _ _ (Ne.symm hij), declare,
    Array.toList_modify]

theorem declare_openChild (hi : i < s.scopes.size) (kind : ScopeKind) (name : String)
    (b : Binding) :
    (s.openChild i kind).2.declare i name b = ((s.declare i name b).openChild i kind).2 := by
  refine ext_toList ?_ rfl
  have hlen : i < (s.scopes.toList.modify i
      fun c => { c with children := c.children ++ [s.scopes.size] }).length := by simpa using hi
  rw [declare, Array.toList_modify, toList_openChild, toList_openChild, modify_append _ _ hlen,
    enclosing_declare, size_declare, List.modify_modify_eq, declare, Array.toList_modify,
    List.modify_modify_eq]
  rfl

/-- A name declared around an open scope might as well have been declared before it was opened. -/
theorem declare_grow_openChild (hi : i < s.scopes.size) (kind : ScopeKind) (name : String)
    (b : Binding) (sc : Scoping) :
    ((s.openChild i kind).2.grow s.scopes.size sc).declare i name b =
      ((s.declare i name b).openChild i kind).2.grow s.scopes.size sc := by
  have hlt : i < (s.openChild i kind).2.scopes.size := by
    rw [size_openChild]
    exact Nat.lt_succ_of_lt hi
  rw [declare_grow hlt (Nat.ne_of_lt hi), declare_openChild hi]

/-- What is brought by declaring a name and then opening a scope. -/
theorem grow_openChild_declare (hi : i < s.scopes.size) (kind : ScopeKind) (name : String)
    (b : Binding) (sc : Scoping) :
    ((s.declare i name b).openChild i kind).2.grow s.scopes.size sc =
      s.grow i (.declare name b ++ .scope kind sc) := by
  rw [← size_declare name b, grow_openChild, declare_eq_grow, grow_grow _ _ hi]

end ScopeStore

end TreeWalk
