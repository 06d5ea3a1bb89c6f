/-
When tables are equal.

`Table.equal` counts the keys of two tables and goes through those of the first only.  No key
is there twice, so as many keys, all of which the other table has, are all that it has;
`equal_iff` says with it that equal tables send each key to handlers of one identity, or
neither of them knows it.  That makes equality an equivalence on all tables.

What an identity stands for depends on where handlers come from.  A program makes each handler
once and gives it an identity of its own; it inserts handlers into tables, copies tables and
lays them over one another.  `Stock` is what it has then, and no operation puts a handler under
an identity that is not its own, `Stock.Sound.perform`.  So equal tables of one program have the
very same handlers, `Stock.equal_iff_same`.
-/
import Mathlib.Data.List.Perm.Subperm
import TreeWalk.Proofs.OrderedMap.Insertion
import TreeWalk.Walk.Default

namespace TreeWalk

variable {ω σ : Type}

namespace Table

/-! ### Equal tables -/

/-- The identity of the handler that a key is sent to. -/
def identity? (t : Table ω σ) (key : String) : Option Nat := (t.get? key).map Handler.id

theorem mem_keys_iff_identity (t : Table ω σ) (key : String) :
    key ∈ t.keys ↔ (t.identity? key).isSome = true := by
  rw [identity?, Option.isSome_map, ← OrderedMap.contains_iff, OrderedMap.contains]

theorem shares_iff {a b : Table ω σ} {key : String} (hkey : key ∈ a.keys) :
    shares a b key = true ↔ a.identity? key = b.identity? key := by
  obtain ⟨g, hg⟩ := (OrderedMap.mem_keys_iff a key).1 hkey
  rw [shares, identity?, identity?, hg]
  cases b.get? key with
  | none => simp
  | some h => simp

/-- Tables that know the same keys have them in some order each. -/
theorem keys_perm {a b : Table ω σ} (h : ∀ key, a.identity? key = b.identity? key) :
    a.keys.Perm b.keys := by
  refine (List.perm_ext_iff_of_nodup a.nodup b.nodup).2 ?_
  intro key
  rw [mem_keys_iff_identity, mem_keys_iff_identity, h key]

/-- **Equal tables send each key to handlers of one identity**, whatever the order of their keys. -/
theorem equal_iff (a b : Table ω σ) :
    equal a b = true ↔ ∀ key, a.identity? key = b.identity? key := by
  rw [equal, Bool.and_eq_true, beq_iff_eq, List.all_eq_true]
  constructor
  · intro ⟨hsize, hshares⟩ key
    have hsame : ∀ key ∈ a.keys, a.identity? key = b.identity? key :=
      fun key hkey => (shares_iff hkey).1 (hshares key hkey)
    by_cases hkey : key ∈ a.keys
    · exact hsame key hkey
    · -- as many keys, each of which is in the other table, leave no room for one that is not here
      have hsubset : a.keys ⊆ b.keys := by
        intro other hother
        rw [mem_keys_iff_identity, ← hsame other hother, ← mem_keys_iff_identity]
        exact hother
      have hlength : b.keys.length ≤ a.keys.length := by
        rw [OrderedMap.length_keys, OrderedMap.length_keys]
        exact Nat.le_of_eq hsize.symm
      have hperm : a.keys.Perm b.keys :=
        (List.subperm_of_subset a.nodup hsubset).perm_of_length_le hlength
      have hnot : key ∉ b.keys := fun h => hkey (hperm.mem_iff.2 h)
      rw [identity?, identity?, (OrderedMap.get?_eq_none_iff a key).2 hkey,
        (OrderedMap.get?_eq_none_iff b key).2 hnot]
  · intro h
    refine ⟨?_, fun key hkey => (shares_iff hkey).2 (h key)⟩
    rw [← OrderedMap.length_keys, ← OrderedMap.length_keys, (keys_perm h).length_eq]

theorem equal_refl (a : Table ω σ) : equal a a = true := (equal_iff a a).2 fun _ => rfl

theorem equal_symm {a b : Table ω σ} (h : equal a b = true) : equal b a = true := by
  rw [equal_iff] at h ⊢
  exact fun key => (h key).symm

theorem equal_trans {a b c : Table ω σ} (hab : equal a b = true) (hbc : equal b c = true) :
    equal a c = true := by
  rw [equal_iff] at hab hbc ⊢
  exact fun key => (hab key).trans (hbc key)

end Table

/-! ### How tables come about -/

/-- The handlers that a program has made, each under its identity, and the tables that it has. -/
structure Stock (ω σ : Type) where
  made : List (Procedure ω σ)
  tables : List (Table ω σ)

namespace Stock

/-- One thing that a program does with handlers and tables; it names both by their numbers. -/
inductive Operation (ω σ : Type) where
  /-- Makes a handler. -/
  | handler (p : Procedure ω σ)
  /-- Makes an empty table. -/
  | new
  /-- Makes a default table. -/
  | base
  /-- Makes a handler and puts it under a key of a table. -/
  | insert (table : Nat) (key : String) (p : Procedure ω σ)
  /-- Puts a handler that is there already under a key of a table. -/
  | insertHandler (table : Nat) (key : String) (handler : Nat)
  /-- Copies a table. -/
  | clone (table : Nat)
  /-- Makes a table of overrides laid over a base, or over a default table made for it. -/
  | make (overrides : Nat) (base : Option Nat)

/-- Before the first operation there is nothing. -/
def start : Stock ω σ := ⟨[], []⟩

/-- Adds a table. -/
def add (s : Stock ω σ) (t : Table ω σ) : Stock ω σ := { s with tables := s.tables ++ [t] }

/-- The handlers of a default table are made for it. -/
def addBase (s : Stock ω σ) (change : Table ω σ → Table ω σ) : Stock ω σ where
  made := s.made ++ Default.procedures.map Prod.snd
  tables := s.tables ++ [change (Default.table s.made.length)]

/-- What an operation makes of the stock; on what is not there it does nothing. -/
def perform (s : Stock ω σ) : Operation ω σ → Stock ω σ
  | .handler p => { s with made := s.made ++ [p] }
  | .new => s.add .empty
  | .base => s.addBase id
  | .insert i key p =>
    { made := s.made ++ [p]
      tables := s.tables.modify i (·.insert key ⟨s.made.length, p⟩) }
  | .insertHandler i key n =>
    match s.made[n]? with
    | some p => { s with tables := s.tables.modify i (·.insert key ⟨n, p⟩) }
    | none => s
  | .clone i =>
    match s.tables[i]? with
    | some t => s.add t
    | none => s
  | .make i base =>
    match s.tables[i]?, base.map (s.tables[·]?) with
    | some o, none => s.addBase (Table.layer o)
    | some o, some (some b) => s.add (Table.layer o b)
    | _, _ => s

/-- What a program has after operations, one after another. -/
def after (ops : List (Operation ω σ)) : Stock ω σ := ops.foldl perform start

/-- The handlers of the table are those that were made, under their own identities. -/
def Knows (made : List (Procedure ω σ)) (t : Table ω σ) : Prop :=
  ∀ key h, t.get? key = some h → made[h.id]? = some h.run

/-- All tables have their handlers from the stock. -/
def Sound (s : Stock ω σ) : Prop := ∀ t ∈ s.tables, Knows s.made t

namespace Knows

variable {made : List (Procedure ω σ)} {t o b : Table ω σ}

theorem empty : Knows made (.empty : Table ω σ) := by
  intro key h hget
  cases hget

/-- Handlers made later change nothing. -/
theorem append (ht : Knows made t) (more : List (Procedure ω σ)) : Knows (made ++ more) t := by
  intro key h hget
  have hmade := ht key h hget
  have hlt : h.id < made.length := (List.getElem?_eq_some_iff.1 hmade).1
  rw [List.getElem?_append_left hlt, hmade]

theorem insert (ht : Knows made t) (key : String) {n : Nat} {p : Procedure ω σ}
    (hp : made[n]? = some p) : Knows made (t.insert key ⟨n, p⟩) := by
  intro other h hget
  rw [OrderedMap.get?_insert] at hget
  split at hget
  · obtain rfl := Option.some.inj hget
    exact hp
  · exact ht other h hget

theorem layer (ho : Knows made o) (hb : Knows made b) : Knows made (Table.layer o b) :=
  Table.forall_get?_layer ho hb

/-- A table made from procedures has them from where they were added. -/
theorem ofProcedures (made : List (Procedure ω σ)) (ps : List (String × Procedure ω σ)) :
    Knows (made ++ ps.map Prod.snd) (Table.ofProcedures made.length ps) := by
  intro key h hget
  have hmem := (OrderedMap.mem_of_get?_insertAll hget).resolve_left fun h => nomatch h
  rw [List.mem_mapIdx] at hmem
  obtain ⟨i, hi, heq⟩ := hmem
  obtain ⟨rfl, rfl⟩ := Prod.mk.inj heq
  rw [List.getElem?_append_right (Nat.le_add_right ..), Nat.add_sub_cancel_left,
    List.getElem?_map, List.getElem?_eq_getElem hi]
  rfl

end Knows

namespace Sound

variable {s : Stock ω σ}

theorem add (hs : s.Sound) {t : Table ω σ} (ht : Knows s.made t) : (s.add t).Sound := by
  intro u hu
  rcases List.mem_append.1 hu with hu | hu
  · exact hs u hu
  · obtain rfl := List.mem_singleton.1 hu
    exact ht

/-- Handlers made later change nothing. -/
theorem append (hs : s.Sound) (more : List (Procedure ω σ)) :
    Sound { s with made := s.made ++ more } :=
  fun t ht => (hs t ht).append more

theorem addBase (hs : s.Sound) {change : Table ω σ → Table ω σ}
    (hchange : ∀ made t, s.made <+: made → Knows made t → Knows made (change t)) :
    (s.addBase change).Sound :=
  (hs.append _).add (hchange _ _ (List.prefix_append ..) (.ofProcedures s.made Default.procedures))

/-- Changing one table. -/
theorem modify (hs : s.Sound) (i : Nat) {change : Table ω σ → Table ω σ}
    (hchange : ∀ t, Knows s.made t → Knows s.made (change t)) :
    Sound { s with tables := s.tables.modify i change } := by
  intro t ht
  obtain ⟨j, hj⟩ := List.mem_iff_getElem?.1 ht
  rw [List.getElem?_modify] at hj
  obtain ⟨u, hu, rfl⟩ := Option.map_eq_some_iff.1 hj
  have hknows : Knows s.made u := hs u (List.mem_of_getElem? hu)
  split
  · exact hchange u hknows
  · exact hknows

/-- **No operation puts a handler under an identity that is not its own.** -/
theorem perform (hs : s.Sound) (op : Operation ω σ) : (s.perform op).Sound := by
  cases op with
  | handler p => exact hs.append [p]
  | new => exact hs.add .empty
  | base => exact hs.addBase fun _ _ _ ht => ht
  | insert i key p =>
    refine (hs.append [p]).modify i ?_
    intro t ht
    exact ht.insert key List.getElem?_concat_length
  | insertHandler i key n =>
    rw [Stock.perform]
    split
    · rename_i p hp
      exact hs.modify i fun t ht => ht.insert key hp
    · exact hs
  | clone i =>
    rw [Stock.perform]
    split
    · rename_i t ht
      exact hs.add (hs t (List.mem_of_getElem? ht))
    · exact hs
  | make i base =>
    rw [Stock.perform]
    split
    · rename_i o ho _
      have hknows := hs o (List.mem_of_getElem? ho)
      refine hs.addBase ?_
      rintro _ t ⟨more, rfl⟩ ht
      exact (hknows.append more).layer ht
    · rename_i o b ho hb
      obtain ⟨j, -, hb⟩ := Option.map_eq_some_iff.1 hb
      exact hs.add ((hs o (List.mem_of_getElem? ho)).layer (hs b (List.mem_of_getElem? hb)))
    · exact hs

end Sound

/-- **Whatever a program does, its tables have their handlers from its stock.** -/
theorem sound_after (ops : List (Operation ω σ)) : (after ops).Sound := by
  have hfold (s : Stock ω σ) (hs : s.Sound) : (ops.foldl perform s).Sound := by
    induction ops generalizing s with
    | nil => exact hs
    | cons op ops ih => exact ih _ (hs.perform op)
  exact hfold start fun t ht => nomatch ht

/-- In the tables of a program, handlers of one identity are one and the same. -/
theorem Knows.eq_of_id {made : List (Procedure ω σ)} {a b : Table ω σ} (ha : Knows made a)
    (hb : Knows made b) {key other : String} {g h : Handler ω σ} (hg : a.get? key = some g)
    (hh : b.get? other = some h) (hid : g.id = h.id) : g = h := by
  have hrun : some g.run = some h.run := by
    rw [← ha key g hg, ← hb other h hh, hid]
  cases g
  cases h
  obtain rfl := hid
  obtain rfl := Option.some.inj hrun
  rfl

/-- **Equal tables of a program have the very same handlers under the same keys.** -/
theorem equal_iff_same {ops : List (Operation ω σ)} {a b : Table ω σ}
    (ha : a ∈ (after ops).tables) (hb : b ∈ (after ops).tables) :
    Table.equal a b = true ↔ ∀ key, a.get? key = b.get? key := by
  rw [Table.equal_iff]
  refine forall_congr' fun key => ?_
  rw [Table.identity?, Table.identity?]
  constructor
  · intro h
    cases hg : a.get? key with
    | none =>
      rw [hg, Option.map_none, eq_comm, Option.map_eq_none_iff] at h
      exact h.symm
    | some g =>
      rw [hg, Option.map_some, eq_comm, Option.map_eq_some_iff] at h
      obtain ⟨g', hg', hid⟩ := h
      have hsame : g' = g := (sound_after ops b hb).eq_of_id (sound_after ops a ha) hg' hg hid
      rw [hg', hsame]
  · intro h
    rw [h]

end Stock

end TreeWalk
