/-
What comes of inserting entries one after another.

The last entry under a name is the one that stays, and a name keeps the place that it had
first.  Both show in the two views of a map: `get?_insertAll` finds a name among the entries,
the last one first, and otherwise in the map that they go into; `keys_ofList` keeps of each
name the first mention.  Entries that come from a map mention no name twice, so their order
is no matter for what is found, and inserting them lays one map over another.
-/
import Mathlib.Data.List.Induction
import TreeWalk.OrderedMap

namespace TreeWalk

namespace OrderedMap

variable {α : Type} {es fs : List (String × α)} {m : OrderedMap α} {name : String} {a : α}

/-! ### Lists of entries -/

theorem find?_eq_lookup (es : List (String × α)) (name : String) :
    find? name es = es.lookup name := by
  induction es with
  | nil => rfl
  | cons e rest ih =>
    obtain ⟨k, v⟩ := e
    by_cases hk : k = name
    · simp [find?, hk]
    · rw [find?, if_neg hk, List.lookup_cons, beq_eq_false_iff_ne.2 (Ne.symm hk), ih]

/-- Where no name is there twice, the order of the entries is no matter. -/
theorem find?_perm (h : es.Perm fs) (hn : (es.map Prod.fst).Nodup) (name : String) :
    find? name es = find? name fs := by
  induction h with
  | nil => rfl
  | cons e _ ih =>
    rw [List.map_cons, List.nodup_cons] at hn
    rw [find?, find?, ih hn.2]
  | swap e f rest =>
    have hne : f.1 ≠ e.1 := by
      rw [List.map_cons, List.nodup_cons] at hn
      exact fun heq => hn.1 (heq ▸ List.mem_cons_self)
    simp only [find?]
    split <;> split <;> simp_all
  | trans h₁ _ ih₁ ih₂ => exact (ih₁ hn).trans (ih₂ ((h₁.map Prod.fst).nodup hn))

theorem find?_reverse (hn : (es.map Prod.fst).Nodup) (name : String) :
    find? name es.reverse = find? name es :=
  (find?_perm es.reverse_perm.symm hn name).symm

/-- Where no name is there twice, each entry is found. -/
theorem find?_of_mem (hn : (es.map Prod.fst).Nodup) (h : (name, a) ∈ es) :
    find? name es = some a := by
  induction es with
  | nil => cases h
  | cons e rest ih =>
    rw [List.map_cons, List.nodup_cons] at hn
    rw [find?]
    rcases List.mem_cons.1 h with rfl | h
    · rw [if_pos rfl]
    · have hne : e.1 ≠ name := fun heq => hn.1 (heq ▸ List.mem_map_of_mem h)
      rw [if_neg hne, ih hn.2 h]

/-! ### Inserting entries -/

/-- An entry of a map that something was inserted into is that or was there. -/
theorem of_mem_put {e : String × α} (h : e ∈ put name a es) : e = (name, a) ∨ e ∈ es := by
  induction es with
  | nil => exact .inl (List.mem_singleton.1 h)
  | cons f rest ih =>
    obtain ⟨k, v⟩ := f
    rw [put] at h
    split at h
    next hk =>
      rcases List.mem_cons.1 h with rfl | h
      · exact .inl (by rw [hk])
      · exact .inr (List.mem_cons_of_mem _ h)
    next =>
      rcases List.mem_cons.1 h with rfl | h
      · exact .inr (List.mem_cons_self ..)
      · exact (ih h).imp_right (List.mem_cons_of_mem _)

/-- Inserts a list of entries into a map, one after another. -/
def insertAll (m : OrderedMap α) (es : List (String × α)) : OrderedMap α :=
  es.foldl (fun m (name, value) => m.insert name value) m

theorem ofList_eq_insertAll (es : List (String × α)) : ofList es = empty.insertAll es := rfl

/-- **What is found is what was inserted last, and else what was there.** -/
theorem get?_insertAll (m : OrderedMap α) (es : List (String × α)) (name : String) :
    (m.insertAll es).get? name = (es.reverse.lookup name).or (m.get? name) := by
  induction es using List.reverseRecOn with
  | nil => rfl
  | append_singleton es e ih =>
    obtain ⟨k, v⟩ := e
    rw [insertAll, List.foldl_append, List.reverse_append]
    show ((m.insertAll es).insert k v).get? name = (((k, v) :: es.reverse).lookup name).or _
    rw [get?_insert, ih, List.lookup_cons]
    by_cases hk : k = name
    · rw [if_pos hk, beq_iff_eq.2 hk.symm, Option.some_or]
    · rw [if_neg hk, beq_eq_false_iff_ne.2 (Ne.symm hk)]

/-- What a name stands for was there or was inserted. -/
theorem mem_of_get?_insertAll (h : (m.insertAll es).get? name = some a) :
    m.get? name = some a ∨ (name, a) ∈ es := by
  rw [get?_insertAll, Option.or_eq_some_iff] at h
  rcases h with h | ⟨-, h⟩
  · rw [List.lookup_eq_some_iff] at h
    obtain ⟨before, after, heq, -⟩ := h
    exact .inr (List.mem_reverse.1 (heq ▸ by simp))
  · exact .inl h

/-- Names that are inserted come after those that were there. -/
theorem keys_prefix_insertAll (es : List (String × α)) (m : OrderedMap α) :
    m.keys <+: (m.insertAll es).keys := by
  induction es generalizing m with
  | nil => exact List.prefix_refl _
  | cons e es ih =>
    have hinsert : m.keys <+: (m.insert e.1 e.2).keys := by
      rw [keys_insert]
      split
      · exact List.prefix_refl _
      · exact List.prefix_append ..
    exact hinsert.trans (ih _)

/-- Inserting the entries of a map lays it over another. -/
theorem get?_insertAll_entries (m n : OrderedMap α) (name : String) :
    (m.insertAll n.entries).get? name = (n.get? name).or (m.get? name) := by
  rw [get?_insertAll, ← find?_eq_lookup, find?_reverse n.nodup_keys]
  rfl

/-! ### Maps made from entries -/

/-- The names of a map are those inserted, each where it was inserted first. -/
theorem keys_ofList (es : List (String × α)) :
    (ofList es).keys = (es.map Prod.fst).eraseDups := by
  induction es using List.reverseRecOn with
  | nil => rfl
  | append_singleton es e ih =>
    rw [ofList, List.foldl_append, List.map_append, List.eraseDups_append, ← ih]
    show ((ofList es).insert e.1 e.2).keys = _
    have hmem : e.1 ∈ (ofList es).keys ↔ e.1 ∈ es.map Prod.fst := by rw [ih, List.mem_eraseDups]
    rw [keys_insert]
    by_cases he : e.1 ∈ es.map Prod.fst
    · have hremoved : [e.1].removeAll (es.map Prod.fst) = [] := by simpa [List.removeAll] using he
      rw [if_pos (hmem.2 he), List.map_singleton, hremoved, List.eraseDups_nil, List.append_nil]
    · have hkept : [e.1].removeAll (es.map Prod.fst) = [e.1] := by simpa [List.removeAll] using he
      rw [if_neg (mt hmem.1 he), List.map_singleton, hkept, List.eraseDups_cons,
        List.filter_nil, List.eraseDups_nil]

/-- A name stands for what was inserted under it last. -/
theorem get?_ofList_eq_lookup (es : List (String × α)) (name : String) :
    (ofList es).get? name = es.reverse.lookup name := by
  rw [ofList_eq_insertAll, get?_insertAll, get?_empty, Option.or_none]

/-- A map has no entry that it is not made from. -/
theorem get?_ofList_of_not_mem (h : name ∉ es.map Prod.fst) : (ofList es).get? name = none := by
  rw [get?_ofList_eq_lookup, List.lookup_eq_none_iff]
  intro e he
  have hne : name ≠ e.1 := by
    rintro rfl
    exact h (List.mem_map_of_mem (List.mem_reverse.1 he))
  simpa using hne

/-- Where no name is given twice, a map has every entry that it is made from. -/
theorem get?_ofList (hn : (es.map Prod.fst).Nodup) (h : (name, a) ∈ es) :
    (ofList es).get? name = some a := by
  rw [get?_ofList_eq_lookup, ← find?_eq_lookup, find?_reverse hn, find?_of_mem hn h]

/-- A map that is made from a function on some names has its values there. -/
theorem get?_ofList_map (f : String → α) (names : List String) (name : String) :
    (ofList (names.map fun name => (name, f name))).get? name =
      if name ∈ names then some (f name) else none := by
  by_cases hname : name ∈ names
  · have hkey : name ∈ (ofList (names.map fun name => (name, f name))).keys := by
      rw [keys_ofList, List.mem_eraseDups]
      simpa using hname
    obtain ⟨a, ha⟩ := (mem_keys_iff _ _).1 hkey
    -- whatever is found comes from an entry, and all entries under the name are the same
    have hmem : (name, a) ∈ names.map fun name => (name, f name) :=
      (mem_of_get?_insertAll ha).resolve_left fun h => nomatch h
    obtain ⟨_, -, heq⟩ := List.mem_map.1 hmem
    obtain ⟨rfl, rfl⟩ := Prod.mk.inj heq
    rw [if_pos hname, ha]
  · rw [if_neg hname]
    refine get?_ofList_of_not_mem ?_
    simpa using hname

end OrderedMap

end TreeWalk
