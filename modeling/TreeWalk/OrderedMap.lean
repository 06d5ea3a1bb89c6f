/-
Maps by name that keep the order of insertion.

A name put in again keeps its place and takes the new value, so the order of the
names is the order of their first insertion.  The entries are a list in which no
name occurs twice; that invariant is part of the type, and the lemmas say what each
operation does to `get?` and to `keys`, the two views of a map.
-/

namespace TreeWalk

/-- A map from names to values, in order of insertion. -/
structure OrderedMap (α : Type) where
  entries : List (String × α)
  nodup_keys : (entries.map Prod.fst).Nodup

namespace OrderedMap

variable {α β : Type}

/-! ### Lists of entries -/

/-- The value of a name in a list of entries. -/
def find? (name : String) : List (String × α) → Option α
  | [] => none
  | (k, v) :: rest => if k = name then some v else find? name rest

/-- Replaces the value of a name in place, or adds the name at the end. -/
def put (name : String) (value : α) : List (String × α) → List (String × α)
  | [] => [(name, value)]
  | (k, v) :: rest => if k = name then (k, value) :: rest else (k, v) :: put name value rest

theorem keys_put (name : String) (value : α) (es : List (String × α)) :
    (put name value es).map Prod.fst =
      if name ∈ es.map Prod.fst then es.map Prod.fst else es.map Prod.fst ++ [name] := by
  induction es with
  | nil => simp [put]
  | cons e rest ih =>
    obtain ⟨k, v⟩ := e
    by_cases h : k = name
    · simp [put, h]
    · have h' : ¬ name = k := fun e => h e.symm
      simp only [put, if_neg h, List.map_cons, ih, List.mem_cons, h', false_or]
      split <;> rfl

theorem nodup_put {es : List (String × α)} (name : String) (value : α)
    (h : (es.map Prod.fst).Nodup) : ((put name value es).map Prod.fst).Nodup := by
  rw [keys_put]
  split
  · exact h
  · rename_i hmem
    rw [List.nodup_append]
    refine ⟨h, by simp, fun a ha b hb => ?_⟩
    rintro rfl
    exact hmem (List.mem_singleton.1 hb ▸ ha)

theorem find?_put (name other : String) (value : α) (es : List (String × α)) :
    find? other (put name value es) = if name = other then some value else find? other es := by
  induction es with
  | nil => simp [put, find?]
  | cons e rest ih =>
    obtain ⟨k, v⟩ := e
    by_cases h : k = name
    · subst h
      by_cases ho : k = other <;> simp [put, find?, ho]
    · by_cases ho : k = other
      · subst ho
        have : ¬ name = k := fun e => h e.symm
        simp [put, find?, h, this]
      · simp [put, find?, h, ho, ih]

theorem isSome_find? (name : String) (es : List (String × α)) :
    (find? name es).isSome = decide (name ∈ es.map Prod.fst) := by
  induction es with
  | nil => simp [find?]
  | cons e rest ih =>
    obtain ⟨k, v⟩ := e
    by_cases h : k = name
    · simp [find?, h]
    · have h' : ¬ name = k := fun e => h e.symm
      simp [find?, h, h', ih]

theorem find?_map (f : String → α → β) (name : String) (es : List (String × α)) :
    find? name (es.map fun (k, v) => (k, f k v)) = (find? name es).map (f name) := by
  induction es with
  | nil => rfl
  | cons e rest ih =>
    obtain ⟨k, v⟩ := e
    by_cases h : k = name
    · subst h
      simp [find?]
    · simp [find?, h, ih]

theorem find?_filter (p : String → Bool) (name : String) (es : List (String × α)) :
    find? name (es.filter fun e => p e.1) = if p name then find? name es else none := by
  induction es with
  | nil => simp [find?]
  | cons e rest ih =>
    obtain ⟨k, v⟩ := e
    by_cases h : k = name
    · subst h
      by_cases hp : p k <;> simp [find?, hp, ih]
    · by_cases hp : p k <;> simp [find?, hp, h, ih]

theorem eq_of_find? {es fs : List (String × α)} (hn : (es.map Prod.fst).Nodup)
    (hk : es.map Prod.fst = fs.map Prod.fst) (h : ∀ name, find? name es = find? name fs) :
    es = fs := by
  induction es generalizing fs with
  | nil => exact (List.map_eq_nil_iff.1 hk.symm).symm
  | cons e rest ih =>
    obtain ⟨k, v⟩ := e
    match fs, hk with
    | (l, w) :: others, hk =>
      simp only [List.map_cons, List.cons.injEq] at hk
      obtain ⟨rfl, hk⟩ := hk
      have hv : v = w := by simpa [find?] using h k
      subst hv
      rw [List.map_cons, List.nodup_cons] at hn
      refine congrArg _ (ih hn.2 hk fun name => ?_)
      by_cases hname : k = name
      · subst hname
        have absent {gs : List (String × α)} (hg : k ∉ gs.map Prod.fst) : find? k gs = none := by
          have := isSome_find? k gs
          rw [decide_eq_false hg] at this
          simpa using this
        rw [absent hn.1, absent (hk ▸ hn.1)]
      · simpa [find?, hname] using h name

/-! ### Maps -/

/-- The map without entries. -/
def empty : OrderedMap α := ⟨[], by simp⟩

instance : Inhabited (OrderedMap α) := ⟨empty⟩

/-- The value under a name. -/
def get? (m : OrderedMap α) (name : String) : Option α := find? name m.entries

/-- Whether there is a value under a name. -/
def contains (m : OrderedMap α) (name : String) : Bool := (m.get? name).isSome

/-- The names, in the order of their first insertion. -/
def keys (m : OrderedMap α) : List String := m.entries.map Prod.fst

/-- The number of names. -/
def size (m : OrderedMap α) : Nat := m.entries.length

/-- Whether there is no name at all. -/
def isEmpty (m : OrderedMap α) : Bool := m.entries.isEmpty

/-- Puts a value under a name, in place if the name is known and at the end if not. -/
def insert (m : OrderedMap α) (name : String) (value : α) : OrderedMap α :=
  ⟨put name value m.entries, nodup_put name value m.nodup_keys⟩

/-- Inserts a list of entries one after another. -/
def ofList (es : List (String × α)) : OrderedMap α :=
  es.foldl (fun m (name, value) => m.insert name value) empty

/-- Replaces every value by one computed from its name and itself. -/
def mapValues (f : String → α → β) (m : OrderedMap α) : OrderedMap β :=
  ⟨m.entries.map fun (k, v) => (k, f k v), by
    have : (m.entries.map fun (k, v) => (k, f k v)).map Prod.fst = m.entries.map Prod.fst := by
      simp
    rw [this]
    exact m.nodup_keys⟩

/-- Keeps the entries whose name passes the test. -/
def filterKeys (p : String → Bool) (m : OrderedMap α) : OrderedMap α :=
  ⟨m.entries.filter fun e => p e.1,
    m.nodup_keys.sublist (List.Sublist.map _ List.filter_sublist)⟩

/-- **A map is what its keys and its values are.** -/
theorem ext_get? {m n : OrderedMap α} (hk : m.keys = n.keys)
    (h : ∀ name, m.get? name = n.get? name) : m = n := by
  have := eq_of_find? m.nodup_keys hk h
  cases m; cases n
  cases this
  rfl

@[simp] theorem get?_empty (name : String) : (empty : OrderedMap α).get? name = none := rfl

theorem get?_insert (m : OrderedMap α) (name other : String) (value : α) :
    (m.insert name value).get? other = if name = other then some value else m.get? other :=
  find?_put name other value m.entries

theorem keys_insert (m : OrderedMap α) (name : String) (value : α) :
    (m.insert name value).keys = if name ∈ m.keys then m.keys else m.keys ++ [name] :=
  keys_put name value m.entries

theorem contains_iff (m : OrderedMap α) (name : String) :
    m.contains name = true ↔ name ∈ m.keys := by
  simp [contains, get?, isSome_find?, keys]

theorem get?_eq_none_iff (m : OrderedMap α) (name : String) :
    m.get? name = none ↔ name ∉ m.keys := by
  rw [← contains_iff, contains, Option.not_isSome_iff_eq_none]

theorem mem_keys_iff (m : OrderedMap α) (name : String) :
    name ∈ m.keys ↔ ∃ value, m.get? name = some value := by
  rw [← contains_iff, contains, Option.isSome_iff_exists]

/-- Maps have the same under every name if they have the same names and the same under each. -/
theorem forall_get?_eq_iff {m n : OrderedMap α} :
    (∀ name, m.get? name = n.get? name) ↔ (∀ name, name ∈ m.keys ↔ name ∈ n.keys) ∧
      ∀ name a b, m.get? name = some a → n.get? name = some b → a = b := by
  constructor
  · intro h
    refine ⟨fun name => ?_, fun name a b ha hb => ?_⟩
    · rw [mem_keys_iff, mem_keys_iff, h]
    · rw [h, hb] at ha
      exact (Option.some.inj ha).symm
  · intro ⟨hkeys, hvalues⟩ name
    by_cases hname : name ∈ m.keys
    · obtain ⟨a, ha⟩ := (mem_keys_iff m name).1 hname
      obtain ⟨b, hb⟩ := (mem_keys_iff n name).1 ((hkeys name).1 hname)
      rw [ha, hb, hvalues name a b ha hb]
    · rw [(get?_eq_none_iff m name).2 hname,
        (get?_eq_none_iff n name).2 fun h => hname ((hkeys name).2 h)]

@[simp] theorem keys_empty : (empty : OrderedMap α).keys = [] := rfl

@[simp] theorem length_keys (m : OrderedMap α) : m.keys.length = m.size := by simp [keys, size]

theorem nodup (m : OrderedMap α) : m.keys.Nodup := m.nodup_keys

@[simp] theorem get?_mapValues (f : String → α → β) (m : OrderedMap α) (name : String) :
    (m.mapValues f).get? name = (m.get? name).map (f name) :=
  find?_map f name m.entries

@[simp] theorem get?_filterKeys (p : String → Bool) (m : OrderedMap α) (name : String) :
    (m.filterKeys p).get? name = if p name then m.get? name else none :=
  find?_filter p name m.entries

@[simp] theorem keys_filterKeys (p : String → Bool) (m : OrderedMap α) :
    (m.filterKeys p).keys = m.keys.filter p := by
  simp only [filterKeys, keys, List.filter_map]
  rfl

@[simp] theorem keys_mapValues (f : String → α → β) (m : OrderedMap α) :
    (m.mapValues f).keys = m.keys := by simp [mapValues, keys]

end OrderedMap

end TreeWalk
