/-
What normalizing does to a value.

A value whose objects have their names in order is normal already.  Where no object names
a member twice, members change places when the value is normalized, and that is all:
nothing is lost and nothing is added.
-/
import Mathlib.Data.List.Nodup
import TreeWalk.Proofs.Json.ReadBack

namespace TreeWalk.Json

/-- Names in ascending order; none of them occurs twice then. -/
def Ascending (names : List String) : Prop := names.Pairwise (· < ·)

instance (names : List String) : Decidable (Ascending names) :=
  inferInstanceAs (Decidable (names.Pairwise _))

/-- One value is the other with the members of objects in a different order. -/
inductive Rearranged : Json → Json → Prop where
  | refl (v : Json) : Rearranged v v
  | trans {u v w : Json} (huv : Rearranged u v) (hvw : Rearranged v w) : Rearranged u w
  | members {members others : List (String × Json)} (h : members.Perm others) :
    Rearranged (.obj members) (.obj others)
  | item {v w : Json} (h : Rearranged v w) (before after : List Json) :
    Rearranged (.arr (before ++ v :: after)) (.arr (before ++ w :: after))
  | member {v w : Json} (h : Rearranged v w) (name : String) (before after : List (String × Json)) :
    Rearranged (.obj (before ++ (name, v) :: after)) (.obj (before ++ (name, w) :: after))

theorem normalizeItems_eq (items : List Json) : normalizeItems items = items.map normalize := by
  induction items with
  | nil => rfl
  | cons v rest ih => rw [normalizeItems, ih, List.map_cons]

/-! ### Names in order -/

/-- A name that is behind all others is filed at the end. -/
theorem insertMember_of_lt {name : String} {done : List (String × Json)}
    (h : ∀ other ∈ done.map Prod.fst, other < name) (v : Json) :
    insertMember name v done = done ++ [(name, v)] := by
  induction done with
  | nil => rfl
  | cons m rest ih =>
    obtain ⟨other, w⟩ := m
    have hlt : other < name := h other (List.mem_cons_self ..)
    have hne : name ≠ other := by
      rintro rfl
      exact String.lt_irrefl name hlt
    rw [insertMember, if_neg (String.lt_asymm hlt), if_neg hne,
      ih fun n hn => h n (List.mem_cons_of_mem _ hn), List.cons_append]

theorem normalizeMembers_of_ascending {done rest : List (String × Json)}
    (hnames : Ascending ((done ++ rest).map Prod.fst))
    (hrest : ∀ m ∈ rest, m.2.normalize = m.2) : normalizeMembers done rest = done ++ rest := by
  induction rest generalizing done with
  | nil => rw [normalizeMembers, List.append_nil]
  | cons m rest ih =>
    obtain ⟨name, v⟩ := m
    have hv : v.normalize = v := hrest (name, v) (List.mem_cons_self ..)
    have hlt : ∀ other ∈ done.map Prod.fst, other < name := by
      intro other hother
      rw [Ascending, List.map_append, List.pairwise_append] at hnames
      exact hnames.2.2 other hother name (List.mem_cons_self ..)
    rw [List.append_cons] at hnames
    rw [normalizeMembers, hv, insertMember_of_lt hlt,
      ih hnames fun m hm => hrest m (List.mem_cons_of_mem _ hm), ← List.append_cons]

/-- **A value with names in order is normal.** -/
theorem Plain.normalize_eq {v : Json} (h : v.Plain Ascending) : v.normalize = v := by
  induction h with
  | null => rfl
  | bool b => rfl
  | str s => rfl
  | int hfits => rfl
  | @arr items _ ih =>
    have hitems : items.map normalize = items.map id := List.map_congr_left ih
    rw [normalize, normalizeItems_eq, hitems, List.map_id]
  | @obj members hnames _ ih =>
    have hnormal := normalizeMembers_of_ascending
      (show Ascending (([] ++ members).map Prod.fst) from hnames) ih
    rw [normalize, hnormal, List.nil_append]

/-! ### Names that differ -/

theorem perm_insertMember {name : String} {done : List (String × Json)}
    (h : name ∉ done.map Prod.fst) (v : Json) :
    (insertMember name v done).Perm ((name, v) :: done) := by
  induction done with
  | nil => exact .refl _
  | cons m rest ih =>
    obtain ⟨other, w⟩ := m
    have hne : name ≠ other := List.ne_of_not_mem_cons h
    have hrest : name ∉ rest.map Prod.fst := List.not_mem_of_not_mem_cons h
    rw [insertMember, if_neg hne]
    split
    · exact .refl _
    · exact ((ih hrest).cons _).trans (.swap ..)

theorem perm_normalizeMembers {done rest : List (String × Json)}
    (hnames : ((done ++ rest).map Prod.fst).Nodup) :
    (normalizeMembers done rest).Perm (done ++ rest.map fun m => (m.1, m.2.normalize)) := by
  induction rest generalizing done with
  | nil =>
    rw [normalizeMembers, List.map_nil, List.append_nil]
  | cons m rest ih =>
    obtain ⟨name, v⟩ := m
    rw [List.map_append, List.map_cons, List.nodup_middle, List.nodup_cons] at hnames
    have hfresh : name ∉ done.map Prod.fst := fun hname =>
      hnames.1 (List.mem_append_left _ hname)
    have hinsert := perm_insertMember hfresh v.normalize
    -- What is filed already still has distinct names, in whatever order they are now.
    have hnames' : ((insertMember name v.normalize done ++ rest).map Prod.fst).Nodup := by
      rw [((hinsert.append_right rest).map Prod.fst).nodup_iff, List.cons_append, List.map_cons,
        List.map_append]
      exact List.nodup_cons.2 hnames
    rw [normalizeMembers, List.map_cons]
    exact (ih hnames').trans ((hinsert.append_right _).trans List.perm_middle.symm)

theorem Rearranged.items {rest : List Json} (h : ∀ v ∈ rest, v.Rearranged v.normalize)
    (done : List Json) :
    Rearranged (.arr (done ++ rest)) (.arr (done ++ rest.map normalize)) := by
  induction rest generalizing done with
  | nil => exact .refl _
  | cons v rest ih =>
    have hv := (h v (List.mem_cons_self ..)).item done rest
    have hrest := ih (fun w hw => h w (List.mem_cons_of_mem _ hw)) (done ++ [v.normalize])
    rw [← List.append_cons, ← List.append_cons] at hrest
    exact hv.trans hrest

theorem Rearranged.each {rest : List (String × Json)}
    (h : ∀ m ∈ rest, m.2.Rearranged m.2.normalize) (done : List (String × Json)) :
    Rearranged (.obj (done ++ rest))
      (.obj (done ++ rest.map fun m => (m.1, m.2.normalize))) := by
  induction rest generalizing done with
  | nil => exact .refl _
  | cons m rest ih =>
    obtain ⟨name, v⟩ := m
    have hv := (h (name, v) (List.mem_cons_self ..)).member name done rest
    have hrest := ih (fun m hm => h m (List.mem_cons_of_mem _ hm)) (done ++ [(name, v.normalize)])
    rw [← List.append_cons, ← List.append_cons] at hrest
    exact hv.trans hrest

/-- **A value without repeated names is rearranged when it is normalized.** -/
theorem Plain.rearranged {v : Json} (h : v.Plain List.Nodup) : v.Rearranged v.normalize := by
  induction h with
  | null => exact .refl _
  | bool b => exact .refl _
  | str s => exact .refl _
  | int hfits => exact .refl _
  | arr _ ih =>
    rw [normalize, normalizeItems_eq]
    exact Rearranged.items ih []
  | @obj members hnames _ ih =>
    have hperm := perm_normalizeMembers (show (([] ++ members).map Prod.fst).Nodup from hnames)
    exact (Rearranged.each ih []).trans (.members hperm.symm)

end TreeWalk.Json
