/-
Which texts load.

A text loads as a tree exactly if it is read as a value no deeper than documents may be, and the
value is decoded to the tree: `Node.load_iff`.

The outermost object is judged while it is read, but no tree is lost by that.  A member is judged
by its mark there as its value is judged by the decoding, so members whose offsets are decoded
raise no complaint.
-/
import TreeWalk.Proofs.Document.Decoding
import TreeWalk.Proofs.Document.Nesting
import TreeWalk.Proofs.Json.Spelling

namespace TreeWalk

namespace Document

/-! ### The outermost object -/

theorem offsetComplaint_mark {v : Json} {o : Option Offset} (h : Decode.offset v = .ok o)
    (before after : Nat) : offsetComplaint (v.mark before after) = none := by
  cases v with
  | arr items => cases h
  | obj members => cases h
  | _ => simp only [Json.mark, offsetComplaint, h]

/-- What it takes to decode the offsets from a member on: it is one of the two, for the first time,
or it is neither. -/
theorem offsets_cons {name : String} {v : Json} {rest : List (String × Json)}
    {start stop : Option (Option Offset)} {offsets : Option Offset × Option Offset}
    (h : Decode.offsets start stop ((name, v) :: rest) = .ok offsets) :
    (name = "start" ∧ start = none ∧
        ∃ o, Decode.offset v = .ok o ∧ Decode.offsets (some o) stop rest = .ok offsets) ∨
      (name = "end" ∧ stop = none ∧
        ∃ o, Decode.offset v = .ok o ∧ Decode.offsets start (some o) rest = .ok offsets) ∨
      (name ≠ "start" ∧ name ≠ "end" ∧ Decode.offsets start stop rest = .ok offsets) := by
  rw [Decode.offsets] at h
  split at h
  · rename_i hstart
    cases start with
    | some o => cases h
    | none =>
      cases ho : Decode.offset v with
      | error fault => rw [ho] at h; cases h
      | ok o => rw [ho] at h; exact .inl ⟨hstart, rfl, o, rfl, h⟩
  · rename_i hstart
    split at h
    · rename_i hend
      cases stop with
      | some o => cases h
      | none =>
        cases ho : Decode.offset v with
        | error fault => rw [ho] at h; cases h
        | ok o => rw [ho] at h; exact .inr (.inl ⟨hend, rfl, o, rfl, h⟩)
    · rename_i hend
      exact .inr (.inr ⟨hstart, hend, h⟩)

/-- Members whose offsets are decoded raise no complaint. -/
theorem memberComplaint_of_offsets {members : List (String × Json)} {noted : List Json.Mark}
    (hnoted : Json.Noted members noted) {start stop : Option (Option Offset)}
    {offsets : Option Offset × Option Offset}
    (h : Decode.offsets start stop members = .ok offsets) :
    memberComplaint start.isSome stop.isSome noted = none := by
  induction hnoted generalizing start stop with
  | nil => rfl
  | @cons name v rest marks closed before after hnoted ih =>
    rcases offsets_cons h with ⟨rfl, rfl, o, ho, hrest⟩ | ⟨rfl, rfl, o, ho, hrest⟩ |
      ⟨hstart, hend, hrest⟩
    · have hmarks : memberComplaint true stop.isSome marks = none := ih hrest
      simp [memberComplaint, offsetComplaint_mark ho, hmarks]
    · have hmarks : memberComplaint start.isSome true marks = none := ih hrest
      simp [memberComplaint, offsetComplaint_mark ho, hmarks]
    · have hmarks : memberComplaint start.isSome stop.isSome marks = none := ih hrest
      simp [memberComplaint, hstart, hend, beq_false_of_ne hstart, beq_false_of_ne hend, hmarks]

theorem offsets_of_value {members : List (String × Json)} {n : Node}
    (h : Decode.value .node (.obj members) = .ok n) :
    ∃ offsets, Decode.offsets none none members = .ok offsets := by
  cases hoffsets : Decode.offsets none none members with
  | error fault =>
    rw [Decode.value, Decode.nodeOf, hoffsets] at h
    cases h
  | ok offsets => exact ⟨offsets, rfl⟩

/-- Only an object is a node. -/
theorem exists_obj_of_ofJson {v : Json} {n : Node} (h : Node.ofJson v = .ok n) :
    ∃ members, v = .obj members := by
  cases v with
  | obj members => exact ⟨members, rfl⟩
  | _ => cases h

/-- A text is decoded exactly if its value is. -/
theorem decode_eq_ok {text : String} {n : Node} :
    decode text.toList = .ok n ↔ ∃ v, Json.parse text = .ok v ∧ Node.ofJson v = .ok n := by
  simp only [Json.parse_eq_ok, Json.Input.ofString]
  constructor
  · intro h
    unfold decode at h
    dsimp only at h
    split at h
    · cases h
    · cases h
    · rename_i v rest _ hread
      split at h
      · cases h
      · rename_i hv
        split at h
        · rename_i hblanks
          obtain rfl := Except.ok.inj h
          exact ⟨v, ⟨rest, hread, List.dropWhile_eq_nil_iff.1 (List.isEmpty_iff.1 hblanks)⟩, hv⟩
        · cases h
  · rintro ⟨v, ⟨rest, hread, hblanks⟩, hv⟩
    obtain ⟨members, rfl⟩ := exists_obj_of_ofJson hv
    cases hread' : Json.readValue ⟨text.toList, 0⟩ with
    | mk reading marks =>
      obtain rfl : reading = .value (.obj members) rest := by rw [hread'] at hread; exact hread
      obtain ⟨before, noted, rfl, hnoted⟩ := Json.noted_of_readValue hread'
      obtain ⟨offsets, hoffsets⟩ := offsets_of_value hv
      have hcomplaint : complaint? (.opener false before :: noted) = none :=
        memberComplaint_of_offsets hnoted hoffsets
      have hend : rest.skipBlanks.rest.isEmpty = true :=
        List.isEmpty_iff.2 (List.dropWhile_eq_nil_iff.2 hblanks)
      simp only [decode, hread', hcomplaint, hv, hend, if_true]

end Document

namespace Node

/-- **A text loads exactly if its value is decoded**, and is no deeper than documents may be. -/
theorem load_iff {text : String} {n : Node} :
    load text = .ok n ↔ ∃ v, Json.parse text = .ok v ∧ v.depth ≤ 2048 ∧ ofJson v = .ok n := by
  have hdepth {v : Json} (hv : Json.parse text = .ok v) : nestingDepth text.toList = v.depth :=
    (Json.isDocument_of_parse hv).nestingDepth_eq
  rw [load_eq]
  constructor
  · intro h
    split at h
    · cases h
    · rename_i hshallow
      cases hdecode : Document.decode text.toList with
      | error failure =>
        rw [hdecode] at h
        cases h
      | ok m =>
        rw [hdecode] at h
        obtain rfl := Except.ok.inj h
        obtain ⟨v, hv, hn⟩ := Document.decode_eq_ok.1 hdecode
        exact ⟨v, hv, hdepth hv ▸ Nat.not_lt.1 hshallow, hn⟩
  · rintro ⟨v, hv, hshallow, hn⟩
    rw [if_neg (Nat.not_lt.2 (hdepth hv ▸ hshallow)), Document.decode_eq_ok.2 ⟨v, hv, hn⟩]
    rfl

end Node

end TreeWalk
