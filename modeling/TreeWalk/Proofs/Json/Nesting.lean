/-
The nesting of a written value is its depth.

The scan of a text for brackets comes through the characters of a value with as many
brackets open as before.  It has seen at least as many open as the value is deep, on top
of those, and no more than that unless it had before.  Brackets in strings do not count:
the scan is inside a string from the one quote to the other, whatever is escaped between.
-/
import TreeWalk.Document.Depth
import TreeWalk.Proofs.Json.ReadBack

namespace TreeWalk

namespace Depth

/-- The scan outside of strings. -/
def Scan.outside (current deepest : Nat) : Scan := ⟨current, deepest, false, false⟩

/-- A character that neither opens nor closes anything. -/
def Neutral (c : Char) : Prop := c ≠ '"' ∧ c ≠ '\x7b' ∧ c ≠ '[' ∧ c ≠ '\x7d' ∧ c ≠ ']'

instance (c : Char) : Decidable (Neutral c) := inferInstanceAs (Decidable (_ ∧ _))

variable {current deepest : Nat}

theorem scan_neutral {cs : List Char} (h : ∀ c ∈ cs, Neutral c) :
    cs.foldl Scan.next (.outside current deepest) = .outside current deepest := by
  induction cs with
  | nil => rfl
  | cons c cs ih =>
    obtain ⟨hquote, hbrace, hbracket, hbrace', hbracket'⟩ := h c (List.mem_cons_self ..)
    have hnext : (Scan.outside current deepest).next c = .outside current deepest := by
      simp [Scan.next, Scan.outside, hquote, hbrace, hbracket, hbrace', hbracket']
    rw [List.foldl_cons, hnext]
    exact ih fun d hd => h d (List.mem_cons_of_mem _ hd)

theorem neutral_of_isDigit {c : Char} (hc : c.isDigit = true) : Neutral c :=
  ⟨Json.ne_of_isDigit hc (by decide), Json.ne_of_isDigit hc (by decide),
    Json.ne_of_isDigit hc (by decide), Json.ne_of_isDigit hc (by decide),
    Json.ne_of_isDigit hc (by decide)⟩

theorem neutral_of_isBlank {c : Char} (hc : Json.Input.isBlank c = true) : Neutral c := by
  simp only [Json.Input.isBlank, Bool.or_eq_true, beq_iff_eq] at hc
  rcases hc with ((rfl | rfl) | rfl) | rfl <;> decide

/-! ### Strings -/

/-- The scan inside a string. -/
def Scan.inside (current deepest : Nat) : Scan := ⟨current, deepest, true, false⟩

/-- Inside a string, the scan minds quotes and backslashes only. -/
theorem next_inside {c : Char} (hquote : c ≠ '"') (hbackslash : c ≠ '\\') :
    (Scan.inside current deepest).next c = .inside current deepest := by
  simp [Scan.next, Scan.inside, hquote, hbackslash]

/-- The digits that control characters are escaped with end no string. -/
theorem next_hexDigit (n : Nat) :
    (Scan.inside current deepest).next (Json.hexDigit n) = .inside current deepest := by
  have hdigit : ∀ k < 16, Json.hexDigit k ≠ '\\' ∧ Json.hexDigit k ≠ '"' := by decide
  have hmod : Json.hexDigit n = Json.hexDigit (n % 16) := by
    rw [Json.hexDigit, Json.hexDigit, Nat.mod_mod]
  obtain ⟨hbackslash, hquote⟩ := hdigit (n % 16) (Nat.mod_lt _ (by decide))
  rw [hmod]
  exact next_inside hquote hbackslash

theorem scan_escapedChar (c : Char) :
    (Json.escapedChar c).foldl Scan.next (.inside current deepest) = .inside current deepest := by
  unfold Json.escapedChar
  iterate 7
    split
    · rfl
  split
  · have hopen : ['\\', 'u', '0', '0'].foldl Scan.next (.inside current deepest) =
        .inside current deepest := rfl
    show [Json.hexDigit (c.toNat / 16), Json.hexDigit c.toNat].foldl Scan.next
      (['\\', 'u', '0', '0'].foldl Scan.next (.inside current deepest)) = _
    rw [hopen, List.foldl_cons, List.foldl_cons, next_hexDigit, next_hexDigit]
    rfl
  · rename_i hquote hbackslash _ _ _ _ _ _
    exact next_inside hquote hbackslash

/-- A string opens and closes nothing. -/
theorem scan_quotedChars (s : String) :
    (Json.quotedChars s).foldl Scan.next (.outside current deepest) =
      .outside current deepest := by
  have hcs (cs : List Char) : (cs.flatMap Json.escapedChar).foldl Scan.next
      (.inside current deepest) = .inside current deepest := by
    induction cs with
    | nil => rfl
    | cons c cs ih => rw [List.flatMap_cons, List.foldl_append, scan_escapedChar, ih]
  have hopen : (Scan.outside current deepest).next '"' = .inside current deepest := rfl
  rw [Json.quotedChars, List.cons_append, List.foldl_cons, hopen, List.foldl_append, hcs]
  rfl

/-! ### Values -/

/-- The scan comes through a value, and sees how deep it is. -/
def Scans (v : Json) : Prop := ∀ current deepest : Nat, current ≤ deepest → ∀ tail,
  (v.writtenChars tail).foldl Scan.next (.outside current deepest) =
    tail.foldl Scan.next (.outside current (max deepest (current + v.depth)))

/-- The scan comes through what opens and closes nothing. -/
theorem scans_of_flat {v : Json} {cs : List Char} (h : ∀ tail, v.writtenChars tail = cs ++ tail)
    (hdepth : v.depth = 0)
    (hcs : ∀ current deepest,
      cs.foldl Scan.next (.outside current deepest) = .outside current deepest) : Scans v := by
  intro current deepest hle tail
  rw [h, List.foldl_append, hcs, hdepth, Nat.add_zero, Nat.max_eq_left hle]

theorem next_open {c : Char} (hc : c = '[' ∨ c = '\x7b') :
    (Scan.outside current deepest).next c =
      .outside (current + 1) (max deepest (current + 1)) := by
  rcases hc with rfl | rfl <;> rfl

theorem next_close {c : Char} (hc : c = ']' ∨ c = '\x7d') :
    (Scan.outside (current + 1) deepest).next c = .outside current deepest := by
  rcases hc with rfl | rfl <;> rfl

/-- The scan comes through the further items of a list, with which the list is closed. -/
theorem scan_itemsChars {rest : List Json} (h : ∀ v ∈ rest, Scans v)
    (hle : current + 1 ≤ deepest) (tail : List Char) :
    (Json.itemsChars rest tail).foldl Scan.next (.outside (current + 1) deepest) =
      tail.foldl Scan.next
        (.outside current (max deepest (current + 1 + Json.depthItems rest))) := by
  induction rest generalizing deepest with
  | nil =>
    rw [Json.itemsChars, List.foldl_cons, next_close (.inl rfl), Json.depthItems, Nat.add_zero,
      Nat.max_eq_left hle]
  | cons v rest ih =>
    have hcomma : (Scan.outside (current + 1) deepest).next ',' = .outside (current + 1) deepest :=
      rfl
    rw [Json.itemsChars, List.foldl_cons, hcomma, h v (List.mem_cons_self ..) _ _ hle,
      ih (fun w hw => h w (List.mem_cons_of_mem _ hw)) (Nat.le_trans hle (Nat.le_max_left ..)),
      Json.depthItems, Nat.max_assoc, ← Nat.add_max_add_left]

/-- The scan comes through the further members of an object, with which the object is closed. -/
theorem scan_membersChars {rest : List (String × Json)} (h : ∀ m ∈ rest, Scans m.2)
    (hle : current + 1 ≤ deepest) (tail : List Char) :
    (Json.membersChars rest tail).foldl Scan.next (.outside (current + 1) deepest) =
      tail.foldl Scan.next
        (.outside current (max deepest (current + 1 + Json.depthMembers rest))) := by
  induction rest generalizing deepest with
  | nil =>
    rw [Json.membersChars, List.foldl_cons, next_close (.inr rfl), Json.depthMembers, Nat.add_zero,
      Nat.max_eq_left hle]
  | cons m rest ih =>
    obtain ⟨name, v⟩ := m
    have hv : Scans v := h (name, v) (List.mem_cons_self ..)
    have hcomma : (Scan.outside (current + 1) deepest).next ',' = .outside (current + 1) deepest :=
      rfl
    have hcolon : (Scan.outside (current + 1) deepest).next ':' = .outside (current + 1) deepest :=
      rfl
    rw [Json.membersChars, List.foldl_cons, hcomma, List.foldl_append, scan_quotedChars,
      List.foldl_cons, hcolon, hv _ _ hle,
      ih (fun w hw => h w (List.mem_cons_of_mem _ hw)) (Nat.le_trans hle (Nat.le_max_left ..)),
      Json.depthMembers, Nat.max_assoc, ← Nat.add_max_add_left]

theorem scans_int (v : Int) : Scans (.num (.int v)) := by
  have hdigits (n : Nat) : ∀ c ∈ Nat.toDigits 10 n, Neutral c := fun c hc =>
    neutral_of_isDigit (Nat.isDigit_of_mem_toDigits (by decide) (by decide) hc)
  cases v with
  | ofNat n =>
    exact scans_of_flat (Json.writtenChars_ofNat n) rfl fun _ _ => scan_neutral (hdigits n)
  | negSucc n =>
    have hneutral : ∀ c ∈ '-' :: Nat.toDigits 10 (n + 1), Neutral c := by
      intro c hc
      rcases List.mem_cons.1 hc with rfl | hc
      · decide
      · exact hdigits (n + 1) c hc
    exact scans_of_flat (Json.writtenChars_negSucc n) rfl fun _ _ => scan_neutral hneutral

theorem scans_arr {items : List Json} (h : ∀ v ∈ items, Scans v) : Scans (.arr items) := by
  intro current deepest hle tail
  cases items with
  | nil =>
    show tail.foldl Scan.next (.outside current (max deepest (current + 1))) = _
    rfl
  | cons v rest =>
    have hopened : current + 1 ≤ max deepest (current + 1) := Nat.le_max_right ..
    rw [Json.writtenChars, List.foldl_cons, next_open (.inl rfl),
      h v (List.mem_cons_self ..) _ _ hopened,
      scan_itemsChars (fun w hw => h w (List.mem_cons_of_mem _ hw))
        (Nat.le_trans hopened (Nat.le_max_left ..)), Json.depth, Json.depthItems]
    congr 2
    omega

theorem scans_obj {members : List (String × Json)} (h : ∀ m ∈ members, Scans m.2) :
    Scans (.obj members) := by
  intro current deepest hle tail
  cases members with
  | nil =>
    show tail.foldl Scan.next (.outside current (max deepest (current + 1))) = _
    rfl
  | cons m rest =>
    obtain ⟨name, v⟩ := m
    have hv : Scans v := h (name, v) (List.mem_cons_self ..)
    have hopened : current + 1 ≤ max deepest (current + 1) := Nat.le_max_right ..
    have hcolon : (Scan.outside (current + 1) (max deepest (current + 1))).next ':' =
      .outside (current + 1) (max deepest (current + 1)) := rfl
    rw [Json.writtenChars, List.foldl_cons, next_open (.inr rfl), List.foldl_append,
      scan_quotedChars, List.foldl_cons, hcolon, hv _ _ hopened,
      scan_membersChars (fun w hw => h w (List.mem_cons_of_mem _ hw))
        (Nat.le_trans hopened (Nat.le_max_left ..)), Json.depth, Json.depthMembers]
    congr 2
    omega

theorem scans_of_plain {names : List String → Prop} {v : Json} (h : v.Plain names) : Scans v := by
  induction h with
  | null =>
    have hneutral : ∀ c ∈ Json.nullChars, Neutral c := by simp [Json.nullChars, Neutral]
    exact scans_of_flat (fun _ => rfl) rfl fun _ _ => scan_neutral hneutral
  | bool b =>
    have hneutral : ∀ c ∈ Json.boolChars b, Neutral c := by
      cases b <;> simp [Json.boolChars, Neutral]
    exact scans_of_flat (fun _ => rfl) rfl fun _ _ => scan_neutral hneutral
  | str s => exact scans_of_flat (fun _ => rfl) rfl fun _ _ => scan_quotedChars s
  | int _ => exact scans_int _
  | arr _ ih => exact scans_arr ih
  | obj _ _ ih => exact scans_obj ih

end Depth

/-- **The nesting of a plain value that is written is its depth.** -/
theorem nestingDepth_written {names : List String → Prop} {v : Json} (h : v.Plain names) :
    nestingDepth (v.writtenChars []) = v.depth := by
  have hscan := Depth.scans_of_plain h 0 0 (Nat.le_refl 0) []
  show ((v.writtenChars []).foldl Depth.Scan.next (.outside 0 0)).deepest = v.depth
  rw [hscan]
  show max 0 (0 + v.depth) = v.depth
  omega

end TreeWalk
