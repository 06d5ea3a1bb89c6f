/-
Ways of the reader, and scalars that it reads back.

The reader goes on step by step, and where it comes to decides what it reads: `run_of_goes`.  At
the first character of a value it begins the value, whichever brackets are open around it.

The characters that a scalar is written as are read as the scalar: `ReadsBack`.  `Plain` are the
values that are written so that they can be read back as a whole.

The outermost object leaves marks behind besides, a name and a value for each member,
which `Noted` keeps track of.
-/
import Mathlib.Logic.Relation
import TreeWalk.Proofs.Json.Scalars

namespace TreeWalk

namespace Json

/-! ### Plain values -/

/-- A value without doubles, whose numbers fit in 64 bits and whose objects have lists of names as
required. -/
inductive Plain (names : List String → Prop) : Json → Prop where
  | null : Plain names .null
  | bool (b : Bool) : Plain names (.bool b)
  | str (s : String) : Plain names (.str s)
  | int {v : Int} (h : Number.fits v) : Plain names (.num (.int v))
  | arr {items : List Json} (h : ∀ v ∈ items, Plain names v) : Plain names (.arr items)
  | obj {members : List (String × Json)} (hnames : names (members.map Prod.fst))
    (h : ∀ m ∈ members, Plain names m.2) : Plain names (.obj members)

/-- A value that satisfies more satisfies less. -/
theorem Plain.mono {names names' : List String → Prop} (hnames : ∀ ns, names ns → names' ns)
    {v : Json} (h : v.Plain names) : v.Plain names' := by
  induction h with
  | null => exact .null
  | bool b => exact .bool b
  | str s => exact .str s
  | int h => exact .int h
  | arr h ih => exact .arr ih
  | obj hns h ih => exact .obj (hnames _ hns) ih

/-! ### Ways of the machine -/

/-- The machine comes from one state to another. -/
def State.Goes : State → State → Prop := Relation.ReflTransGen fun s t => step s = .more t

theorem run_of_step {s t : State} (h : step s = .more t) : run s = run t := by
  rw [run]
  split
  · rename_i u hu
    rw [h] at hu
    cases hu
    rfl
  · rename_i hu
    rw [h] at hu
    cases hu
  · rename_i hu
    rw [h] at hu
    cases hu

/-- Where the machine comes to decides what it reads. -/
theorem run_of_goes {s t : State} (h : s.Goes t) : run s = run t := by
  induction h with
  | refl => rfl
  | tail _ hstep ih => rw [ih, run_of_step hstep]

theorem run_complete (v : Json) (inp : Input) (marks : List Mark) :
    run ⟨.complete v [], inp, marks⟩ = (.value v inp, marks.reverse) := by
  have hstep : step ⟨.complete v [], inp, marks⟩ = .finished v inp := rfl
  rw [run]
  split
  · rename_i hu
    rw [hstep] at hu
    cases hu
  · rename_i hu
    rw [hstep] at hu
    cases hu
    rfl
  · rename_i hu
    rw [hstep] at hu
    cases hu

theorem skipBlanks_cons {c : Char} (h : Input.isBlank c = false) (rest : List Char)
    (offset : Nat) : Input.skipBlanks ⟨c :: rest, offset⟩ = ⟨c :: rest, offset⟩ := by
  simp [Input.skipBlanks, h]

/-! ### Beginning a value -/

/-- The mark of a value that begins and ends at the offsets. -/
def mark (v : Json) (before after : Nat) : Mark :=
  match v with
  | .arr _ => .opener true before
  | .obj _ => .opener false before
  | v => .scalar v after

/-- The character may be the first of a value, where a list may end as well. -/
def Begins (c : Char) : Prop := Input.isBlank c = false ∧ c ≠ ']'

instance (c : Char) : Decidable (Begins c) := inferInstanceAs (Decidable (_ ∧ _))

section

variable {c : Char} (hc : Begins c) (rest : List Char) (offset : Nat) (stack : List Frame)
  (marks : List Mark)

include hc

theorem step_value : step ⟨.value stack, ⟨c :: rest, offset⟩, marks⟩ =
    beginValue stack ⟨c :: rest, offset⟩ marks := by
  simp only [step, skipBlanks_cons hc.1]

theorem step_firstItem : step ⟨.firstItem stack, ⟨c :: rest, offset⟩, marks⟩ =
    beginValue (.list [] :: stack) ⟨c :: rest, offset⟩ marks := by
  simp only [step, skipBlanks_cons hc.1, List.head?_cons, if_neg hc.2]

theorem step_nextItem (items : List Json) :
    step ⟨.nextItem items stack, ⟨c :: rest, offset⟩, marks⟩ =
      beginValue (.list items :: stack) ⟨c :: rest, offset⟩ marks := by
  simp only [step, skipBlanks_cons hc.1, List.head?_cons, Option.some.injEq, if_neg hc.2]

end

/-- The character may be the first of a scalar. -/
def BeginsScalar (c : Char) : Prop := Begins c ∧ c ≠ '[' ∧ c ≠ '\x7b'

instance (c : Char) : Decidable (BeginsScalar c) := inferInstanceAs (Decidable (_ ∧ _))

/-- The scalar is read from the characters that it is written as. -/
def ReadsBack (v : Json) : Prop := ∀ tail : List Char, Closed tail → ∀ offset,
  ∃ c rest offset', v.writtenChars tail = c :: rest ∧
    readScalar c rest offset = .ok (v, ⟨tail, offset'⟩)

theorem readsBack_null : ReadsBack .null := fun _ _ _ => ⟨_, _, _, rfl, rfl⟩

theorem readsBack_bool (b : Bool) : ReadsBack (.bool b) := by
  intro tail _ offset
  cases b <;> exact ⟨_, _, _, rfl, rfl⟩

theorem readsBack_str (s : String) : ReadsBack (.str s) := by
  intro tail _ offset
  obtain ⟨offset', hread⟩ := readString_quoted s tail (offset + 1)
  refine ⟨'"', s.toList.flatMap escapedChar ++ '"' :: tail, offset', ?_, ?_⟩
  · simp [writtenChars, quotedChars]
  · rw [readScalar, if_pos rfl, hread]
    rfl

theorem ne_of_isDigit {c d : Char} (hc : c.isDigit = true) (hd : d.isDigit = false) : c ≠ d := by
  rintro rfl
  rw [hc] at hd
  cases hd

theorem beginsScalar_of_isDigit {c : Char} (hc : c.isDigit = true) : BeginsScalar c := by
  have hne {d : Char} (hd : d.isDigit = false) : c ≠ d := ne_of_isDigit hc hd
  refine ⟨⟨?_, hne (by decide)⟩, hne (by decide), hne (by decide)⟩
  simp [Input.isBlank, hne (d := ' ') (by decide), hne (d := '\n') (by decide),
    hne (d := '\t') (by decide), hne (d := '\r') (by decide)]

theorem writtenChars_ofNat (n : Nat) (tail : List Char) :
    (Json.num (.int (.ofNat n))).writtenChars tail = Nat.toDigits 10 n ++ tail := by
  rw [writtenChars, numberChars, Int.toString_eq_repr, Int.repr, Nat.toList_repr]

theorem writtenChars_negSucc (n : Nat) (tail : List Char) :
    (Json.num (.int (.negSucc n))).writtenChars tail =
      '-' :: (Nat.toDigits 10 (n + 1) ++ tail) := by
  rw [writtenChars, numberChars, Int.toString_eq_repr, Int.repr, String.toList_append,
    Nat.toList_repr]
  rfl

theorem readsBack_int {v : Int} (hfits : Number.fits v) : ReadsBack (.num (.int v)) := by
  intro tail htail offset
  cases v with
  | ofNat n =>
    obtain ⟨offset', hread⟩ := readNumber_toDigits false hfits (n := n) rfl nofun htail offset
    obtain ⟨c, ds, hcons⟩ := List.exists_cons_of_ne_nil (Nat.toDigits_ne_nil (n := n) (b := 10))
    have hdigit : c.isDigit = true := by
      have hmem : c ∈ Nat.toDigits 10 n := hcons ▸ List.mem_cons_self ..
      exact Nat.isDigit_of_mem_toDigits (by decide) (by decide) hmem
    have hquote : c ≠ '"' := ne_of_isDigit hdigit (by decide)
    have hminus : c ≠ '-' := ne_of_isDigit hdigit (by decide)
    refine ⟨c, ds ++ tail, offset', ?_, ?_⟩
    · rw [writtenChars_ofNat, hcons, List.cons_append]
    · rw [hcons, List.cons_append] at hread
      rw [readScalar, if_neg hquote, if_neg hminus, if_pos hdigit, hread]
      rfl
  | negSucc n =>
    obtain ⟨offset', hread⟩ := readNumber_toDigits true hfits (n := n + 1) rfl
      (fun _ => Int.negSucc_ne_zero n) htail (offset + 1)
    refine ⟨'-', _, offset', writtenChars_negSucc n tail, ?_⟩
    rw [readScalar, if_neg (by decide), if_pos rfl, hread]
    rfl

/-! ### Marks -/

theorem isOuter_list (items : List Json) (stack : List Frame) :
    isOuter (.list items :: stack) = false := by
  cases stack <;> rfl

theorem isOuter_member (members : List (String × Json)) (name : String) (stack : List Frame) :
    isOuter (.member members name :: stack) = stack.isEmpty := by
  cases stack <;> rfl

/-- The marks that the members of the outermost object leave, a name and a value for each. -/
inductive Noted : List (String × Json) → List Mark → Prop where
  | nil : Noted [] []
  | cons {name : String} {v : Json} {rest : List (String × Json)} {marks : List Mark}
    (closed before after : Nat) (h : Noted rest marks) :
    Noted ((name, v) :: rest) (.key name closed :: v.mark before after :: marks)

end Json

end TreeWalk
