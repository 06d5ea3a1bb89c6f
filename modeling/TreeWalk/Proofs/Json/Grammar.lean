/-
The grammar of JSON, and how deeply its texts nest.

`Derives` says symbol by symbol which texts the grammar derives, and how deeply the arrays and
objects in them nest: scalars do not nest, and an array or object nests one deeper than what
stands inside.  The grammar is that of all JSON documents.  Some of them the reader refuses,
for a number that is out of range or an escape that stands for half a character.

The scan comes through whatever is derived.  It has as many brackets open behind it as before,
and has seen as many open besides as the text nests, `Derives.nests`.
-/
import TreeWalk.Proofs.Json.Nesting

namespace TreeWalk

namespace Json

namespace Grammar

/-! ### Scalars -/

/-- Any number of blanks. -/
def Blanks (cs : List Char) : Prop := ∀ c ∈ cs, Input.isBlank c = true

instance (cs : List Char) : Decidable (Blanks cs) := List.decidableBAll _ cs

/-- The words that stand for values. -/
def words : List (List Char) :=
  [['n', 'u', 'l', 'l'], ['t', 'r', 'u', 'e'], ['f', 'a', 'l', 's', 'e']]

/-- One decimal digit or more. -/
def Digits (ds : List Char) : Prop := ds ≠ [] ∧ ∀ d ∈ ds, d.isDigit = true

instance (ds : List Char) : Decidable (Digits ds) :=
  have : Decidable (∀ d ∈ ds, d.isDigit = true) := List.decidableBAll _ ds
  inferInstanceAs (Decidable (_ ∧ _))

/-- Digits that start with a zero only if it is the only one. -/
def Whole (ds : List Char) : Prop := Digits ds ∧ (ds.head? = some '0' → ds = ['0'])

instance (ds : List Char) : Decidable (Whole ds) := inferInstanceAs (Decidable (_ ∧ (_ → _)))

/-- A point and digits, or nothing. -/
def Fraction (cs : List Char) : Prop := cs = [] ∨ ∃ ds, Digits ds ∧ cs = '.' :: ds

/-- A letter, a sign or none, and digits; or nothing. -/
def Exponent (cs : List Char) : Prop :=
  cs = [] ∨ ∃ letter ∈ ['e', 'E'], ∃ sign ∈ [[], ['+'], ['-']], ∃ ds, Digits ds ∧
    cs = letter :: (sign ++ ds)

/-- A number. -/
def Numeric (cs : List Char) : Prop :=
  ∃ sign ∈ [[], ['-']], ∃ whole fraction exponent, Whole whole ∧ Fraction fraction ∧
    Exponent exponent ∧ cs = sign ++ (whole ++ (fraction ++ exponent))

/-- The characters that a backslash may stand before by themselves. -/
def escapes : List Char := ['"', '\\', '/', 'b', 'f', 'n', 'r', 't']

/-- What a code in a string is written with. -/
def HexDigit (c : Char) : Prop :=
  ('0' ≤ c ∧ c ≤ '9') ∨ ('a' ≤ c ∧ c ≤ 'f') ∨ ('A' ≤ c ∧ c ≤ 'F')

instance (c : Char) : Decidable (HexDigit c) := inferInstanceAs (Decidable (_ ∨ _))

/-- What stands for one character in a string, or for half of one. -/
inductive Spelled : List Char → Prop where
  | plain {c : Char} (hquote : c ≠ '"') (hbackslash : c ≠ '\\') (hcontrol : 0x20 ≤ c.toNat) :
    Spelled [c]
  | escape {c : Char} (h : c ∈ escapes) : Spelled ['\\', c]
  | code {a b c d : Char} (ha : HexDigit a) (hb : HexDigit b) (hc : HexDigit c) (hd : HexDigit d) :
    Spelled ['\\', 'u', a, b, c, d]

/-- What stands for any number of characters in a string. -/
def Spelling (cs : List Char) : Prop :=
  ∃ parts : List (List Char), (∀ p ∈ parts, Spelled p) ∧ cs = parts.flatten

theorem Spelling.nil : Spelling [] := ⟨[], List.forall_mem_nil _, rfl⟩

theorem Spelled.spelling {cs : List Char} (h : Spelled cs) : Spelling cs :=
  ⟨[cs], List.forall_mem_singleton.2 h, List.flatten_singleton.symm⟩

theorem Spelling.append {as bs : List Char} (has : Spelling as) (hbs : Spelling bs) :
    Spelling (as ++ bs) := by
  obtain ⟨ps, hps, rfl⟩ := has
  obtain ⟨qs, hqs, rfl⟩ := hbs
  exact ⟨ps ++ qs, List.forall_mem_append.2 ⟨hps, hqs⟩, List.flatten_append.symm⟩

/-- A string with its quotes. -/
def Quoted (cs : List Char) : Prop := ∃ spelling, Spelling spelling ∧ cs = '"' :: (spelling ++ ['"'])

/-! ### Values -/

/-- The symbols of the grammar. -/
inductive Symbol where
  | value
  /-- A value with blanks around it. -/
  | element
  /-- A string with blanks around it, a colon and an element. -/
  | member
  /-- One such part, or several with commas between them. -/
  | several (part : Symbol)

/-- The symbol derives the text, in which arrays and objects nest so deeply. -/
inductive Derives : Symbol → List Char → Nat → Prop where
  | word {cs : List Char} (h : cs ∈ words) : Derives .value cs 0
  | number {cs : List Char} (h : Numeric cs) : Derives .value cs 0
  | string {cs : List Char} (h : Quoted cs) : Derives .value cs 0
  | emptyArray {blanks : List Char} (h : Blanks blanks) :
    Derives .value ('[' :: (blanks ++ [']'])) 1
  | array {cs : List Char} {d : Nat} (h : Derives (.several .element) cs d) :
    Derives .value ('[' :: (cs ++ [']'])) (1 + d)
  | emptyObject {blanks : List Char} (h : Blanks blanks) :
    Derives .value ('\x7b' :: (blanks ++ ['\x7d'])) 1
  | object {cs : List Char} {d : Nat} (h : Derives (.several .member) cs d) :
    Derives .value ('\x7b' :: (cs ++ ['\x7d'])) (1 + d)
  | element {before cs behind : List Char} {d : Nat} (hbefore : Blanks before)
    (h : Derives .value cs d) (hbehind : Blanks behind) :
    Derives .element (before ++ (cs ++ behind)) d
  | member {before name behind cs : List Char} {d : Nat} (hbefore : Blanks before)
    (hname : Quoted name) (hbehind : Blanks behind) (h : Derives .element cs d) :
    Derives .member (before ++ (name ++ (behind ++ ':' :: cs))) d
  | last {part : Symbol} {cs : List Char} {d : Nat} (h : Derives part cs d) :
    Derives (.several part) cs d
  | comma {part : Symbol} {cs rest : List Char} {d e : Nat} (h : Derives part cs d)
    (hrest : Derives (.several part) rest e) : Derives (.several part) (cs ++ ',' :: rest) (max d e)

/-- The text is a document, whose value nests so deeply. -/
def IsDocument (cs : List Char) (d : Nat) : Prop := Derives .element cs d

/-! ### The scan of what is derived -/

open Depth

variable {cs : List Char} {current deepest : Nat}

/-- Nothing in the text opens or closes anything. -/
def Flat (cs : List Char) : Prop := ∀ c ∈ cs, Neutral c

instance (cs : List Char) : Decidable (Flat cs) := List.decidableBAll _ cs

theorem Flat.append {as bs : List Char} (has : Flat as) (hbs : Flat bs) : Flat (as ++ bs) :=
  List.forall_mem_append.2 ⟨has, hbs⟩

theorem Blanks.flat (h : Blanks cs) : Flat cs := fun c hc => neutral_of_isBlank (h c hc)

theorem Digits.flat (h : Digits cs) : Flat cs := fun c hc => neutral_of_isDigit (h.2 c hc)

theorem Fraction.flat (h : Fraction cs) : Flat cs := by
  rcases h with rfl | ⟨ds, hds, rfl⟩
  · decide
  · have hpoint : Flat ['.'] := by decide
    exact hpoint.append hds.flat

theorem Exponent.flat (h : Exponent cs) : Flat cs := by
  rcases h with rfl | ⟨letter, hletter, sign, hsign, ds, hds, rfl⟩
  · decide
  · have hletters : ∀ l ∈ [['e'], ['E']], Flat l := by decide
    have hsigns : ∀ s ∈ [[], ['+'], ['-']], Flat s := by decide
    have hfirst : Flat [letter] := hletters [letter] (by simpa using hletter)
    exact hfirst.append ((hsigns sign hsign).append hds.flat)

theorem Numeric.flat (h : Numeric cs) : Flat cs := by
  obtain ⟨sign, hsign, whole, fraction, exponent, hwhole, hfraction, hexponent, rfl⟩ := h
  have hsigns : ∀ s ∈ [[], ['-']], Flat s := by decide
  exact (hsigns sign hsign).append (hwhole.1.flat.append (hfraction.flat.append hexponent.flat))

theorem flat_of_mem_words (h : cs ∈ words) : Flat cs := by
  have hwords : ∀ w ∈ words, Flat w := by decide
  exact hwords cs h

/-- What stands for a character ends inside the string. -/
theorem Spelled.scan (h : Spelled cs) :
    cs.foldl Scan.next (.inside current deepest) = .inside current deepest := by
  cases h with
  | plain hquote hbackslash _ => exact next_inside hquote hbackslash
  | escape _ => rfl
  | code ha hb hc hd =>
    have hnext {x : Char} (hx : HexDigit x) :
        (Scan.inside current deepest).next x = .inside current deepest := by
      refine next_inside ?_ ?_
      · rintro rfl
        revert hx
        decide
      · rintro rfl
        revert hx
        decide
    show [_, _, _, _].foldl Scan.next (.inside current deepest) = _
    rw [List.foldl_cons, hnext ha, List.foldl_cons, hnext hb, List.foldl_cons, hnext hc,
      List.foldl_cons, hnext hd, List.foldl_nil]

theorem Spelling.scan (h : Spelling cs) :
    cs.foldl Scan.next (.inside current deepest) = .inside current deepest := by
  obtain ⟨parts, hparts, rfl⟩ := h
  induction parts with
  | nil => rfl
  | cons p parts ih =>
    rw [List.flatten_cons, List.foldl_append, (hparts p (List.mem_cons_self ..)).scan]
    exact ih fun q hq => hparts q (List.mem_cons_of_mem _ hq)

/-! Texts that the scan comes through nest in one another as their derivations do. -/

/-- The scan comes through a text with as many brackets open, and sees so many more on the way. -/
def Nests (cs : List Char) (d : Nat) : Prop := ∀ current deepest, current ≤ deepest →
  cs.foldl Scan.next (.outside current deepest) = .outside current (max deepest (current + d))

namespace Nests

variable {as bs : List Char} {d e : Nat}

/-- What the scan does not see nests nothing. -/
theorem of_scan (h : ∀ current deepest, cs.foldl Scan.next (.outside current deepest) =
    .outside current deepest) : Nests cs 0 := by
  intro current deepest hle
  rw [h, Nat.add_zero, Nat.max_eq_left hle]

theorem of_flat (h : Flat cs) : Nests cs 0 := of_scan fun _ _ => scan_neutral h

theorem append (has : Nests as d) (hbs : Nests bs e) : Nests (as ++ bs) (max d e) := by
  intro current deepest hle
  rw [List.foldl_append, has current deepest hle,
    hbs current _ (Nat.le_trans hle (Nat.le_max_left ..))]
  congr 1
  omega

/-- Text that nests nothing adds nothing. -/
theorem append_flat (has : Nests as d) (hbs : Nests bs 0) : Nests (as ++ bs) d := by
  have hall := has.append hbs
  rwa [Nat.max_zero] at hall

/-- Texts with a character between them. -/
theorem separated {c : Char} (hc : Neutral c) (has : Nests as d) (hbs : Nests bs e) :
    Nests (as ++ c :: bs) (max d e) := by
  have hseparator : Nests [c] 0 := of_flat (List.forall_mem_singleton.2 hc)
  have hall := has.append (hseparator.append hbs)
  rwa [Nat.zero_max] at hall

/-- What stands between brackets nests one deeper. -/
theorem brackets {opening closing : Char} (hopening : opening = '[' ∨ opening = '\x7b')
    (hclosing : closing = ']' ∨ closing = '\x7d') (h : Nests cs d) :
    Nests (opening :: (cs ++ [closing])) (1 + d) := by
  intro current deepest _
  rw [List.foldl_cons, next_open hopening, List.foldl_append, h _ _ (Nat.le_max_right ..),
    List.foldl_cons, next_close hclosing, List.foldl_nil]
  congr 1
  omega

end Nests

/-- A string nests nothing, whatever it spells. -/
theorem Quoted.nests (h : Quoted cs) : Nests cs 0 := by
  refine .of_scan ?_
  intro current deepest
  obtain ⟨spelling, hspelling, rfl⟩ := h
  have hopen : (Scan.outside current deepest).next '"' = .inside current deepest := rfl
  rw [List.foldl_cons, hopen, List.foldl_append, hspelling.scan]
  rfl

theorem Blanks.nests (h : Blanks cs) : Nests cs 0 := .of_flat h.flat

/-- **What the grammar derives nests as deeply as its derivation says.** -/
theorem Derives.nests {symbol : Symbol} {d : Nat} (h : Derives symbol cs d) : Nests cs d := by
  have hcomma : Neutral ',' := by decide
  have hcolon : Neutral ':' := by decide
  induction h with
  | word h => exact .of_flat (flat_of_mem_words h)
  | number h => exact .of_flat h.flat
  | string h => exact h.nests
  | emptyArray h => exact h.nests.brackets (.inl rfl) (.inl rfl)
  | array _ ih => exact ih.brackets (.inl rfl) (.inl rfl)
  | emptyObject h => exact h.nests.brackets (.inr rfl) (.inr rfl)
  | object _ ih => exact ih.brackets (.inr rfl) (.inr rfl)
  | element hbefore _ hbehind ih =>
    have hall := hbefore.nests.append (ih.append hbehind.nests)
    rwa [Nat.zero_max, Nat.max_zero] at hall
  | member hbefore hname hbehind _ ih =>
    have hall := hbefore.nests.append (hname.nests.append (hbehind.nests.separated hcolon ih))
    rwa [Nat.zero_max, Nat.zero_max, Nat.zero_max] at hall
  | last _ ih => exact ih
  | comma _ _ ih ihrest => exact ih.separated hcomma ihrest

/-- A document nests as deeply as its value. -/
theorem IsDocument.nestingDepth_eq {d : Nat} (h : IsDocument cs d) : nestingDepth cs = d := by
  show (cs.foldl Scan.next (.outside 0 0)).deepest = d
  rw [h.nests 0 0 (Nat.le_refl 0)]
  show max 0 (0 + d) = d
  omega

end Grammar

end Json

end TreeWalk
