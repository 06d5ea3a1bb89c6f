/-
Scalars are read back as they are written.

A string is read back character by character, whichever way each was escaped.  A number
is read back because its digits say what it is and nothing that stands behind a value can
go on a number: only a comma or a closing bracket stands there, or nothing.
-/
import TreeWalk.Json.Printer
import TreeWalk.Json.Reader

namespace TreeWalk.Json

/-! ### Strings -/

theorem readString_cons (done : List Char) (c : Char) (rest : List Char) (offset : Nat) :
    readString done ⟨c :: rest, offset⟩ =
      if c = '"' then .ok (String.ofList done.reverse, ⟨rest, offset + 1⟩)
      else if c = '\\' then
        match readEscape ⟨rest, offset + 1⟩ with
        | .ok (e, behind) => readString (e :: done) behind
        | .error f => .error f
      else if c.toNat < 0x20 then .error ⟨.controlCharacter, offset + 1⟩
      else readString (c :: done) ⟨rest, offset + c.utf8Size⟩ := by
  rw [readString]
  split
  · rename_i hrest
    cases hrest
  · rename_i d ds hrest
    obtain ⟨rfl, rfl⟩ := List.cons.inj hrest
    split
    · rfl
    · split
      · split <;> (rename_i he; rw [he])
      · rfl

/-- The escape of a control character by its code point says that code point. -/
theorem hexValue4?_control : ∀ k < 0x20,
    hexValue4? '0' '0' (hexDigit (k / 16)) (hexDigit k) = some k := by
  decide

/-- A character is read back whichever way it is escaped. -/
theorem readString_escapedChar (done : List Char) (c : Char) (rest : List Char) (offset : Nat) :
    ∃ offset', readString done ⟨escapedChar c ++ rest, offset⟩ =
      readString (c :: done) ⟨rest, offset'⟩ := by
  have hshort (e : Char) (he : shortEscape? e = some c) (hu : e ≠ 'u') :
      readString done ⟨'\\' :: e :: rest, offset⟩ =
        readString (c :: done) ⟨rest, offset + 1 + 1⟩ := by
    rw [readString_cons, if_neg (by decide), if_pos rfl, readEscape]
    simp only [if_neg hu, he]
  unfold escapedChar
  split
  · subst_vars
    exact ⟨_, hshort '"' rfl (by decide)⟩
  split
  · subst_vars
    exact ⟨_, hshort '\\' rfl (by decide)⟩
  split
  · subst_vars
    exact ⟨_, hshort 'b' rfl (by decide)⟩
  split
  · subst_vars
    exact ⟨_, hshort 'f' rfl (by decide)⟩
  split
  · subst_vars
    exact ⟨_, hshort 'n' rfl (by decide)⟩
  split
  · subst_vars
    exact ⟨_, hshort 'r' rfl (by decide)⟩
  split
  · subst_vars
    exact ⟨_, hshort 't' rfl (by decide)⟩
  split
  · rename_i hcontrol
    have hlow : isLowSurrogate c.toNat = false := by
      simp only [isLowSurrogate, Bool.and_eq_false_iff, decide_eq_false_iff_not]
      omega
    have hhigh : isHighSurrogate c.toNat = false := by
      simp only [isHighSurrogate, Bool.and_eq_false_iff, decide_eq_false_iff_not]
      omega
    refine ⟨offset + 1 + 1 + 4, ?_⟩
    rw [List.cons_append, readString_cons, if_neg (by decide), if_pos rfl]
    simp only [List.cons_append, List.nil_append, readEscape, if_true, readUnicodeEscape, readHex,
      hexValue4?_control c.toNat hcontrol, hlow, hhigh, Char.ofNat_toNat]
    rfl
  · rename_i hquote hbackslash _ _ _ _ _ hcontrol
    refine ⟨offset + c.utf8Size, ?_⟩
    rw [List.cons_append, readString_cons, if_neg hquote, if_neg hbackslash, if_neg hcontrol]
    rfl

/-- Characters are read back up to the closing quote. -/
theorem readString_escaped (cs done : List Char) (tail : List Char) (offset : Nat) :
    ∃ offset', readString done ⟨cs.flatMap escapedChar ++ '"' :: tail, offset⟩ =
      .ok (String.ofList (done.reverse ++ cs), ⟨tail, offset'⟩) := by
  induction cs generalizing done offset with
  | nil =>
    refine ⟨offset + 1, ?_⟩
    rw [List.flatMap_nil, List.nil_append, readString_cons, if_pos rfl, List.append_nil]
  | cons c cs ih =>
    obtain ⟨offset₁, hc⟩ := readString_escapedChar done c
      (cs.flatMap escapedChar ++ '"' :: tail) offset
    obtain ⟨offset', hcs⟩ := ih (c :: done) offset₁
    refine ⟨offset', ?_⟩
    rw [List.flatMap_cons, List.append_assoc, hc, hcs, List.reverse_cons, List.append_assoc]
    rfl

/-- **A string is read back behind its opening quote.** -/
theorem readString_quoted (s : String) (tail : List Char) (offset : Nat) :
    ∃ offset', readString [] ⟨s.toList.flatMap escapedChar ++ '"' :: tail, offset⟩ =
      .ok (s, ⟨tail, offset'⟩) := by
  obtain ⟨offset', h⟩ := readString_escaped s.toList [] tail offset
  rw [List.reverse_nil, List.nil_append, String.ofList_toList] at h
  exact ⟨offset', h⟩

/-! ### Numbers -/

/-- No digit stands here. -/
def NoDigit (tail : List Char) : Prop := ∀ c ∈ tail.head?, c.isDigit = false

/-- Nothing stands here that could go on a number. -/
def Closed (tail : List Char) : Prop :=
  ∀ c ∈ tail.head?, c.isDigit = false ∧ c ≠ '.' ∧ c ≠ 'e' ∧ c ≠ 'E'

theorem Closed.noDigit {tail : List Char} (h : Closed tail) : NoDigit tail := fun c hc => (h c hc).1

theorem Closed.nil : Closed [] := by
  rintro c ⟨⟩

/-- No number starts with a zero and another digit. -/
theorem head?_toDigits {n : Nat} (h : 0 < n) : (Nat.toDigits 10 n).head? ≠ some '0' := by
  induction n using Nat.strongRecOn with
  | ind n ih =>
    rw [Nat.toDigits_eq_if (by decide)]
    split
    · rename_i hlt
      intro hzero
      have hdigit : ∀ k < 10, 0 < k → k.digitChar ≠ '0' := by decide
      exact hdigit n hlt h (Option.some.inj hzero)
    · rename_i hge
      have hdiv : 0 < n / 10 := Nat.div_pos (Nat.not_lt.1 hge) (by decide)
      have hfirst := ih (n / 10) (Nat.div_lt_self h (by decide)) hdiv
      obtain ⟨c, ds, hcons⟩ :=
        List.exists_cons_of_ne_nil (Nat.toDigits_ne_nil (n := n / 10) (b := 10))
      rw [hcons] at hfirst ⊢
      exact hfirst

theorem readDigits_append {ds tail : List Char} (hds : ∀ c ∈ ds, c.isDigit = true)
    (htail : NoDigit tail) (offset : Nat) :
    readDigits ⟨ds ++ tail, offset⟩ = (ds, ⟨tail, offset + ds.length⟩) := by
  have htake : tail.takeWhile Char.isDigit = [] := by
    cases tail with
    | nil => rfl
    | cons c rest => rw [List.takeWhile_cons, htail c rfl]; rfl
  have hdrop : tail.dropWhile Char.isDigit = tail := by
    cases tail with
    | nil => rfl
    | cons c rest => rw [List.dropWhile_cons, htail c rfl]; rfl
  rw [readDigits]
  simp only [List.takeWhile_append_of_pos hds, List.dropWhile_append_of_pos hds, htake, hdrop,
    List.append_nil]

theorem readWhole_toDigits (n : Nat) {tail : List Char} (htail : Closed tail) (offset : Nat) :
    ∃ offset', readWhole ⟨Nat.toDigits 10 n ++ tail, offset⟩ =
      .ok (Nat.toDigits 10 n, ⟨tail, offset'⟩) := by
  have hdigits : ∀ c ∈ Nat.toDigits 10 n, c.isDigit = true := fun c hc =>
    Nat.isDigit_of_mem_toDigits (by decide) (by decide) hc
  rcases Nat.eq_zero_or_pos n with rfl | hpos
  · refine ⟨offset + 1, ?_⟩
    have hhead : tail.head?.any Char.isDigit = false := by
      cases tail with
      | nil => rfl
      | cons c rest => exact (htail c rfl).1
    show readWhole ⟨'0' :: tail, offset⟩ = _
    simp only [readWhole, hhead]
    rfl
  · obtain ⟨c, ds, hcons⟩ := List.exists_cons_of_ne_nil (Nat.toDigits_ne_nil (n := n) (b := 10))
    have hzero := head?_toDigits hpos
    have hread := readDigits_append hdigits htail.noDigit offset
    rw [hcons] at hdigits hzero hread ⊢
    refine ⟨offset + (c :: ds).length, ?_⟩
    have hc : c.isDigit = true := hdigits c (List.mem_cons_self ..)
    have hne : c ≠ '0' := fun h => hzero (congrArg some h)
    rw [List.cons_append] at hread ⊢
    simp only [readWhole, hc, Bool.not_true, Bool.false_eq_true, if_false, if_neg hne, hread]

theorem readFraction_of_closed {tail : List Char} (htail : Closed tail) (offset : Nat) :
    readFraction ⟨tail, offset⟩ = .ok (none, ⟨tail, offset⟩) := by
  rw [readFraction]
  split
  · rename_i rest hrest
    cases hrest
    exact absurd rfl (htail '.' rfl).2.1
  · rfl

theorem readExponent_of_closed (zero : Bool) {tail : List Char} (htail : Closed tail)
    (offset : Nat) : readExponent zero ⟨tail, offset⟩ = .ok (none, ⟨tail, offset⟩) := by
  cases tail with
  | nil => rfl
  | cons c rest =>
    obtain ⟨-, -, he, hE⟩ := htail c rfl
    simp only [readExponent, he, hE, or_self, if_false]

/-- The number that a numeral without fraction and exponent stands for, with its sign. -/
theorem value_plain {ds : List Char} {v : Int} (negative : Bool) (hfits : Number.fits v)
    (hv : v = if negative then -(digitsValue ds : Int) else digitsValue ds)
    (hsign : negative = true → v ≠ 0) :
    (Numeral.mk ds [] 0 true).value negative = some (.int v) := by
  obtain ⟨hlow, hhigh⟩ := hfits
  rw [Numeral.value, Numeral.significand, List.append_nil]
  cases negative with
  | false =>
    have hlt : digitsValue ds < UInt64.size := by
      have : v = digitsValue ds := hv
      have hsize : UInt64.size = 18446744073709551616 := rfl
      omega
    simp [hlt, hv]
  | true =>
    have hval : v = -(digitsValue ds : Int) := hv
    have hne : digitsValue ds ≠ 0 := by
      have := hsign rfl
      omega
    have hle : digitsValue ds ≤ 0x8000000000000000 := by omega
    simp [hne, hle, hval]

/-- **A whole number is read back behind its sign.** -/
theorem readNumber_toDigits {n : Nat} (negative : Bool) {v : Int} (hfits : Number.fits v)
    (hv : v = if negative then -(n : Int) else n) (hsign : negative = true → v ≠ 0)
    {tail : List Char} (htail : Closed tail) (offset : Nat) :
    ∃ offset', readNumber negative ⟨Nat.toDigits 10 n ++ tail, offset⟩ =
      .ok (.int v, ⟨tail, offset'⟩) := by
  have hdigits : digitsValue (Nat.toDigits 10 n) = n :=
    Nat.ofDigitChars_toDigits (by decide) (by decide)
  obtain ⟨offset', hwhole⟩ := readWhole_toDigits n htail offset
  refine ⟨offset', ?_⟩
  have hvalue : (Numeral.mk (Nat.toDigits 10 n) [] 0 true).value negative = some (.int v) :=
    value_plain negative hfits (by rw [hdigits]; exact hv) hsign
  simp only [readNumber, hwhole, readFraction_of_closed htail, readExponent_of_closed _ htail,
    Option.getD_none, Option.isNone_none, Bool.and_self, hvalue]

end TreeWalk.Json
