/-
What the reader consumes when it reads a scalar.

Where a word, a number or a string has been read, what was consumed is spelled as the grammar
says.  Each lemma splits the text before a token into the token and the text behind it.

And what was consumed is all that counts.  The same characters are read as the same token
anywhere, unless the text behind them begins with something that could go on a number:
`Consumes`.
-/
import TreeWalk.Proofs.Json.Grammar

namespace TreeWalk

namespace Json

open Grammar

/-- The function makes the content of the characters and stops where they end, if what stands
behind them begins as it has to. -/
def Consumes {α : Type} (begins : List Char → Prop) (read : Input → Except Fault (α × Input))
    (cs : List Char) (a : α) : Prop :=
  ∀ tail, begins tail → ∀ offset, ∃ offset', read ⟨cs ++ tail, offset⟩ = .ok (a, ⟨tail, offset'⟩)

/-- Any text. -/
def Anything (_ : List Char) : Prop := True

variable {inp behind : Input}

theorem rest_skipBlanks (inp : Input) :
    ∃ blanks, Blanks blanks ∧ inp.rest = blanks ++ inp.skipBlanks.rest :=
  ⟨inp.rest.takeWhile Input.isBlank, fun _ => List.all_eq_true.1 List.all_takeWhile _,
    List.takeWhile_append_dropWhile.symm⟩

theorem rest_readWord {word : List Char} (h : readWord word inp = .ok behind) :
    inp.rest = word ++ behind.rest := by
  induction word generalizing inp with
  | nil =>
    obtain rfl := Except.ok.inj h
    rfl
  | cons w word ih =>
    rw [readWord] at h
    split at h
    · cases h
    · rename_i c rest hr
      split at h
      · rename_i hcw
        rw [hr, hcw, List.cons_append, ← ih h]
      · cases h

theorem readWord_append (word tail : List Char) (offset : Nat) :
    ∃ offset', readWord word ⟨word ++ tail, offset⟩ = .ok ⟨tail, offset'⟩ := by
  induction word generalizing offset with
  | nil => exact ⟨offset, rfl⟩
  | cons w word ih =>
    obtain ⟨offset', h⟩ := ih (offset + 1)
    refine ⟨offset', ?_⟩
    rw [List.cons_append, readWord]
    exact (if_pos rfl).trans h

/-! ### Numbers -/

theorem rest_readDigits (inp : Input) : inp.rest = (readDigits inp).1 ++ (readDigits inp).2.rest :=
  List.takeWhile_append_dropWhile.symm

theorem digits_readDigits (h : (readDigits inp).1 ≠ []) : Digits (readDigits inp).1 :=
  ⟨h, fun _ => List.all_eq_true.1 List.all_takeWhile _⟩

theorem consumes_readWhole {ds : List Char} (h : Whole ds) : Consumes NoDigit readWhole ds ds := by
  intro tail htail offset
  obtain ⟨⟨hne, hdigits⟩, hzero⟩ := h
  have hread := readDigits_append hdigits htail offset
  obtain ⟨d, ds, rfl⟩ := List.exists_cons_of_ne_nil hne
  have hd : d.isDigit = true := hdigits d (List.mem_cons_self ..)
  rw [List.cons_append] at hread ⊢
  by_cases hfirst : d = '0'
  · subst hfirst
    obtain rfl : ds = [] := (List.cons.inj (hzero rfl)).2
    have hnone : tail.head?.any Char.isDigit = false := by
      cases tail with
      | nil => rfl
      | cons c tail => exact htail c rfl
    refine ⟨offset + 1, ?_⟩
    simp only [readWhole, List.nil_append, hd, Bool.not_true, Bool.false_eq_true, if_false, if_true,
      hnone]
  · refine ⟨offset + (d :: ds).length, ?_⟩
    simp only [readWhole, hd, Bool.not_true, Bool.false_eq_true, if_false, if_neg hfirst, hread]

theorem rest_readWhole {ds : List Char} (h : readWhole inp = .ok (ds, behind)) :
    Whole ds ∧ inp.rest = ds ++ behind.rest := by
  rw [readWhole] at h
  split at h
  · cases h
  · rename_i c rest hr
    split at h
    · cases h
    · rename_i hc
      split at h
      · rename_i hzero
        subst hzero
        split at h
        · cases h
        · obtain ⟨rfl, rfl⟩ := Prod.mk.inj (Except.ok.inj h)
          exact ⟨by decide, hr⟩
      · rename_i hzero
        have hrest := rest_readDigits inp
        have hfirst : (readDigits inp).1 = c :: rest.takeWhile Char.isDigit := by
          rw [readDigits, hr]
          exact List.takeWhile_cons_of_pos (by simpa using hc)
        have hdigits := digits_readDigits (hfirst ▸ List.cons_ne_nil _ _)
        rw [Except.ok.inj h] at hrest hfirst hdigits
        dsimp only at hrest hfirst hdigits
        refine ⟨⟨hdigits, ?_⟩, hrest⟩
        intro hhead
        rw [hfirst] at hhead
        exact (hzero (Option.some.inj hhead)).elim

/-- Nothing stands here that could go on a whole number. -/
def NoFraction (tail : List Char) : Prop := NoDigit tail ∧ tail.head? ≠ some '.'

theorem rest_readFraction {ds : Option (List Char)} (h : readFraction inp = .ok (ds, behind)) :
    ∃ cs, Fraction cs ∧ inp.rest = cs ++ behind.rest ∧ Consumes NoFraction readFraction cs ds := by
  rw [readFraction] at h
  split at h
  · rename_i rest hr
    have hrest := rest_readDigits ⟨rest, inp.offset + 1⟩
    split at h
    · cases h
    · rename_i ds _ hnone hd
      obtain ⟨rfl, rfl⟩ := Prod.mk.inj (Except.ok.inj h)
      have hdigits : (readDigits ⟨rest, inp.offset + 1⟩).1 ≠ [] →
          Digits (readDigits ⟨rest, inp.offset + 1⟩).1 := digits_readDigits
      rw [hd] at hrest hdigits
      replace hdigits := hdigits fun hempty => hnone hempty
      refine ⟨'.' :: ds, .inr ⟨ds, hdigits, rfl⟩, by rw [hr, List.cons_append, ← hrest], ?_⟩
      intro tail htail offset
      have hread := readDigits_append hdigits.2 htail.1 (offset + 1)
      refine ⟨offset + 1 + ds.length, ?_⟩
      simp only [readFraction, List.cons_append, hread]
  · obtain ⟨rfl, rfl⟩ := Prod.mk.inj (Except.ok.inj h)
    refine ⟨[], .inl rfl, rfl, fun tail htail offset => ⟨offset, ?_⟩⟩
    rw [List.nil_append, readFraction]
    split
    · rename_i heq
      exact absurd (congrArg List.head? heq) htail.2
    · rfl

theorem rest_readExponentSign (inp : Input) :
    ∃ sign ∈ [[], ['+'], ['-']], inp.rest = sign ++ (readExponentSign inp).2.rest ∧
      ∀ d, d.isDigit = true → ∀ tail offset, ∃ offset',
        readExponentSign ⟨sign ++ d :: tail, offset⟩ =
          ((readExponentSign inp).1, ⟨d :: tail, offset'⟩) := by
  unfold readExponentSign
  split
  · rename_i hr
    exact ⟨['+'], by decide, hr, fun d _ tail offset => ⟨offset + 1, rfl⟩⟩
  · rename_i hr
    exact ⟨['-'], by decide, hr, fun d _ tail offset => ⟨offset + 1, rfl⟩⟩
  · refine ⟨[], by decide, rfl, fun d hd tail offset => ⟨offset, ?_⟩⟩
    split
    · rename_i heq
      obtain ⟨rfl, -⟩ := List.cons.inj heq
      exact absurd hd (by decide)
    · rename_i heq
      obtain ⟨rfl, -⟩ := List.cons.inj heq
      exact absurd hd (by decide)
    · rfl

/-- What the digits of an exponent come to, given where they begin and what stands behind them. -/
def exponentOf (zero negative : Bool) (ds : List Char) (offset : Nat) (behind : Input) :
    Except Fault (Option Int × Input) :=
  let signed (size : Nat) : Int := if negative then -size else size
  match exponentOverflow 0 0 ds with
  | some k =>
    if !zero && !negative then .error ⟨.numberOutOfRange, offset + k⟩
    else .ok (some (signed (maxExponent + 1)), behind)
  | none => .ok (some (signed (digitsValue ds)), behind)

theorem readExponent_of_sign {zero negative : Bool} {letter : Char} {rest : List Char}
    {offset : Nat} {signed : Input} (hletter : letter = 'e' ∨ letter = 'E')
    (hsign : readExponentSign ⟨rest, offset + 1⟩ = (negative, signed)) {d : Char} {ds : List Char}
    (hd : signed.rest = d :: ds) (hdigit : d.isDigit = true) :
    readExponent zero ⟨letter :: rest, offset⟩ =
      exponentOf zero negative (readDigits signed).1 signed.offset (readDigits signed).2 := by
  simp only [readExponent, if_pos hletter, hsign, hd, hdigit, Bool.not_true, Bool.false_eq_true,
    if_false]
  rfl

/-- Digits that come to an exponent come to it anywhere. -/
theorem exponentOf_eq_ok {zero negative : Bool} {ds : List Char} (offset : Nat) {inp : Input}
    {e : Option Int} (h : exponentOf zero negative ds offset inp = .ok (e, behind)) :
    behind = inp ∧ ∀ offset inp, exponentOf zero negative ds offset inp = .ok (e, inp) := by
  unfold exponentOf at h ⊢
  dsimp only at h ⊢
  split at h
  · split at h
    · cases h
    · rename_i hsmall
      obtain ⟨rfl, rfl⟩ := Prod.mk.inj (Except.ok.inj h)
      exact ⟨rfl, fun _ _ => if_neg hsmall⟩
  · obtain ⟨rfl, rfl⟩ := Prod.mk.inj (Except.ok.inj h)
    exact ⟨rfl, fun _ _ => rfl⟩

theorem rest_readExponent {zero : Bool} {e : Option Int}
    (h : readExponent zero inp = .ok (e, behind)) :
    ∃ cs, Exponent cs ∧ inp.rest = cs ++ behind.rest ∧
      Consumes Closed (readExponent zero) cs e := by
  have hnone : Consumes Closed (readExponent zero) [] none :=
    fun tail htail offset => ⟨offset, readExponent_of_closed zero htail offset⟩
  simp only [readExponent] at h
  split at h
  · rename_i letter rest hr
    split at h
    · rename_i hletter
      obtain ⟨sign, hsign, hrest, hagain⟩ := rest_readExponentSign ⟨rest, inp.offset + 1⟩
      generalize readExponentSign ⟨rest, inp.offset + 1⟩ = signed at h hrest hagain
      obtain ⟨negative, signed⟩ := signed
      dsimp only at h hrest hagain
      split at h
      · cases h
      · rename_i d ds hd
        split at h
        · cases h
        · rename_i hdigit
          replace hdigit : d.isDigit = true := by simpa using hdigit
          have hfirst : (readDigits signed).1 = d :: ds.takeWhile Char.isDigit := by
            rw [readDigits, hd]
            exact List.takeWhile_cons_of_pos hdigit
          have hdigits := digits_readDigits (hfirst ▸ List.cons_ne_nil _ _)
          have hrest' := rest_readDigits signed
          obtain ⟨rfl, hanywhere⟩ := exponentOf_eq_ok signed.offset h
          generalize (readDigits signed).1 = digits at hfirst hdigits hrest' hanywhere
          refine ⟨letter :: (sign ++ digits), .inr ⟨letter, by simpa using hletter, sign, hsign, _,
            hdigits, rfl⟩, ?_, ?_⟩
          · rw [hr, hrest, hrest', List.cons_append, List.append_assoc]
          · intro tail htail offset
            obtain ⟨digitsOffset, hagain⟩ := hagain d hdigit (ds.takeWhile Char.isDigit ++ tail)
              (offset + 1)
            rw [← List.cons_append, ← hfirst] at hagain
            refine ⟨digitsOffset + digits.length, ?_⟩
            rw [List.cons_append, List.append_assoc,
              readExponent_of_sign hletter hagain (congrArg (· ++ tail) hfirst) hdigit,
              readDigits_append hdigits.2 htail.noDigit]
            exact hanywhere _ _
    · obtain ⟨rfl, rfl⟩ := Prod.mk.inj (Except.ok.inj h)
      exact ⟨[], .inl rfl, rfl, hnone⟩
  · obtain ⟨rfl, rfl⟩ := Prod.mk.inj (Except.ok.inj h)
    exact ⟨[], .inl rfl, rfl, hnone⟩

/-- No part of a number can begin as the part before it goes on. -/
theorem Closed.noFraction {exponent tail : List Char} (htail : Closed tail)
    (h : Exponent exponent) : NoFraction (exponent ++ tail) := by
  rcases h with rfl | ⟨letter, hletter, sign, -, ds, -, rfl⟩
  · exact ⟨htail.noDigit, fun hpoint => (htail '.' hpoint).2.1 rfl⟩
  · have hletters : ∀ l ∈ ['e', 'E'], l.isDigit = false ∧ l ≠ '.' := by
      simp only [List.forall_mem_cons]
      exact ⟨by decide, by decide, List.forall_mem_nil _⟩
    obtain ⟨hdigit, hpoint⟩ := hletters letter hletter
    refine ⟨?_, fun hhead => hpoint (Option.some.inj hhead)⟩
    rintro c ⟨⟩
    exact hdigit

theorem NoFraction.noDigit {fraction tail : List Char} (htail : NoFraction tail)
    (h : Fraction fraction) : NoDigit (fraction ++ tail) := by
  rcases h with rfl | ⟨ds, -, rfl⟩
  · exact htail.1
  · rintro c ⟨⟩
    decide

/-- What is read behind the sign of a number, or without one, makes a number with it. -/
theorem rest_readNumber {negative : Bool} {n : Number}
    (h : readNumber negative inp = .ok (n, behind)) :
    ∃ cs, (∀ sign ∈ [[], ['-']], Numeric (sign ++ cs)) ∧ inp.rest = cs ++ behind.rest ∧
      Consumes Closed (readNumber negative) cs n := by
  simp only [readNumber] at h
  split at h
  · cases h
  · rename_i hreadWhole
    obtain ⟨hwhole, hrest⟩ := rest_readWhole hreadWhole
    split at h
    · cases h
    · rename_i hreadFraction
      obtain ⟨fraction, hfraction, hrest', hagainFraction⟩ := rest_readFraction hreadFraction
      split at h
      · cases h
      · rename_i hreadExponent
        obtain ⟨exponent, hexponent, hrest'', hagainExponent⟩ := rest_readExponent hreadExponent
        split at h
        · rename_i hvalue
          obtain ⟨rfl, rfl⟩ := Prod.mk.inj (Except.ok.inj h)
          refine ⟨_, fun sign hsign => ⟨sign, hsign, _, _, _, hwhole, hfraction, hexponent, rfl⟩,
            ?_, ?_⟩
          · rw [hrest, hrest', hrest'', List.append_assoc, List.append_assoc]
          · intro tail htail offset
            have hbehindWhole := (htail.noFraction hexponent).noDigit hfraction
            obtain ⟨offset₁, hread₁⟩ := consumes_readWhole hwhole _ hbehindWhole offset
            obtain ⟨offset₂, hread₂⟩ := hagainFraction _ (htail.noFraction hexponent) offset₁
            obtain ⟨offset₃, hread₃⟩ := hagainExponent tail htail offset₂
            refine ⟨offset₃, ?_⟩
            rw [List.append_assoc, List.append_assoc]
            simp only [readNumber, hread₁, hread₂, hread₃, hvalue]
        · cases h

/-! ### Strings -/

theorem hexDigit_of_hexValue? {c : Char} {n : Nat} (h : hexValue? c = some n) : HexDigit c := by
  rw [hexValue?] at h
  split at h
  · exact .inl ‹_›
  split at h
  · exact .inr (.inl ‹_›)
  split at h
  · exact .inr (.inr ‹_›)
  · cases h

theorem rest_readHex {n : Nat} (h : readHex inp = .ok (n, behind)) :
    ∃ cs, Spelled ('\\' :: 'u' :: cs) ∧ inp.rest = cs ++ behind.rest ∧
      Consumes Anything readHex cs n := by
  simp only [readHex] at h
  split at h
  · rename_i a b c d rest hr
    split at h
    · rename_i hhex
      obtain ⟨rfl, rfl⟩ := Prod.mk.inj (Except.ok.inj h)
      refine ⟨[a, b, c, d], ?_, hr, ?_⟩
      · simp only [hexValue4?, Option.bind_eq_bind, Option.bind_eq_some_iff] at hhex
        obtain ⟨_, ha, _, hb, _, hc, _, hd, -⟩ := hhex
        exact .code (hexDigit_of_hexValue? ha) (hexDigit_of_hexValue? hb)
          (hexDigit_of_hexValue? hc) (hexDigit_of_hexValue? hd)
      · intro tail _ offset
        refine ⟨offset + 4, ?_⟩
        simp only [readHex, List.cons_append, List.nil_append, hhex]
    · cases h
  · split at h <;> cases h

theorem rest_readLowSurrogate {n : Nat} (h : readLowSurrogate inp = .ok (n, behind)) :
    ∃ cs, Spelled cs ∧ inp.rest = cs ++ behind.rest ∧ Consumes Anything readLowSurrogate cs n := by
  simp only [readLowSurrogate] at h
  split at h
  · cases h
  · cases h
  · rename_i rest hr
    split at h
    · cases h
    · rename_i hhex
      split at h
      · rename_i hlow
        obtain ⟨rfl, rfl⟩ := Prod.mk.inj (Except.ok.inj h)
        obtain ⟨cs, hcs, hrest, hagain⟩ := rest_readHex hhex
        refine ⟨_, hcs, by rw [hr, List.cons_append, List.cons_append, ← hrest], ?_⟩
        intro tail _ offset
        obtain ⟨offset', hread⟩ := hagain tail trivial (offset + 2)
        refine ⟨offset', ?_⟩
        simp only [List.cons_append, readLowSurrogate, hread, if_pos hlow]
      · cases h
  · cases h
  · cases h

/-- One code has been read, or two that stand for one character together. -/
theorem rest_readUnicodeEscape {c : Char} (h : readUnicodeEscape inp = .ok (c, behind)) :
    ∃ cs, Spelling ('\\' :: 'u' :: cs) ∧ inp.rest = cs ++ behind.rest ∧
      Consumes Anything readUnicodeEscape cs c := by
  simp only [readUnicodeEscape] at h
  split at h
  · cases h
  · rename_i hhex
    obtain ⟨cs, hcs, hrest, hagain⟩ := rest_readHex hhex
    split at h
    · cases h
    · rename_i hsecond
      split at h
      · rename_i hfirst
        split at h
        · cases h
        · rename_i hlow
          obtain ⟨rfl, rfl⟩ := Prod.mk.inj (Except.ok.inj h)
          obtain ⟨ds, hds, hrest', hagain'⟩ := rest_readLowSurrogate hlow
          refine ⟨cs ++ ds, hcs.spelling.append hds.spelling, by
            rw [hrest, hrest', List.append_assoc], ?_⟩
          intro tail _ offset
          obtain ⟨offset₁, hread⟩ := hagain (ds ++ tail) trivial offset
          obtain ⟨offset₂, hread'⟩ := hagain' tail trivial offset₁
          refine ⟨offset₂, ?_⟩
          simp only [List.append_assoc, readUnicodeEscape, hread, if_neg hsecond, if_pos hfirst,
            hread']
      · rename_i hfirst
        obtain ⟨rfl, rfl⟩ := Prod.mk.inj (Except.ok.inj h)
        refine ⟨cs, hcs.spelling, hrest, fun tail _ offset => ?_⟩
        obtain ⟨offset', hread⟩ := hagain tail trivial offset
        refine ⟨offset', ?_⟩
        simp only [readUnicodeEscape, hread, if_neg hsecond, if_neg hfirst]

theorem mem_escapes_of_shortEscape? {c e : Char} (h : shortEscape? c = some e) : c ∈ escapes := by
  unfold shortEscape? at h
  split at h <;> first | decide | cases h

theorem rest_readEscape {c : Char} (h : readEscape inp = .ok (c, behind)) :
    ∃ cs, Spelling ('\\' :: cs) ∧ inp.rest = cs ++ behind.rest ∧
      Consumes Anything readEscape cs c := by
  rw [readEscape] at h
  split at h
  · cases h
  · rename_i d rest hr
    split at h
    · rename_i hd
      subst hd
      obtain ⟨cs, hcs, hrest, hagain⟩ := rest_readUnicodeEscape h
      refine ⟨'u' :: cs, hcs, by rw [hr, List.cons_append, ← hrest], fun tail _ offset => ?_⟩
      obtain ⟨offset', hread⟩ := hagain tail trivial (offset + 1)
      exact ⟨offset', hread⟩
    · rename_i hd
      split at h
      · rename_i hescape
        obtain ⟨rfl, rfl⟩ := Prod.mk.inj (Except.ok.inj h)
        refine ⟨[d], (Spelled.escape (mem_escapes_of_shortEscape? hescape)).spelling, hr,
          fun tail _ offset => ⟨offset + 1, ?_⟩⟩
        simp only [List.cons_append, List.nil_append, readEscape, if_neg hd, hescape]
      · cases h

/-- What is read behind the quote of a string spells characters and ends the string. -/
theorem rest_readString {done : List Char} {s : String}
    (h : readString done inp = .ok (s, behind)) :
    ∃ cs, Quoted ('"' :: cs) ∧ inp.rest = cs ++ behind.rest ∧
      Consumes Anything (readString done) cs s := by
  suffices hspelling : ∃ cs, Spelling cs ∧ inp.rest = cs ++ '"' :: behind.rest ∧
      ∀ tail offset, ∃ offset', readString done ⟨cs ++ '"' :: tail, offset⟩ =
        .ok (s, ⟨tail, offset'⟩) by
    obtain ⟨cs, hcs, hrest, hagain⟩ := hspelling
    refine ⟨cs ++ ['"'], ⟨cs, hcs, rfl⟩, by rw [hrest, List.append_assoc]; rfl, ?_⟩
    intro tail _ offset
    rw [List.append_assoc]
    exact hagain tail offset
  fun_induction readString done inp with
  | case1 => cases h
  | case2 done inp rest hr =>
    obtain ⟨rfl, rfl⟩ := Prod.mk.inj (Except.ok.inj h)
    refine ⟨[], .nil, hr, fun tail offset => ⟨offset + 1, ?_⟩⟩
    rw [List.nil_append, readString_cons, if_pos rfl]
  | case3 done inp rest e escaped he hr _ ih =>
    obtain ⟨cs, hcs, hrest, hagain⟩ := rest_readEscape he
    obtain ⟨ds, hds, hrest', hagain'⟩ := ih h
    refine ⟨'\\' :: (cs ++ ds), hcs.append hds, by
      rw [hr, List.cons_append, List.append_assoc, ← hrest', ← hrest], fun tail offset => ?_⟩
    obtain ⟨offset₁, hread⟩ := hagain (ds ++ '"' :: tail) trivial (offset + 1)
    obtain ⟨offset₂, hread'⟩ := hagain' tail offset₁
    refine ⟨offset₂, ?_⟩
    rw [List.cons_append, List.append_assoc, readString_cons, if_neg (by decide), if_pos rfl, hread]
    exact hread'
  | case4 => cases h
  | case5 => cases h
  | case6 done inp c rest hr hquote hbackslash hcontrol ih =>
    obtain ⟨cs, hcs, hrest, hagain⟩ := ih h
    have hplain : Spelled [c] := .plain hquote hbackslash (Nat.not_lt.1 hcontrol)
    refine ⟨c :: cs, hplain.spelling.append hcs, by rw [hr, List.cons_append, ← hrest],
      fun tail offset => ?_⟩
    obtain ⟨offset', hread⟩ := hagain tail (offset + c.utf8Size)
    refine ⟨offset', ?_⟩
    rw [List.cons_append, readString_cons, if_neg hquote, if_neg hbackslash, if_neg hcontrol]
    exact hread

/-! ### Scalars -/

/-- What is made of what was read has been read. -/
theorem exists_read {α β : Type} {f : α → β} {r : Except Fault (α × Input)} {b : β}
    (h : (r.map fun (a, behind) => (f a, behind)) = .ok (b, behind)) :
    ∃ a, r = .ok (a, behind) ∧ f a = b := by
  cases r with
  | error e => cases h
  | ok p =>
    obtain ⟨rfl, rfl⟩ := Prod.mk.inj (Except.ok.inj h)
    exact ⟨p.1, rfl, rfl⟩

/-- A scalar has been read, and nests nothing. -/
theorem rest_readScalar {c : Char} {rest : List Char} {offset : Nat} {v : Json}
    (h : readScalar c rest offset = .ok (v, behind)) :
    ∃ cs, Derives .value (c :: cs) v.depth ∧ v.depth = 0 ∧ rest = cs ++ behind.rest ∧
      ∀ tail, Closed tail → ∀ offset, ∃ offset',
        readScalar c (cs ++ tail) offset = .ok (v, ⟨tail, offset'⟩) := by
  have hword {w : Json} {word : List Char} (hw : w.depth = 0) (hmem : c :: word ∈ words)
      (hagain : ∀ rest offset, readScalar c rest offset =
        (readWord word ⟨rest, offset + 1⟩).map fun behind => (w, behind))
      (h : (readWord word ⟨rest, offset + 1⟩).map (fun behind => (w, behind)) =
        .ok (v, behind)) :
      ∃ cs, Derives .value (c :: cs) v.depth ∧ v.depth = 0 ∧ rest = cs ++ behind.rest ∧
        ∀ tail, Closed tail → ∀ offset, ∃ offset',
          readScalar c (cs ++ tail) offset = .ok (v, ⟨tail, offset'⟩) := by
    cases hread : readWord word ⟨rest, offset + 1⟩ with
    | error f =>
      rw [hread] at h
      cases h
    | ok behind' =>
      rw [hread] at h
      obtain ⟨rfl, rfl⟩ := Prod.mk.inj (Except.ok.inj h)
      refine ⟨word, hw ▸ .word hmem, hw, rest_readWord hread, fun tail _ offset => ?_⟩
      obtain ⟨offset', hword⟩ := readWord_append word tail (offset + 1)
      exact ⟨offset', by rw [hagain, hword]; rfl⟩
  rw [readScalar] at h
  split at h
  · rename_i hc
    subst hc
    obtain ⟨s, hread, rfl⟩ := exists_read h
    obtain ⟨cs, hcs, hrest, hagain⟩ := rest_readString hread
    refine ⟨cs, .string hcs, rfl, hrest, fun tail _ offset => ?_⟩
    obtain ⟨offset', hread⟩ := hagain tail trivial (offset + 1)
    exact ⟨offset', by rw [readScalar, if_pos rfl, hread]; rfl⟩
  rename_i hquote
  split at h
  · rename_i hc
    subst hc
    obtain ⟨n, hread, rfl⟩ := exists_read h
    obtain ⟨cs, hcs, hrest, hagain⟩ := rest_readNumber hread
    refine ⟨cs, .number (hcs ['-'] (by decide)), rfl, hrest, fun tail htail offset => ?_⟩
    obtain ⟨offset', hread⟩ := hagain tail htail (offset + 1)
    exact ⟨offset', by rw [readScalar, if_neg hquote, if_pos rfl, hread]; rfl⟩
  rename_i hminus
  split at h
  · rename_i hdigit
    obtain ⟨n, hread, rfl⟩ := exists_read h
    have hlength := length_readNumber hread
    obtain ⟨cs, hcs, hrest, hagain⟩ := rest_readNumber hread
    cases cs with
    | nil =>
      rw [hrest] at hlength
      exact absurd hlength (Nat.lt_irrefl _)
    | cons d cs =>
      obtain ⟨rfl, htail⟩ := List.cons.inj hrest
      refine ⟨cs, .number (hcs [] (by decide)), rfl, htail, fun tail htail offset => ?_⟩
      obtain ⟨offset', hread⟩ := hagain tail htail offset
      refine ⟨offset', ?_⟩
      rw [List.cons_append] at hread
      rw [readScalar, if_neg hquote, if_neg hminus, if_pos hdigit, hread]
      rfl
  split at h
  · rename_i hc
    subst hc
    exact hword rfl (by decide) (fun _ _ => rfl) h
  split at h
  · rename_i hc
    subst hc
    exact hword rfl (by decide) (fun _ _ => rfl) h
  split at h
  · rename_i hc
    subst hc
    exact hword rfl (by decide) (fun _ _ => rfl) h
  · cases h

end Json

end TreeWalk
