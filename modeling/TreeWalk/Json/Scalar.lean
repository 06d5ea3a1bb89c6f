/-
Words, numbers and strings of a JSON text.

Each function reads one scalar from the front of the input and gives the input behind
it, or the fault at which reading stops.  A number without a fraction and an exponent
is exact when it fits in 64 bits; every other number, and `-0`, is the double nearest
to it, and a fault if that is infinite.
-/
import TreeWalk.Json.Input
import TreeWalk.Json.Value

namespace TreeWalk.Json

/-! ### Words -/

/-- Reads the characters of a word. -/
def readWord : List Char → Input → Except Fault Input
  | [], inp => .ok inp
  | w :: word, inp =>
    match inp.rest with
    | [] => .error (inp.faultAfter .endInValue)
    | c :: rest =>
      if c = w then readWord word ⟨rest, inp.offset + 1⟩
      else .error ⟨.noWord, inp.offset + 1⟩

theorem length_readWord {word : List Char} {inp behind : Input}
    (h : readWord word inp = .ok behind) : behind.rest.length ≤ inp.rest.length := by
  induction word generalizing inp with
  | nil =>
    simp only [readWord, Except.ok.injEq] at h
    exact h ▸ Nat.le_refl _
  | cons w word ih =>
    simp only [readWord] at h
    split at h
    · cases h
    · rename_i hr
      split at h
      · have := ih h
        simp only [hr, List.length_cons] at this ⊢
        omega
      · cases h

/-! ### Numbers -/

/-- The number that decimal digits stand for. -/
def digitsValue (ds : List Char) : Nat := ds.foldl (fun n d => 10 * n + (d.toNat - '0'.toNat)) 0

/-- Splits the decimal digits off the front. -/
def readDigits (inp : Input) : List Char × Input :=
  let ds := inp.rest.takeWhile Char.isDigit
  (ds, ⟨inp.rest.dropWhile Char.isDigit, inp.offset + ds.length⟩)

/-- The double nearest to `significand · 10^exponent`, unless that is infinite.  Doubles end below
`2^1024`, and what is below `2^-1075` is nearest to zero; a power of ten lies between the powers of
two with three times and with four times its exponent. -/
def nearestFloat (significand : Nat) (exponent : Int) : Option Float :=
  if significand = 0 ∨ significand.log2 + max (3 * exponent) (4 * exponent) < -1100 then some 0.0
  else if significand.log2 + min (3 * exponent) (4 * exponent) > 1100 then none
  else
    let x := Float.ofScientific significand (exponent < 0) exponent.natAbs
    if x.isInf then none else some x

/-- The written parts of a number behind its sign. -/
structure Numeral where
  whole : List Char
  fraction : List Char
  exponent : Int
  /-- Whether there is neither a fraction nor an exponent. -/
  plain : Bool

namespace Numeral

/-- The digits without a point. -/
def significand (n : Numeral) : Nat := digitsValue (n.whole ++ n.fraction)

/-- The number that a numeral stands for, unless it is out of range. -/
def value (n : Numeral) (negative : Bool) : Option Number :=
  let m := n.significand
  if n.plain && !negative && m < UInt64.size then some (.int m)
  else if n.plain && negative && m != 0 && m ≤ 0x8000000000000000 then some (.int (-m))
  else (nearestFloat m (n.exponent - n.fraction.length)).map fun x =>
    .float (if negative then -x else x)

end Numeral

/-- Reads the digits before the point: a zero, or digits that start with another. -/
def readWhole (inp : Input) : Except Fault (List Char × Input) :=
  match inp.rest with
  | [] => .error (inp.faultAfter .endInValue)
  | c :: rest =>
    if !c.isDigit then .error ⟨.badNumber, inp.offset + 1⟩
    else if c = '0' then
      let inp : Input := ⟨rest, inp.offset + 1⟩
      if rest.head?.any Char.isDigit then .error (inp.faultAt .badNumber) else .ok (['0'], inp)
    else .ok (readDigits inp)

/-- Reads a point and the digits behind it, if there is a point. -/
def readFraction (inp : Input) : Except Fault (Option (List Char) × Input) :=
  match inp.rest with
  | '.' :: rest =>
    match readDigits ⟨rest, inp.offset + 1⟩ with
    | ([], inp) =>
      .error (inp.faultAt (if inp.rest.isEmpty then .endInValue else .badNumber))
    | (ds, inp) => .ok (some ds, inp)
  | _ => .ok (none, inp)

/-- The largest exponent that is told from a larger one. -/
def maxExponent : Nat := 0x7fffffff

/-- How many of an exponent's digits it takes to leave the range of exponents, when `taken` digits
before them stand for `size`. -/
def exponentOverflow (taken size : Nat) : List Char → Option Nat
  | [] => none
  | d :: rest =>
    let size := 10 * size + (d.toNat - '0'.toNat)
    if size > maxExponent then some (taken + 1) else exponentOverflow (taken + 1) size rest

/-- Reads the sign in front of an exponent. -/
def readExponentSign (inp : Input) : Bool × Input :=
  match inp.rest with
  | '+' :: rest => (false, ⟨rest, inp.offset + 1⟩)
  | '-' :: rest => (true, ⟨rest, inp.offset + 1⟩)
  | _ => (false, inp)

/-- Reads an exponent, if there is one.  One that is too large to be told from infinity is a fault
as soon as that shows, unless the number is zero whatever its exponent; `zero` says whether it is. -/
def readExponent (zero : Bool) (inp : Input) : Except Fault (Option Int × Input) :=
  match inp.rest with
  | e :: rest =>
    if e = 'e' ∨ e = 'E' then
      let (negative, inp) := readExponentSign ⟨rest, inp.offset + 1⟩
      match inp.rest with
      | [] => .error (inp.faultAfter .endInValue)
      | d :: _ =>
        if !d.isDigit then .error ⟨.badNumber, inp.offset + 1⟩
        else
          let (ds, behind) := readDigits inp
          let signed (size : Nat) : Int := if negative then -size else size
          match exponentOverflow 0 0 ds with
          | some k =>
            if !zero && !negative then .error ⟨.numberOutOfRange, inp.offset + k⟩
            else .ok (some (signed (maxExponent + 1)), behind)
          | none => .ok (some (signed (digitsValue ds)), behind)
    else .ok (none, inp)
  | [] => .ok (none, inp)

/-- Reads a number behind its sign. -/
def readNumber (negative : Bool) (inp : Input) : Except Fault (Number × Input) :=
  match readWhole inp with
  | .error f => .error f
  | .ok (whole, inp) =>
    match readFraction inp with
    | .error f => .error f
    | .ok (fraction, inp) =>
      match readExponent ((whole ++ fraction.getD []).all (· = '0')) inp with
      | .error f => .error f
      | .ok (exponent, inp) =>
        let n : Numeral :=
          ⟨whole, fraction.getD [], exponent.getD 0, fraction.isNone && exponent.isNone⟩
        match n.value negative with
        | some v => .ok (v, inp)
        | none => .error (inp.faultAfter .numberOutOfRange)

/-! Reading a number consumes at least one character. -/

theorem length_readDigits (inp : Input) :
    (readDigits inp).2.rest.length ≤ inp.rest.length :=
  (List.dropWhile_sublist Char.isDigit).length_le

theorem length_readWhole {inp behind : Input} {ds : List Char}
    (h : readWhole inp = .ok (ds, behind)) : behind.rest.length < inp.rest.length := by
  simp only [readWhole] at h
  split at h
  · cases h
  · rename_i c rest hr
    split at h
    · cases h
    · rename_i hd
      split at h
      · split at h
        · cases h
        · simp only [Except.ok.injEq, Prod.mk.injEq] at h
          obtain ⟨-, rfl⟩ := h
          simp [hr]
      · simp only [readDigits, Except.ok.injEq, Prod.mk.injEq] at h
        obtain ⟨-, rfl⟩ := h
        have := (List.dropWhile_sublist (l := rest) Char.isDigit).length_le
        have hd : c.isDigit = true := by simpa using hd
        simp only [hr, List.dropWhile_cons, hd, if_true, List.length_cons]
        omega

theorem length_readFraction {inp behind : Input} {ds : Option (List Char)}
    (h : readFraction inp = .ok (ds, behind)) : behind.rest.length ≤ inp.rest.length := by
  simp only [readFraction] at h
  split at h
  · rename_i rest hr
    have hl := length_readDigits ⟨rest, inp.offset + 1⟩
    split at h
    · cases h
    · rename_i hd
      simp only [Except.ok.injEq, Prod.mk.injEq] at h
      obtain ⟨-, rfl⟩ := h
      rw [hd] at hl
      simp only [hr, List.length_cons] at hl ⊢
      omega
  · simp only [Except.ok.injEq, Prod.mk.injEq] at h
    obtain ⟨-, rfl⟩ := h
    exact Nat.le_refl _

theorem length_readExponentSign (inp : Input) :
    (readExponentSign inp).2.rest.length ≤ inp.rest.length := by
  simp only [readExponentSign]
  split <;> rename_i hr <;> simp [hr]

theorem length_readExponent {zero : Bool} {inp behind : Input} {e : Option Int}
    (h : readExponent zero inp = .ok (e, behind)) : behind.rest.length ≤ inp.rest.length := by
  simp only [readExponent] at h
  split at h
  · rename_i e rest hr
    have hs := length_readExponentSign ⟨rest, inp.offset + 1⟩
    have hl := length_readDigits (readExponentSign ⟨rest, inp.offset + 1⟩).2
    simp only [hr, List.length_cons] at hs ⊢
    split at h
    · split at h
      · cases h
      · split at h
        · cases h
        · split at h
          · split at h
            · cases h
            · simp only [Except.ok.injEq, Prod.mk.injEq] at h
              obtain ⟨-, rfl⟩ := h
              omega
          · simp only [Except.ok.injEq, Prod.mk.injEq] at h
            obtain ⟨-, rfl⟩ := h
            omega
    · simp only [Except.ok.injEq, Prod.mk.injEq] at h
      obtain ⟨-, rfl⟩ := h
      simp [hr]
  · simp only [Except.ok.injEq, Prod.mk.injEq] at h
    obtain ⟨-, rfl⟩ := h
    exact Nat.le_refl _

theorem length_readNumber {negative : Bool} {inp behind : Input} {n : Number}
    (h : readNumber negative inp = .ok (n, behind)) : behind.rest.length < inp.rest.length := by
  simp only [readNumber] at h
  split at h
  · cases h
  · rename_i h₁
    have h₁ := length_readWhole h₁
    split at h
    · cases h
    · rename_i h₂
      have h₂ := length_readFraction h₂
      split at h
      · cases h
      · rename_i h₃
        have h₃ := length_readExponent h₃
        split at h
        · simp only [Except.ok.injEq, Prod.mk.injEq] at h
          obtain ⟨-, rfl⟩ := h
          omega
        · cases h

/-! ### Strings -/

/-- The value of a hexadecimal digit. -/
def hexValue? (c : Char) : Option Nat :=
  if '0' ≤ c ∧ c ≤ '9' then some (c.toNat - '0'.toNat)
  else if 'a' ≤ c ∧ c ≤ 'f' then some (c.toNat - 'a'.toNat + 10)
  else if 'A' ≤ c ∧ c ≤ 'F' then some (c.toNat - 'A'.toNat + 10)
  else none

/-- The value of four hexadecimal digits. -/
def hexValue4? (a b c d : Char) : Option Nat := do
  let a ← hexValue? a
  let b ← hexValue? b
  let c ← hexValue? c
  let d ← hexValue? d
  some (((a * 16 + b) * 16 + c) * 16 + d)

/-- Reads four hexadecimal digits.  Where they are no such digits, four bytes are consumed, or all
that are left. -/
def readHex (inp : Input) : Except Fault (Nat × Input) :=
  let bytes := (inp.rest.take 4).foldl (fun n c => n + c.utf8Size) 0
  match inp.rest with
  | a :: b :: c :: d :: rest =>
    match hexValue4? a b c d with
    | some n => .ok (n, ⟨rest, inp.offset + 4⟩)
    | none => .error ⟨.badEscape, inp.offset + 4⟩
  | _ =>
    if bytes < 4 then .error ⟨.endInString, inp.offset + bytes⟩
    else .error ⟨.badEscape, inp.offset + 4⟩

/-- Whether a code unit is the first of a pair. -/
def isHighSurrogate (n : Nat) : Bool := 0xd800 ≤ n && n ≤ 0xdbff

/-- Whether a code unit is the second of a pair. -/
def isLowSurrogate (n : Nat) : Bool := 0xdc00 ≤ n && n ≤ 0xdfff

/-- The character that a pair of code units stands for. -/
def pairedChar (high low : Nat) : Char :=
  Char.ofNat (0x10000 + (high - 0xd800) * 0x400 + (low - 0xdc00))

/-- Reads the second of a pair of code units, `\u` included. -/
def readLowSurrogate (inp : Input) : Except Fault (Nat × Input) :=
  match inp.rest with
  | [] => .error (inp.faultAfter .endInString)
  | '\\' :: [] => .error ⟨.endInString, inp.offset + 1⟩
  | '\\' :: 'u' :: rest =>
    match readHex ⟨rest, inp.offset + 2⟩ with
    | .error f => .error f
    | .ok (n, behind) =>
      if isLowSurrogate n then .ok (n, behind) else .error (behind.faultAfter .loneSurrogate)
  | '\\' :: _ => .error ⟨.escapeCutShort, inp.offset + 2⟩
  | _ => .error ⟨.escapeCutShort, inp.offset + 1⟩

/-- Reads the digits of a `\u` escape, and a second escape where they are the first of a pair. -/
def readUnicodeEscape (inp : Input) : Except Fault (Char × Input) :=
  match readHex inp with
  | .error f => .error f
  | .ok (n, behind) =>
    if isLowSurrogate n then .error (behind.faultAfter .loneSurrogate)
    else if isHighSurrogate n then
      match readLowSurrogate behind with
      | .error f => .error f
      | .ok (low, behind) => .ok (pairedChar n low, behind)
    else .ok (Char.ofNat n, behind)

/-- The character that a short escape stands for. -/
def shortEscape? : Char → Option Char
  | '"' => some '"'
  | '\\' => some '\\'
  | '/' => some '/'
  | 'b' => some '\x08'
  | 'f' => some '\x0c'
  | 'n' => some '\n'
  | 'r' => some '\r'
  | 't' => some '\t'
  | _ => none

/-- Reads an escape behind its backslash. -/
def readEscape (inp : Input) : Except Fault (Char × Input) :=
  match inp.rest with
  | [] => .error (inp.faultAfter .endInString)
  | c :: rest =>
    if c = 'u' then readUnicodeEscape ⟨rest, inp.offset + 1⟩
    else
      match shortEscape? c with
      | some e => .ok (e, ⟨rest, inp.offset + 1⟩)
      | none => .error ⟨.badEscape, inp.offset + 1⟩

theorem length_readHex {inp behind : Input} {n : Nat} (h : readHex inp = .ok (n, behind)) :
    behind.rest.length < inp.rest.length := by
  simp only [readHex] at h
  split at h
  · rename_i hr
    split at h
    · simp only [Except.ok.injEq, Prod.mk.injEq] at h
      obtain ⟨-, rfl⟩ := h
      simp only [hr, List.length_cons]
      omega
    · cases h
  · split at h <;> cases h

theorem length_readLowSurrogate {inp behind : Input} {n : Nat}
    (h : readLowSurrogate inp = .ok (n, behind)) : behind.rest.length < inp.rest.length := by
  simp only [readLowSurrogate] at h
  split at h
  · cases h
  · cases h
  · rename_i hr
    split at h
    · cases h
    · rename_i hx
      split at h
      · simp only [Except.ok.injEq, Prod.mk.injEq] at h
        obtain ⟨-, rfl⟩ := h
        have := length_readHex hx
        simp only [hr, List.length_cons] at this ⊢
        omega
      · cases h
  · cases h
  · cases h

theorem length_readUnicodeEscape {inp behind : Input} {c : Char}
    (h : readUnicodeEscape inp = .ok (c, behind)) : behind.rest.length < inp.rest.length := by
  simp only [readUnicodeEscape] at h
  split at h
  · cases h
  · rename_i hx
    have := length_readHex hx
    split at h
    · cases h
    · split at h
      · split at h
        · cases h
        · rename_i hy
          have := length_readLowSurrogate hy
          simp only [Except.ok.injEq, Prod.mk.injEq] at h
          obtain ⟨-, rfl⟩ := h
          omega
      · simp only [Except.ok.injEq, Prod.mk.injEq] at h
        obtain ⟨-, rfl⟩ := h
        omega

theorem length_readEscape {inp behind : Input} {c : Char}
    (h : readEscape inp = .ok (c, behind)) : behind.rest.length < inp.rest.length := by
  simp only [readEscape] at h
  split at h
  · cases h
  · rename_i hr
    split at h
    · have := length_readUnicodeEscape h
      simp only [hr, List.length_cons] at this ⊢
      omega
    · split at h
      · simp only [Except.ok.injEq, Prod.mk.injEq] at h
        obtain ⟨-, rfl⟩ := h
        simp [hr]
      · cases h

/-- Reads the rest of a string and its closing quote; `done` is what came before, in reverse. -/
def readString (done : List Char) (inp : Input) : Except Fault (String × Input) :=
  match _hr : inp.rest with
  | [] => .error (inp.faultAfter .endInString)
  | c :: rest =>
    if c = '"' then .ok (String.ofList done.reverse, ⟨rest, inp.offset + 1⟩)
    else if c = '\\' then
      match _he : readEscape ⟨rest, inp.offset + 1⟩ with
      | .ok (e, behind) => readString (e :: done) behind
      | .error f => .error f
    else if c.toNat < 0x20 then .error ⟨.controlCharacter, inp.offset + 1⟩
    else readString (c :: done) ⟨rest, inp.offset + c.utf8Size⟩
termination_by inp.rest.length
decreasing_by
  · have := length_readEscape _he
    simp only [_hr, List.length_cons] at this ⊢
    omega
  · simp [_hr]

theorem length_readString {done : List Char} {inp behind : Input} {s : String}
    (h : readString done inp = .ok (s, behind)) : behind.rest.length < inp.rest.length := by
  fun_induction readString done inp with
  | case1 => cases h
  | case2 done inp rest hr =>
    simp only [Except.ok.injEq, Prod.mk.injEq] at h
    obtain ⟨-, rfl⟩ := h
    simp [hr]
  | case3 done inp rest e b he hr _ ih =>
    have h₁ := ih h
    have h₂ := length_readEscape he
    simp only [hr, List.length_cons] at h₂ ⊢
    omega
  | case4 => cases h
  | case5 => cases h
  | case6 done inp c rest hr hq hc hb ih =>
    have := ih h
    simp only [hr, List.length_cons] at this ⊢
    omega

end TreeWalk.Json
