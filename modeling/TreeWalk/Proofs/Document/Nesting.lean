/-
How deeply a document may nest.

A document is refused for its nesting before it is read, by the scan of its text alone.  What
the grammar derives nests as deeply as its arrays and objects do, so a document is refused
exactly if they nest too deeply; otherwise what it is decoded to comes back.  The scan may as
well take the text byte by byte: the bytes of a longer character are none of those that it
minds.

On a faulty text the reader stops somewhere.  Up to there it never has more open than the scan
has seen, so what is read at all is read within the limit.
-/
import TreeWalk.Document.Load
import TreeWalk.Proofs.Json.Prefixes

namespace TreeWalk

/-! ### Bytes -/

namespace Depth

/-- The character that a byte stands for where it stands for one by itself. -/
def charOfByte (b : UInt8) : Char := Char.ofNat b.toNat

theorem toNat_charOfByte (b : UInt8) : (charOfByte b).toNat = b.toNat := by
  have hb := b.toNat_lt
  rw [charOfByte, Char.ofNat, dif_pos (Or.inl (by omega))]
  rfl

/-- A character that the scan does not tell from others of its kind. -/
def Ordinary (c : Char) : Prop := Neutral c ∧ c ≠ '\\'

theorem ordinary_of_le {c : Char} (h : 0x80 ≤ c.toNat) : Ordinary c := by
  have hne {d : Char} (hd : d.toNat < 0x80) : c ≠ d := by
    rintro rfl
    omega
  exact ⟨⟨hne (by decide), hne (by decide), hne (by decide), hne (by decide), hne (by decide)⟩,
    hne (by decide)⟩

/-- An ordinary character may be what a backslash escapes, and is nothing else. -/
theorem next_ordinary {c : Char} (hc : Ordinary c) (s : Scan) :
    s.next c = { s with escaped := s.escaped && !s.inString } := by
  obtain ⟨⟨hquote, hbrace, hbracket, hbrace', hbracket'⟩, hbackslash⟩ := hc
  obtain ⟨current, deepest, inString, escaped⟩ := s
  cases inString <;> cases escaped <;>
    simp [Scan.next, hquote, hbrace, hbracket, hbrace', hbracket', hbackslash]

/-- Several ordinary characters are to the scan as one. -/
theorem scan_ordinary {c : Char} (hc : Ordinary c) {cs : List Char} (hcs : ∀ d ∈ cs, Ordinary d)
    (hne : cs ≠ []) (s : Scan) : cs.foldl Scan.next s = s.next c := by
  have hagain {d : Char} (hd : Ordinary d) : (s.next c).next d = s.next c := by
    rw [next_ordinary hd, next_ordinary hc, Bool.and_assoc, Bool.and_self]
  have hrest {ds : List Char} (hds : ∀ d ∈ ds, Ordinary d) :
      ds.foldl Scan.next (s.next c) = s.next c := by
    induction ds with
    | nil => rfl
    | cons d ds ih =>
      rw [List.foldl_cons, hagain (hds d (List.mem_cons_self ..))]
      exact ih fun e he => hds e (List.mem_cons_of_mem _ he)
  cases cs with
  | nil => exact (hne rfl).elim
  | cons d ds =>
    have hfirst : s.next d = s.next c := by
      rw [next_ordinary (hcs d (List.mem_cons_self ..)), next_ordinary hc]
    rw [List.foldl_cons, hfirst]
    exact hrest fun e he => hcs e (List.mem_cons_of_mem _ he)

/-- The bytes of a character are that character by itself, or none below the upper half. -/
theorem utf8EncodeChar_cases (c : Char) :
    (String.utf8EncodeChar c).map charOfByte = [c] ∨
      0x80 ≤ c.toNat ∧ String.utf8EncodeChar c ≠ [] ∧
        ∀ b ∈ String.utf8EncodeChar c, 0x80 ≤ b.toNat := by
  have hval : c.val.toNat = c.toNat := rfl
  unfold String.utf8EncodeChar
  simp only [hval]
  split
  · rename_i hle
    left
    have hsmall : (UInt8.ofNat c.toNat).toNat = c.toNat :=
      UInt8.toNat_ofNat_of_lt (Nat.lt_of_le_of_lt hle (by decide))
    rw [List.map_singleton, charOfByte, hsmall, Char.ofNat_toNat]
  · rename_i hgt
    refine .inr ⟨by omega, ?_⟩
    repeat' split
    all_goals
      simp only [List.forall_mem_cons, UInt8.toNat_ofNat']
      refine ⟨List.cons_ne_nil _ _, ?_⟩
      simp
      omega

/-- The scan takes the bytes of a character for the character. -/
theorem scan_utf8EncodeChar (c : Char) (s : Scan) :
    ((String.utf8EncodeChar c).map charOfByte).foldl Scan.next s = s.next c := by
  rcases utf8EncodeChar_cases c with hc | ⟨hc, hne, hbytes⟩
  · rw [hc]
    rfl
  · refine scan_ordinary (ordinary_of_le hc) ?_ ?_ s
    · intro d hd
      obtain ⟨b, hb, rfl⟩ := List.mem_map.1 hd
      exact ordinary_of_le (toNat_charOfByte b ▸ hbytes b hb)
    · rwa [Ne, List.map_eq_nil_iff]

end Depth

/-- The nesting of a text by its bytes. -/
def byteNestingDepth (text : String) : Nat :=
  nestingDepth (text.toUTF8.data.toList.map Depth.charOfByte)

/-- **A text nests as deeply by its bytes as by its characters.** -/
theorem byteNestingDepth_eq (text : String) : byteNestingDepth text = nestingDepth text.toList := by
  have hscan (cs : List Char) (s : Depth.Scan) :
      ((cs.flatMap String.utf8EncodeChar).map Depth.charOfByte).foldl Depth.Scan.next s =
        cs.foldl Depth.Scan.next s := by
    induction cs generalizing s with
    | nil => rfl
    | cons c cs ih =>
      rw [List.flatMap_cons, List.map_append, List.foldl_append, Depth.scan_utf8EncodeChar, ih,
        List.foldl_cons]
  have hbytes : text.toUTF8.data.toList = text.toList.flatMap String.utf8EncodeChar := by
    rw [String.toUTF8, ← String.utf8Encode_toList, List.utf8Encode, List.data_toByteArray]
  rw [byteNestingDepth, hbytes, nestingDepth, hscan, nestingDepth]

/-! ### Loading -/

namespace Node

open Json.Grammar

/-- Where in a text, and in which words, its decoding is said to have failed. -/
def placed (text : String) (failure : TextFault × Nat) : LoadError :=
  let (line, column) := Json.position 1 0 text.toList failure.2
  .invalid failure.1 line column

/-- A text is refused for its nesting, or decoded. -/
theorem load_eq (text : String) :
    load text = if 2048 < nestingDepth text.toList then
      .error (.tooDeep (nestingDepth text.toList) 2048)
    else (Document.decode text.toList).mapError (placed text) := by
  rw [load]
  dsimp only
  split
  · rename_i hdeep
    exact (if_pos hdeep).symm
  · rename_i hdeep
    refine Eq.trans ?_ (if_neg hdeep).symm
    cases Document.decode text.toList <;> rfl

theorem load_eq_tooDeep {text : String} (h : 2048 < nestingDepth text.toList) :
    load text = .error (.tooDeep (nestingDepth text.toList) 2048) := by
  rw [load_eq, if_pos h]

theorem load_eq_decode {text : String} (h : nestingDepth text.toList ≤ 2048) :
    load text = (Document.decode text.toList).mapError (placed text) := by
  rw [load_eq, if_neg (Nat.not_lt.2 h)]

/-- Only the scan finds that a text nests too deeply. -/
theorem load_tooDeep_iff (text : String) :
    (∃ depth limit, load text = .error (.tooDeep depth limit)) ↔
      2048 < nestingDepth text.toList := by
  constructor
  · rintro ⟨depth, limit, h⟩
    rcases Nat.lt_or_ge 2048 (nestingDepth text.toList) with hdeep | hdepth
    · exact hdeep
    · rw [load_eq_decode hdepth] at h
      cases hdecode : Document.decode text.toList with
      | ok n =>
        rw [hdecode] at h
        cases h
      | error failure =>
        rw [hdecode] at h
        cases h
  · intro hdepth
    exact ⟨_, _, load_eq_tooDeep hdepth⟩

/-- **A document is refused for its nesting exactly if its value nests too deeply, and is decoded
otherwise.**  By its characters and by its bytes it nests as deeply as its derivation says, and
so does the value that is read from it. -/
theorem load_document {text : String} {d : Nat} (h : IsDocument text.toList d) :
    nestingDepth text.toList = d ∧ byteNestingDepth text = d ∧
      (∀ v, Json.parse text = .ok v → v.depth = d) ∧
      ((∃ depth limit, load text = .error (.tooDeep depth limit)) ↔ 2048 < d) ∧
      (2048 < d → load text = .error (.tooDeep d 2048)) ∧
      (d ≤ 2048 → load text = (Document.decode text.toList).mapError (placed text)) := by
  obtain rfl := h.nestingDepth_eq
  refine ⟨rfl, byteNestingDepth_eq text, ?_, load_tooDeep_iff text, load_eq_tooDeep,
    load_eq_decode⟩
  intro v hv
  exact (Json.isDocument_of_parse hv).nestingDepth_eq.symm

/-- Brackets, a quote and backslashes in a name, and values of other kinds behind it. -/
def gnarled : String := "\x7b\"\\\\\\\"[]\u00e9\u221e\": [-1.5e+2, \"\x7b\", [ ]]\x7d\n"

theorem isDocument_gnarled : IsDocument gnarled.toList 3 := by
  have hnone : Blanks [] := by decide
  have hspace : Blanks [' '] := by decide
  have hname : Quoted ['"', '\\', '\\', '\\', '"', '[', ']', '\u00e9', '\u221e', '"'] := by
    refine ⟨_, ⟨[['\\', '\\'], ['\\', '"'], ['['], [']'], ['\u00e9'], ['\u221e']], ?_, rfl⟩, rfl⟩
    have hplain {c : Char} (hc : c ≠ '"' ∧ c ≠ '\\' ∧ 0x20 ≤ c.toNat) : Spelled [c] :=
      .plain hc.1 hc.2.1 hc.2.2
    simp only [List.forall_mem_cons]
    exact ⟨.escape (by decide), .escape (by decide), hplain (by decide), hplain (by decide),
      hplain (by decide), hplain (by decide), List.forall_mem_nil _⟩
  have hbrace : Quoted ['"', '\x7b', '"'] :=
    ⟨_, (Spelled.plain (by decide) (by decide) (by decide)).spelling, rfl⟩
  have hnumber : Numeric ['-', '1', '.', '5', 'e', '+', '2'] := by
    refine ⟨['-'], by decide, ['1'], ['.', '5'], ['e', '+', '2'], by decide, ?_, ?_, rfl⟩
    · exact .inr ⟨['5'], by decide, rfl⟩
    · exact .inr ⟨'e', by decide, ['+'], by decide, ['2'], by decide, rfl⟩
  have hitems := Derives.comma (.element hnone (.number hnumber) hnone)
    (.comma (.element hspace (.string hbrace) hnone)
      (.last (.element hspace (.emptyArray hspace) hnone)))
  have hmember := Derives.member hnone hname hnone (.element hspace (.array hitems) hnone)
  exact Derives.element hnone (.object (.last hmember)) (show Blanks ['\n'] by decide)

/-- Arrays in one another, of which there are one more than `n`. -/
def nested : Nat → List Char
  | 0 => ['[', ']']
  | n + 1 => '[' :: (nested n ++ [']'])

theorem derives_nested (n : Nat) : Derives .value (nested n) (1 + n) := by
  have hnone : Blanks [] := by decide
  induction n with
  | zero => exact .emptyArray hnone
  | succ n ih =>
    have helement := Derives.element hnone ih hnone
    rw [List.nil_append, List.append_nil] at helement
    have harray := Derives.array (.last helement)
    rwa [Nat.add_comm 1 n] at harray

theorem isDocument_nested (n : Nat) :
    IsDocument (String.ofList (nested n)).toList (1 + n) := by
  have hnone : Blanks [] := by decide
  have helement := Derives.element hnone (derives_nested n) hnone
  rwa [List.nil_append, List.append_nil, ← String.toList_ofList (l := nested n)] at helement

theorem load_document_gnarled :
    nestingDepth gnarled.toList = 3 ∧ byteNestingDepth gnarled = 3 ∧
      load gnarled = (Document.decode gnarled.toList).mapError (placed gnarled) ∧
      load (String.ofList (nested 2048)) = .error (.tooDeep 2049 2048) := by
  obtain ⟨hchars, hbytes, -, -, -, hload⟩ := load_document isDocument_gnarled
  obtain ⟨-, -, -, -, hdeep, -⟩ := load_document (isDocument_nested 2048)
  exact ⟨hchars, hbytes, hload (by decide), hdeep (by decide)⟩

/-- **The reader never has more open than the text nests,** be the text faulty or not.  So a text
that is not refused for its nesting is read within the limit, and so is the value read from it. -/
theorem openCount_le_nestingDepth {text : String} {s : Json.State}
    (h : (Json.State.initial (.ofString text)).Goes s) :
    s.phase.openCount ≤ nestingDepth text.toList ∧
      (∀ v rest, (Json.readValue (.ofString text)).1 = .value v rest →
        v.depth ≤ nestingDepth text.toList) ∧
      ((∀ depth limit, load text ≠ .error (.tooDeep depth limit)) →
        s.phase.openCount ≤ 2048 ∧
          ∀ v rest, (Json.readValue (.ofString text)).1 = .value v rest → v.depth ≤ 2048) := by
  have hopen : s.phase.openCount ≤ nestingDepth text.toList :=
    Nat.le_trans s.phase.openCount_le_depth (Json.depth_le_nestingDepth h)
  have hvalue {v : Json} {rest : Json.Input}
      (hread : (Json.readValue (.ofString text)).1 = .value v rest) :
      v.depth ≤ nestingDepth text.toList := Json.depth_of_readValue hread
  refine ⟨hopen, fun _ _ => hvalue, ?_⟩
  intro haccepted
  have hlimit : nestingDepth text.toList ≤ 2048 := by
    rcases Nat.lt_or_ge 2048 (nestingDepth text.toList) with hdeep | hdepth
    · exact (haccepted _ _ (load_eq_tooDeep hdeep)).elim
    · exact hdepth
  exact ⟨Nat.le_trans hopen hlimit, fun _ _ hread => Nat.le_trans (hvalue hread) hlimit⟩

/-- Two arrays are open where a string begins that does not end; the brackets behind its quote
close neither. -/
theorem openCount_cutShort : ∃ s : Json.State,
    (Json.State.initial (.ofString "[[1],[\"]]")).Goes s ∧ s.phase.openCount = 2 ∧
      s.phase.openCount ≤ nestingDepth "[[1],[\"]]".toList ∧ s.phase.openCount ≤ 2048 := by
  have hgoes : (Json.State.initial (.ofString "[[1],[\"]]")).Goes
      ⟨.firstItem [.list [.arr [.num (.int 1)]]], ⟨['"', ']', ']'], 6⟩, [.opener true 0]⟩ := by
    iterate 6 refine .head rfl ?_
    exact .refl
  have haccepted : ∀ depth limit, load "[[1],[\"]]" ≠ .error (.tooDeep depth limit) := by
    intro depth limit h
    have hdeep : 2048 < nestingDepth "[[1],[\"]]".toList := (load_tooDeep_iff _).1 ⟨_, _, h⟩
    revert hdeep
    decide
  obtain ⟨hopen, -, hlimit⟩ := openCount_le_nestingDepth hgoes
  exact ⟨_, hgoes, rfl, hopen, (hlimit haccepted).1⟩

end Node

end TreeWalk
