/-
Each step of the reader takes one token.

A text is a row of tokens, which are brackets, commas, colons and scalars, with any blanks before
and behind each.  The phase of the reader alone decides which tokens it can take and what each
leads to: `Phase.Takes`.  A step that goes on takes the next token so, `takes_step`, and at a token
that it can take the reader goes on, `step_of_takes`.

The phase also tells the marks that have been made, but for their offsets: `Phase.outline`.
-/
import TreeWalk.Proofs.Json.Tokens

namespace TreeWalk

namespace Json

open Grammar

/-! ### Tokens -/

/-- The least part of a text. -/
inductive Token where
  | openList
  | closeList
  | openObject
  | closeObject
  | comma
  | colon
  /-- A scalar value, or a string that is the name of a member. -/
  | scalar (v : Json)

namespace Token

/-- The token is written as the characters.  A scalar is if they are all that the reader reads
it from. -/
inductive WrittenAs : Token → List Char → Prop where
  | openList : WrittenAs .openList ['[']
  | closeList : WrittenAs .closeList [']']
  | openObject : WrittenAs .openObject ['\x7b']
  | closeObject : WrittenAs .closeObject ['\x7d']
  | comma : WrittenAs .comma [',']
  | colon : WrittenAs .colon [':']
  | scalar {c : Char} {rest : List Char} {v : Json} {after : Nat}
    (h : readScalar c rest 0 = .ok (v, ⟨[], after⟩)) : WrittenAs (.scalar v) (c :: rest)

end Token

/-! ### Phases -/

/-- The token begins a value with these frames around it, which leads to the phase. -/
inductive Token.Begins (stack : List Frame) : Token → Phase → Prop where
  | list : Begins stack .openList (.firstItem stack)
  | object : Begins stack .openObject (.firstKey stack)
  | scalar (v : Json) : Begins stack (.scalar v) (.complete v stack)

/-- The token may come next in the phase, and leads to the other. -/
inductive Phase.Takes : Phase → Token → Phase → Prop where
  | value {stack : List Frame} {token : Token} {p : Phase} (h : token.Begins stack p) :
    Takes (.value stack) token p
  | firstItem {stack : List Frame} {token : Token} {p : Phase}
    (h : token.Begins (.list [] :: stack) p) : Takes (.firstItem stack) token p
  | nextItem {items : List Json} {stack : List Frame} {token : Token} {p : Phase}
    (h : token.Begins (.list items :: stack) p) : Takes (.nextItem items stack) token p
  | emptyList (stack : List Frame) :
    Takes (.firstItem stack) .closeList (.complete (.arr []) stack)
  | itemEnd (v : Json) (items : List Json) (stack : List Frame) :
    Takes (.complete v (.list items :: stack)) .comma (.nextItem (v :: items) stack)
  | listEnd (v : Json) (items : List Json) (stack : List Frame) :
    Takes (.complete v (.list items :: stack)) .closeList
      (.complete (.arr (v :: items).reverse) stack)
  | firstKey (name : String) (stack : List Frame) :
    Takes (.firstKey stack) (.scalar (.str name)) (.colon [] name stack)
  | nextKey (name : String) (members : List (String × Json)) (stack : List Frame) :
    Takes (.nextKey members stack) (.scalar (.str name)) (.colon members name stack)
  | colon (members : List (String × Json)) (name : String) (stack : List Frame) :
    Takes (.colon members name stack) .colon (.value (.member members name :: stack))
  | emptyObject (stack : List Frame) :
    Takes (.firstKey stack) .closeObject (.complete (.obj []) stack)
  | memberEnd (v : Json) (members : List (String × Json)) (name : String) (stack : List Frame) :
    Takes (.complete v (.member members name :: stack)) .comma
      (.nextKey ((name, v) :: members) stack)
  | objectEnd (v : Json) (members : List (String × Json)) (name : String) (stack : List Frame) :
    Takes (.complete v (.member members name :: stack)) .closeObject
      (.complete (.obj ((name, v) :: members).reverse) stack)

/-! ### What tokens are written as -/

theorem writtenAs_of_readScalar {c : Char} {rest : List Char} {offset : Nat} {v : Json}
    {behind : Input} (h : readScalar c rest offset = .ok (v, behind)) :
    ∃ cs, (Token.scalar v).WrittenAs (c :: cs) ∧ rest = cs ++ behind.rest := by
  obtain ⟨cs, -, -, hrest, hagain⟩ := rest_readScalar h
  obtain ⟨after, hread⟩ := hagain [] .nil 0
  rw [List.append_nil] at hread
  exact ⟨cs, .scalar hread, hrest⟩

theorem writtenAs_of_readString {name : String} {inp behind : Input}
    (h : readString [] inp = .ok (name, behind)) :
    ∃ cs, (Token.scalar (.str name)).WrittenAs ('"' :: cs) ∧ inp.rest = cs ++ behind.rest := by
  obtain ⟨cs, -, hrest, hagain⟩ := rest_readString h
  obtain ⟨after, hread⟩ := hagain [] trivial 1
  rw [List.append_nil] at hread
  have hscalar : readScalar '"' cs 0 = .ok (.str name, ⟨[], after⟩) := by
    rw [readScalar, if_pos rfl, hread]
    rfl
  exact ⟨cs, .scalar hscalar, hrest⟩

theorem beginsScalar_of_readScalar {c : Char} {rest : List Char} {offset : Nat} {v : Json}
    {behind : Input} (h : readScalar c rest offset = .ok (v, behind)) : BeginsScalar c := by
  rw [readScalar] at h
  split at h
  · rename_i hc
    exact hc ▸ by decide
  split at h
  · rename_i hc
    exact hc ▸ by decide
  split at h
  · exact beginsScalar_of_isDigit ‹_›
  split at h
  · rename_i hc
    exact hc ▸ by decide
  split at h
  · rename_i hc
    exact hc ▸ by decide
  split at h
  · rename_i hc
    exact hc ▸ by decide
  · cases h

/-- A scalar is read again where something stands behind it. -/
theorem Token.WrittenAs.readScalar {v : Json} {cs : List Char}
    (h : (Token.scalar v).WrittenAs cs) {tail : List Char} (htail : Closed tail) (offset : Nat) :
    ∃ c rest offset', cs = c :: rest ∧ BeginsScalar c ∧
      Json.readScalar c (rest ++ tail) offset = .ok (v, ⟨tail, offset'⟩) := by
  cases h with
  | @scalar c rest _ after h =>
    obtain ⟨cs, -, -, hrest, hagain⟩ := rest_readScalar h
    obtain rfl : rest = cs := hrest.trans (List.append_nil cs)
    obtain ⟨offset', hread⟩ := hagain tail htail offset
    exact ⟨c, rest, offset', rfl, beginsScalar_of_readScalar h, hread⟩

theorem readString_of_readScalar {c : Char} {rest : List Char} {offset : Nat} {s : String}
    {behind : Input} (h : readScalar c rest offset = .ok (.str s, behind)) :
    c = '"' ∧ readString [] ⟨rest, offset + 1⟩ = .ok (s, behind) := by
  have hword {word : List Char} {v : Json} (hv : v ≠ .str s) :
      (readWord word ⟨rest, offset + 1⟩).map (fun behind => (v, behind)) ≠
        .ok (.str s, behind) := by
    intro h
    cases hread : readWord word ⟨rest, offset + 1⟩ with
    | error f => rw [hread] at h; cases h
    | ok behind' =>
      rw [hread] at h
      exact hv (Prod.mk.inj (Except.ok.inj h)).1
  rw [readScalar] at h
  split at h
  · rename_i hc
    obtain ⟨name, hread, hname⟩ := exists_read h
    obtain rfl := Json.str.inj hname
    exact ⟨hc, hread⟩
  split at h
  · obtain ⟨n, -, hn⟩ := exists_read h
    cases hn
  split at h
  · obtain ⟨n, -, hn⟩ := exists_read h
    cases hn
  split at h
  · exact absurd h (hword (by simp))
  split at h
  · exact absurd h (hword (by simp))
  split at h
  · exact absurd h (hword (by simp))
  · cases h

/-- What is read as a scalar nests nothing. -/
theorem depth_of_writtenAs {v : Json} {cs : List Char} (h : (Token.scalar v).WrittenAs cs) :
    v.depth = 0 := by
  cases h with
  | scalar h =>
    obtain ⟨-, -, hdepth, -⟩ := rest_readScalar h
    exact hdepth

/-- A scalar is spelled as the grammar says. -/
theorem derives_of_writtenAs {v : Json} {cs : List Char} (h : (Token.scalar v).WrittenAs cs) :
    Derives .value cs v.depth := by
  cases h with
  | @scalar c rest _ _ h =>
    obtain ⟨cs, hcs, -, hrest, -⟩ := rest_readScalar h
    obtain rfl : rest = cs := hrest.trans (List.append_nil cs)
    exact hcs

theorem quoted_of_writtenAs {name : String} {cs : List Char}
    (h : (Token.scalar (.str name)).WrittenAs cs) : Quoted cs := by
  cases h with
  | @scalar c rest _ _ h =>
    obtain ⟨rfl, hstring⟩ := readString_of_readScalar h
    obtain ⟨cs, hcs, hrest, -⟩ := rest_readString hstring
    obtain rfl : rest = cs := hrest.trans (List.append_nil cs)
    exact hcs

theorem Token.WrittenAs.first {token : Token} {cs : List Char} (h : token.WrittenAs cs) :
    ∃ c rest, cs = c :: rest ∧ Input.isBlank c = false := by
  cases h with
  | @scalar c rest v after h => exact ⟨c, rest, rfl, (beginsScalar_of_readScalar h).1.1⟩
  | _ => exact ⟨_, _, rfl, by decide⟩

/-! ### Marks -/

/-- A mark, but for where it stands. -/
def Mark.forget : Mark → Mark
  | key name _ => key name 0
  | scalar v _ => scalar v 0
  | opener list _ => opener list 0

/-- The marks that an outermost object leaves, the latest first, given its members in reverse. -/
def membersOutline : List (String × Json) → List Mark
  | [] => [.opener false 0]
  | (name, v) :: members => v.mark 0 0 :: .key name 0 :: membersOutline members

/-- The marks made up to a value with these frames around it, the latest first. -/
def stackOutline : List Frame → List Mark
  | [] => []
  | .list _ :: stack => markIfOuter stack (.opener true 0) (stackOutline stack)
  | .member members name :: stack =>
    if stack.isEmpty then .key name 0 :: membersOutline members
    else markIfOuter stack (.opener false 0) (stackOutline stack)

/-- The marks made up to the name of a member, or to the end of the object. -/
def objectOutline (members : List (String × Json)) (stack : List Frame) : List Mark :=
  if stack.isEmpty then membersOutline members
  else markIfOuter stack (.opener false 0) (stackOutline stack)

/-- The marks that have been made when the reader is in the phase, the latest first. -/
def Phase.outline : Phase → List Mark
  | value stack => stackOutline stack
  | firstItem stack => stackOutline (.list [] :: stack)
  | nextItem items stack => stackOutline (.list items :: stack)
  | firstKey stack => objectOutline [] stack
  | nextKey members stack => objectOutline members stack
  | colon members name stack => stackOutline (.member members name :: stack)
  | complete (.obj members) stack => objectOutline members.reverse stack
  | complete v stack => markIfOuter stack (v.mark 0 0) (stackOutline stack)

/-- The marks are those of the phase. -/
def State.Marked (s : State) : Prop := s.marks.map Mark.forget = s.phase.outline

theorem forget_markIfOuter (stack : List Frame) (mark : Mark) (marks : List Mark) :
    (markIfOuter stack mark marks).map Mark.forget =
      markIfOuter stack mark.forget (marks.map Mark.forget) := by
  unfold markIfOuter
  split <;> rfl

theorem objectOutline_nil (stack : List Frame) :
    objectOutline [] stack = markIfOuter stack (.opener false 0) (stackOutline stack) := by
  cases stack <;> rfl

/-- What is noted of a value inside an array, or of a member deep inside, is nothing. -/
theorem outline_complete_list (v : Json) (items : List Json) (stack : List Frame) :
    (Phase.complete v (.list items :: stack)).outline = stackOutline (.list items :: stack) := by
  have houter : isOuter (.list items :: stack) = false := isOuter_list items stack
  cases v <;> simp [Phase.outline, objectOutline, markIfOuter, houter]

theorem outline_complete_member (v : Json) (members : List (String × Json)) (name : String)
    (stack : List Frame) :
    (Phase.complete v (.member members name :: stack)).outline =
      objectOutline ((name, v) :: members) stack := by
  have houter : isOuter (.member members name :: stack) = stack.isEmpty :=
    isOuter_member members name stack
  cases stack <;> cases v <;>
    simp_all [Phase.outline, objectOutline, markIfOuter, stackOutline, membersOutline, mark]

theorem outline_scalar {v : Json} (h : v.depth = 0) (stack : List Frame) :
    (Phase.complete v stack).outline = markIfOuter stack (.scalar v 0) (stackOutline stack) := by
  cases v with
  | arr items =>
    rw [depth] at h
    omega
  | obj members =>
    rw [depth] at h
    omega
  | _ => rfl

/-! ### A step takes a token -/

/-- Where a value may begin, a token begins it. -/
theorem takes_beginValue {stack : List Frame} {inp : Input} {marks : List Mark} {t : State}
    (h : beginValue stack inp marks = .more t) :
    ∃ (token : Token) (cs : List Char), token.WrittenAs cs ∧ inp.rest = cs ++ t.input.rest ∧
      token.Begins stack t.phase ∧ (marks.map Mark.forget = stackOutline stack → t.Marked) := by
  rw [beginValue] at h
  split at h
  · cases h
  · rename_i c rest hr
    split at h
    · rename_i hc
      subst hc
      cases h
      refine ⟨.openList, ['['], .openList, hr, .list, fun hmarks => ?_⟩
      show (markIfOuter stack (.opener true inp.offset) marks).map Mark.forget = _
      rw [forget_markIfOuter, hmarks]
      rfl
    · split at h
      · rename_i hc
        subst hc
        cases h
        refine ⟨.openObject, ['\x7b'], .openObject, hr, .object, fun hmarks => ?_⟩
        show (markIfOuter stack (.opener false inp.offset) marks).map Mark.forget =
          objectOutline [] stack
        rw [forget_markIfOuter, hmarks, objectOutline_nil]
        rfl
      · split at h
        · cases h
        · rename_i v behind hread
          cases h
          obtain ⟨cs, hcs, hrest⟩ := writtenAs_of_readScalar hread
          refine ⟨.scalar v, c :: cs, hcs, hr.trans (congrArg (c :: ·) hrest), .scalar v,
            fun hmarks => ?_⟩
          show (markIfOuter stack (.scalar v behind.offset) marks).map Mark.forget = _
          rw [forget_markIfOuter, hmarks, outline_scalar (depth_of_writtenAs hcs)]
          rfl

/-- Where a member begins, its name is read. -/
theorem takes_beginMember {members : List (String × Json)} {stack : List Frame} {inp : Input}
    {marks : List Mark} {t : State} (h : beginMember members stack inp marks = .more t) :
    ∃ name cs, (Token.scalar (.str name)).WrittenAs cs ∧ inp.rest = cs ++ t.input.rest ∧
      t.phase = .colon members name stack ∧
      (marks.map Mark.forget = objectOutline members stack → t.Marked) := by
  rw [beginMember] at h
  split at h
  · cases h
  · rename_i c rest hr
    split at h
    · rename_i hc
      subst hc
      split at h
      · cases h
      · rename_i name behind hread
        cases h
        obtain ⟨cs, hcs, hrest⟩ := writtenAs_of_readString hread
        refine ⟨name, '"' :: cs, hcs, hr.trans (congrArg ('"' :: ·) hrest), rfl, fun hmarks => ?_⟩
        cases stack with
        | nil => exact congrArg (Mark.key name 0 :: ·) hmarks
        | cons f stack => exact hmarks
    · cases h

/-- **A step takes the next token.** -/
theorem takes_step {s t : State} (h : step s = .more t) :
    ∃ (blanks : List Char) (token : Token) (cs : List Char), Blanks blanks ∧ token.WrittenAs cs ∧
      s.input.rest = blanks ++ (cs ++ t.input.rest) ∧ s.phase.Takes token t.phase ∧
      (s.Marked → t.Marked) := by
  obtain ⟨phase, inp, marks⟩ := s
  obtain ⟨blanks, hblanks, hrest⟩ := rest_skipBlanks inp
  suffices hskipped : ∃ (token : Token) (cs : List Char), token.WrittenAs cs ∧
      inp.skipBlanks.rest = cs ++ t.input.rest ∧ phase.Takes token t.phase ∧
      (marks.map Mark.forget = phase.outline → t.Marked) by
    obtain ⟨token, cs, hcs, hskipped, htakes, hmarked⟩ := hskipped
    exact ⟨blanks, token, cs, hblanks, hcs, by rw [hrest, hskipped], htakes, hmarked⟩
  rw [step] at h
  dsimp only at h
  generalize inp.skipBlanks = skipped at h ⊢
  obtain ⟨rest, offset⟩ := skipped
  cases phase with
  | value stack =>
    obtain ⟨token, cs, hcs, hread, hbegins, hmarked⟩ := takes_beginValue h
    exact ⟨token, cs, hcs, hread, .value hbegins, hmarked⟩
  | firstItem stack =>
    cases rest with
    | nil => cases h
    | cons c rest =>
      by_cases hc : c = ']'
      · subst hc
        cases h
        exact ⟨.closeList, [']'], .closeList, rfl, .emptyList stack, id⟩
      · obtain ⟨token, cs, hcs, hread, hbegins, hmarked⟩ :=
          takes_beginValue ((if_neg hc).symm.trans h)
        exact ⟨token, cs, hcs, hread, .firstItem hbegins, hmarked⟩
  | nextItem items stack =>
    by_cases hc : rest.head? = some ']'
    · cases (if_pos hc).symm.trans h
    · obtain ⟨token, cs, hcs, hread, hbegins, hmarked⟩ :=
        takes_beginValue ((if_neg hc).symm.trans h)
      exact ⟨token, cs, hcs, hread, .nextItem hbegins, hmarked⟩
  | firstKey stack =>
    cases rest with
    | nil => cases h
    | cons c rest =>
      by_cases hc : c = '\x7d'
      · subst hc
        cases h
        exact ⟨.closeObject, ['\x7d'], .closeObject, rfl, .emptyObject stack, id⟩
      · obtain ⟨name, cs, hcs, hread, hphase, hmarked⟩ :=
          takes_beginMember ((if_neg hc).symm.trans h)
        exact ⟨.scalar (.str name), cs, hcs, hread, hphase ▸ .firstKey name stack, hmarked⟩
  | nextKey members stack =>
    by_cases hc : rest.head? = some '\x7d'
    · cases (if_pos hc).symm.trans h
    · obtain ⟨name, cs, hcs, hread, hphase, hmarked⟩ :=
        takes_beginMember ((if_neg hc).symm.trans h)
      exact ⟨.scalar (.str name), cs, hcs, hread, hphase ▸ .nextKey name members stack, hmarked⟩
  | colon members name stack =>
    cases rest with
    | nil => cases h
    | cons c rest =>
      by_cases hc : c = ':'
      · subst hc
        cases h
        exact ⟨.colon, [':'], .colon, rfl, .colon members name stack, id⟩
      · cases (if_neg hc).symm.trans h
  | complete v stack =>
    cases stack with
    | nil => cases h
    | cons f stack =>
      cases rest with
      | nil => cases f <;> cases h
      | cons c rest =>
        cases f with
        | list items =>
          by_cases hc : c = ','
          · subst hc
            cases h
            exact ⟨.comma, [','], .comma, rfl, .itemEnd v items stack, fun hmarks =>
              hmarks.trans (outline_complete_list v items stack)⟩
          · replace h := (if_neg hc).symm.trans h
            by_cases hc : c = ']'
            · subst hc
              cases h
              exact ⟨.closeList, [']'], .closeList, rfl, .listEnd v items stack, fun hmarks =>
                hmarks.trans (outline_complete_list v items stack)⟩
            · cases (if_neg hc).symm.trans h
        | member members name =>
          by_cases hc : c = ','
          · subst hc
            cases h
            exact ⟨.comma, [','], .comma, rfl, .memberEnd v members name stack, fun hmarks =>
              hmarks.trans (outline_complete_member v members name stack)⟩
          · replace h := (if_neg hc).symm.trans h
            by_cases hc : c = '\x7d'
            · subst hc
              cases h
              refine ⟨.closeObject, ['\x7d'], .closeObject, rfl, .objectEnd v members name stack,
                fun hmarks => ?_⟩
              show marks.map Mark.forget =
                objectOutline ((name, v) :: members).reverse.reverse stack
              rw [List.reverse_reverse]
              exact hmarks.trans (outline_complete_member v members name stack)
            · cases (if_neg hc).symm.trans h

/-! ### At a token the reader takes a step -/

theorem skipBlanks_append {blanks : List Char} (hblanks : Blanks blanks) {c : Char}
    (hc : Input.isBlank c = false) (rest : List Char) (offset : Nat) :
    Input.skipBlanks ⟨blanks ++ c :: rest, offset⟩ = ⟨c :: rest, offset + blanks.length⟩ := by
  have hnot : ¬ Input.isBlank c = true := by simp [hc]
  simp [Input.skipBlanks, List.dropWhile_append_of_pos hblanks,
    List.takeWhile_append_of_pos hblanks, List.dropWhile_cons_of_neg hnot,
    List.takeWhile_cons_of_neg hnot]

/-- What may stand behind a token: behind a scalar, nothing that could go on a number. -/
def Token.Ends (token : Token) (tail : List Char) : Prop := ∀ v, token = .scalar v → Closed tail

/-- A value begins at a token that begins one. -/
theorem beginValue_of_begins {stack : List Frame} {token : Token} {p : Phase}
    (h : token.Begins stack p) {cs tail : List Char} (hcs : token.WrittenAs cs)
    (htail : token.Ends tail) (offset : Nat) (marks : List Mark) :
    ∃ c rest offset' marks', cs = c :: rest ∧ Begins c ∧
      beginValue stack ⟨cs ++ tail, offset⟩ marks = .more ⟨p, ⟨tail, offset'⟩, marks'⟩ := by
  cases h with
  | list =>
    cases hcs
    exact ⟨'[', [], offset + 1, _, rfl, by decide, rfl⟩
  | object =>
    cases hcs
    exact ⟨'\x7b', [], offset + 1, _, rfl, by decide, rfl⟩
  | scalar v =>
    obtain ⟨c, rest, offset', rfl, ⟨hc, hlist, hobject⟩, hread⟩ :=
      hcs.readScalar (htail v rfl) offset
    refine ⟨c, rest, offset', markIfOuter stack (.scalar v offset') marks, rfl, hc, ?_⟩
    rw [List.cons_append, beginValue]
    simp only [if_neg hlist, if_neg hobject, hread]

/-- A member begins at its name. -/
theorem beginMember_of_writtenAs {name : String} {cs tail : List Char}
    (hcs : (Token.scalar (.str name)).WrittenAs cs) (htail : Closed tail)
    (members : List (String × Json)) (stack : List Frame) (offset : Nat) (marks : List Mark) :
    ∃ rest offset' marks', cs = '"' :: rest ∧
      beginMember members stack ⟨cs ++ tail, offset⟩ marks =
        .more ⟨.colon members name stack, ⟨tail, offset'⟩, marks'⟩ := by
  obtain ⟨c, rest, offset', rfl, -, hread⟩ := hcs.readScalar htail offset
  obtain ⟨rfl, hstring⟩ := readString_of_readScalar hread
  let marks' := if stack.isEmpty then Mark.key name (closedAt ⟨tail, offset'⟩) :: marks else marks
  refine ⟨rest, offset', marks', rfl, ?_⟩
  rw [List.cons_append, beginMember]
  simp only [if_true, hstring]
  rfl

theorem step_of_takes_next {p q : Phase} {token : Token} (h : p.Takes token q)
    {cs tail : List Char} (hcs : token.WrittenAs cs) (htail : token.Ends tail) (offset : Nat)
    (marks : List Mark) : ∃ offset' marks', step ⟨p, ⟨cs ++ tail, offset⟩, marks⟩ =
      .more ⟨q, ⟨tail, offset'⟩, marks'⟩ := by
  cases h with
  | value hbegins =>
    obtain ⟨c, rest, offset', marks', rfl, hc, hmore⟩ :=
      beginValue_of_begins hbegins hcs htail offset marks
    exact ⟨offset', marks', (step_value hc ..).trans hmore⟩
  | firstItem hbegins =>
    obtain ⟨c, rest, offset', marks', rfl, hc, hmore⟩ :=
      beginValue_of_begins hbegins hcs htail offset marks
    exact ⟨offset', marks', (step_firstItem hc ..).trans hmore⟩
  | nextItem hbegins =>
    obtain ⟨c, rest, offset', marks', rfl, hc, hmore⟩ :=
      beginValue_of_begins hbegins hcs htail offset marks
    exact ⟨offset', marks', (step_nextItem hc ..).trans hmore⟩
  | firstKey name stack =>
    obtain ⟨rest, offset', marks', rfl, hmore⟩ :=
      beginMember_of_writtenAs hcs (htail _ rfl) [] stack offset marks
    exact ⟨offset', marks', hmore⟩
  | nextKey name members stack =>
    obtain ⟨rest, offset', marks', rfl, hmore⟩ :=
      beginMember_of_writtenAs hcs (htail _ rfl) members stack offset marks
    exact ⟨offset', marks', hmore⟩
  | _ =>
    cases hcs
    exact ⟨offset + 1, marks, rfl⟩

/-- **The reader takes a step at a token that may come next.** -/
theorem step_of_takes {p q : Phase} {token : Token} (h : p.Takes token q)
    {blanks cs tail : List Char} (hblanks : Blanks blanks) (hcs : token.WrittenAs cs)
    (htail : token.Ends tail) (offset : Nat) (marks : List Mark) :
    ∃ offset' marks', step ⟨p, ⟨blanks ++ (cs ++ tail), offset⟩, marks⟩ =
      .more ⟨q, ⟨tail, offset'⟩, marks'⟩ := by
  obtain ⟨offset', marks', hstep⟩ := step_of_takes_next h hcs htail (offset + blanks.length) marks
  refine ⟨offset', marks', ?_⟩
  obtain ⟨c, rest, rfl, hc⟩ := hcs.first
  rw [List.cons_append] at hstep ⊢
  rw [← hstep]
  -- Nothing but a reader that is done looks at the text before its blanks.
  unfold step
  simp only [skipBlanks_append hblanks hc, skipBlanks_cons hc]
  cases h <;> rfl
end Json

end TreeWalk
