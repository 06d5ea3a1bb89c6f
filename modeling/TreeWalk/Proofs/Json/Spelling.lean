/-
Which texts are read as a value.

`tokens` are the tokens of a value, and `Spaced` says that a text is a row of tokens.  The phase
of the reader tells which tokens have been taken, `Phase.taken`, so when the reader is done with
a text, that was a row of the tokens of the value.  And those lead to the value, so the reader
comes through any row of them.  This is `parse_iff_writtenAs`.

When the value is an object, the marks are those of its members, `noted_of_readValue`.
-/
import Mathlib.Data.List.TakeWhile
import TreeWalk.Proofs.Json.Prefixes

namespace TreeWalk

namespace Json

open Grammar

/-! ### The tokens of a value -/

/-- The text is a row of the tokens, with any blanks before each and at the end. -/
inductive Spaced : List Token → List Char → Prop where
  | nil {blanks : List Char} (h : Blanks blanks) : Spaced [] blanks
  | cons {token : Token} {tokens : List Token} {blanks cs rest : List Char}
    (hblanks : Blanks blanks) (hcs : token.WrittenAs cs) (h : Spaced tokens rest) :
    Spaced (token :: tokens) (blanks ++ (cs ++ rest))

mutual
/-- The tokens of a value. -/
def tokens : Json → List Token
  | .arr [] => [.openList, .closeList]
  | .arr (v :: rest) => .openList :: (v.tokens ++ itemsTokens rest)
  | .obj [] => [.openObject, .closeObject]
  | .obj ((name, v) :: rest) =>
    .openObject :: .scalar (.str name) :: .colon :: (v.tokens ++ membersTokens rest)
  | v => [.scalar v]
/-- The tokens behind an item of an array, up to its end. -/
def itemsTokens : List Json → List Token
  | [] => [.closeList]
  | v :: rest => .comma :: (v.tokens ++ itemsTokens rest)
/-- The tokens behind a member of an object, up to its end. -/
def membersTokens : List (String × Json) → List Token
  | [] => [.closeObject]
  | (name, v) :: rest => .comma :: .scalar (.str name) :: .colon :: (v.tokens ++ membersTokens rest)
end

/-- The text is written for the value: it is a row of its tokens. -/
def WrittenAs (v : Json) (text : String) : Prop := Spaced v.tokens text.toList

theorem Spaced.behind_blanks {tokens : List Token} {blanks cs : List Char} (hblanks : Blanks blanks)
    (h : Spaced tokens cs) : Spaced tokens (blanks ++ cs) := by
  cases h with
  | nil h => exact .nil (List.forall_mem_append.2 ⟨hblanks, h⟩)
  | cons hbefore hcs h =>
    rw [← List.append_assoc]
    exact .cons (List.forall_mem_append.2 ⟨hblanks, hbefore⟩) hcs h

/-- The tokens may come one after another, and lead to the phase. -/
inductive Phase.TakesAll : Phase → List Token → Phase → Prop where
  | nil (p : Phase) : TakesAll p [] p
  | cons {p q r : Phase} {token : Token} {tokens : List Token} (h : p.Takes token q)
    (hrest : TakesAll q tokens r) : TakesAll p (token :: tokens) r

theorem Phase.TakesAll.append {p q r : Phase} {as bs : List Token} (has : p.TakesAll as q)
    (hbs : q.TakesAll bs r) : p.TakesAll (as ++ bs) r := by
  induction has with
  | nil p => exact hbs
  | cons h _ ih => exact .cons h (ih hbs)

/-! ### The tokens that have been taken -/

/-- The tokens of items, with a comma behind each. -/
def itemsTaken (items : List Json) : List Token := items.flatMap fun v => v.tokens ++ [.comma]

/-- The tokens of members, with a comma behind each. -/
def membersTaken (members : List (String × Json)) : List Token :=
  members.flatMap fun m => .scalar (.str m.1) :: .colon :: (m.2.tokens ++ [.comma])

/-- The tokens up to a value with these frames around it. -/
def stackTaken : List Frame → List Token
  | [] => []
  | .list items :: stack => stackTaken stack ++ .openList :: itemsTaken items.reverse
  | .member members name :: stack =>
    stackTaken stack ++
      .openObject :: (membersTaken members.reverse ++ [.scalar (.str name), .colon])

/-- The tokens that have been taken when the reader is in the phase. -/
def Phase.taken : Phase → List Token
  | value stack => stackTaken stack
  | firstItem stack => stackTaken stack ++ [.openList]
  | nextItem items stack => stackTaken (.list items :: stack)
  | firstKey stack => stackTaken stack ++ [.openObject]
  | nextKey members stack => stackTaken stack ++ .openObject :: membersTaken members.reverse
  | colon members name stack =>
    stackTaken stack ++ .openObject :: (membersTaken members.reverse ++ [.scalar (.str name)])
  | complete v stack => stackTaken stack ++ v.tokens

theorem itemsTokens_append (done : List Json) (v : Json) :
    itemsTokens (done ++ [v]) = .comma :: (itemsTaken done ++ (v.tokens ++ [.closeList])) := by
  induction done with
  | nil => rfl
  | cons u done ih =>
    simp only [List.cons_append, itemsTokens, ih, itemsTaken, List.flatMap_cons, List.append_assoc,
      List.nil_append]

/-- The tokens of an array, told from its last item. -/
theorem tokens_arr_append (done : List Json) (v : Json) :
    (Json.arr (done ++ [v])).tokens =
      .openList :: (itemsTaken done ++ (v.tokens ++ [.closeList])) := by
  cases done with
  | nil => rfl
  | cons u done =>
    simp only [List.cons_append, tokens, itemsTokens_append, itemsTaken, List.flatMap_cons,
      List.append_assoc, List.nil_append]

theorem membersTokens_append (done : List (String × Json)) (name : String) (v : Json) :
    membersTokens (done ++ [(name, v)]) = .comma :: (membersTaken done ++
      .scalar (.str name) :: .colon :: (v.tokens ++ [.closeObject])) := by
  induction done with
  | nil => rfl
  | cons m done ih =>
    simp only [List.cons_append, membersTokens, ih, membersTaken, List.flatMap_cons,
      List.append_assoc, List.nil_append]

/-- The tokens of an object, told from its last member. -/
theorem tokens_obj_append (done : List (String × Json)) (name : String) (v : Json) :
    (Json.obj (done ++ [(name, v)])).tokens = .openObject :: (membersTaken done ++
      .scalar (.str name) :: .colon :: (v.tokens ++ [.closeObject])) := by
  cases done with
  | nil => rfl
  | cons m done =>
    simp only [List.cons_append, tokens, membersTokens_append, membersTaken, List.flatMap_cons,
      List.append_assoc, List.nil_append]

/-- What is read as a scalar is the only token of its value. -/
theorem tokens_of_writtenAs {v : Json} {cs : List Char} (h : (Token.scalar v).WrittenAs cs) :
    v.tokens = [.scalar v] := by
  have hdepth := depth_of_writtenAs h
  cases v with
  | arr items =>
    rw [depth] at hdepth
    omega
  | obj members =>
    rw [depth] at hdepth
    omega
  | _ => rfl

theorem taken_begins {stack : List Frame} {token : Token} {cs : List Char} {p : Phase}
    (hcs : token.WrittenAs cs) (h : token.Begins stack p) :
    p.taken = stackTaken stack ++ [token] := by
  cases h with
  | list => rfl
  | object => rfl
  | scalar v => rw [Phase.taken, tokens_of_writtenAs hcs]

/-- **The reader has taken one token more.** -/
theorem taken_takes {p q : Phase} {token : Token} {cs : List Char} (hcs : token.WrittenAs cs)
    (h : p.Takes token q) : q.taken = p.taken ++ [token] := by
  cases h with
  | value h => exact taken_begins hcs h
  | firstItem h => exact taken_begins hcs h
  | nextItem h => exact taken_begins hcs h
  | emptyList stack =>
    rw [Phase.taken, Phase.taken, List.append_assoc]
    rfl
  | itemEnd v items stack =>
    simp only [Phase.taken, stackTaken, itemsTaken, List.reverse_cons, List.flatMap_append,
      List.flatMap_cons, List.flatMap_nil, List.append_nil, List.append_assoc, List.cons_append]
  | listEnd v items stack =>
    rw [Phase.taken, List.reverse_cons, tokens_arr_append]
    simp only [Phase.taken, stackTaken, List.append_assoc, List.cons_append]
  | firstKey name stack => simp [Phase.taken, membersTaken]
  | nextKey name members stack => simp only [Phase.taken, List.append_assoc, List.cons_append]
  | colon members name stack =>
    simp only [Phase.taken, stackTaken, List.append_assoc, List.cons_append, List.nil_append]
  | emptyObject stack =>
    rw [Phase.taken, Phase.taken, List.append_assoc]
    rfl
  | memberEnd v members name stack =>
    simp only [Phase.taken, stackTaken, membersTaken, List.reverse_cons, List.flatMap_append,
      List.flatMap_cons, List.flatMap_nil, List.append_nil, List.append_assoc, List.cons_append,
      List.nil_append]
  | objectEnd v members name stack =>
    rw [Phase.taken, List.reverse_cons, tokens_obj_append]
    simp only [Phase.taken, stackTaken, List.append_assoc, List.cons_append, List.nil_append]

/-- A row of tokens that lead from one phase to another has been taken between them. -/
theorem Spaced.taken {tokens : List Token} {text : List Char} (htext : Spaced tokens text)
    {p q : Phase} (h : p.TakesAll tokens q) : q.taken = p.taken ++ tokens := by
  induction htext generalizing p with
  | nil _ =>
    cases h
    exact (List.append_nil _).symm
  | cons _ hcs _ ih =>
    cases h with
    | cons h hrest => rw [ih hrest, taken_takes hcs h, List.append_assoc, List.singleton_append]

/-! ### The tokens of a value lead to it -/

theorem tokens_ne_nil (v : Json) : v.tokens ≠ [] := by
  cases v with
  | arr items => cases items <;> exact List.cons_ne_nil _ _
  | obj members => cases members <;> exact List.cons_ne_nil _ _
  | _ => exact List.cons_ne_nil _ _

/-- A value goes on the same way wherever it may begin. -/
theorem Phase.TakesAll.of_value {stack : List Frame} {tokens : List Token} {p q : Phase}
    (h : Phase.TakesAll (.value stack) tokens q) (hne : tokens ≠ [])
    (hp : ∀ token r, Token.Begins stack token r → p.Takes token r) : p.TakesAll tokens q := by
  cases h with
  | nil => exact absurd rfl hne
  | cons h hrest =>
    cases h with
    | value h => exact .cons (hp _ _ h) hrest

mutual
/-- **The tokens of a value lead to it.** -/
theorem takesAll_tokens : ∀ (v : Json) (stack : List Frame),
    Phase.TakesAll (.value stack) v.tokens (.complete v stack)
  | .null, stack => .cons (.value (.scalar _)) (.nil _)
  | .bool _, stack => .cons (.value (.scalar _)) (.nil _)
  | .num _, stack => .cons (.value (.scalar _)) (.nil _)
  | .str _, stack => .cons (.value (.scalar _)) (.nil _)
  | .arr [], stack => .cons (.value .list) (.cons (.emptyList stack) (.nil _))
  | .arr (v :: rest), stack => by
    have hv := (takesAll_tokens v (.list [] :: stack)).of_value (tokens_ne_nil v)
      fun _ _ h => Phase.Takes.firstItem h
    exact .cons (.value .list) (hv.append (takesAll_itemsTokens rest v [] stack))
  | .obj [], stack => .cons (.value .object) (.cons (.emptyObject stack) (.nil _))
  | .obj ((name, v) :: rest), stack => by
    have hv := takesAll_tokens v (.member [] name :: stack)
    exact .cons (.value .object) (.cons (.firstKey name stack) (.cons (.colon [] name stack)
      (hv.append (takesAll_membersTokens rest v [] name stack))))
/-- The tokens behind an item lead to the array. -/
theorem takesAll_itemsTokens : ∀ (rest : List Json) (v : Json) (done : List Json)
    (stack : List Frame), Phase.TakesAll (.complete v (.list done :: stack)) (itemsTokens rest)
      (.complete (.arr (done.reverse ++ v :: rest)) stack)
  | [], v, done, stack => by
    rw [← List.reverse_cons]
    exact .cons (.listEnd v done stack) (.nil _)
  | w :: rest, v, done, stack => by
    have hw := (takesAll_tokens w (.list (v :: done) :: stack)).of_value (tokens_ne_nil w)
      fun _ _ h => Phase.Takes.nextItem h
    have hrest := takesAll_itemsTokens rest w (v :: done) stack
    rw [List.reverse_cons, List.append_assoc] at hrest
    exact .cons (.itemEnd v done stack) (hw.append hrest)
/-- The tokens behind a member lead to the object. -/
theorem takesAll_membersTokens : ∀ (rest : List (String × Json)) (v : Json)
    (done : List (String × Json)) (name : String) (stack : List Frame),
    Phase.TakesAll (.complete v (.member done name :: stack)) (membersTokens rest)
      (.complete (.obj (done.reverse ++ (name, v) :: rest)) stack)
  | [], v, done, name, stack => by
    rw [← List.reverse_cons]
    exact .cons (.objectEnd v done name stack) (.nil _)
  | (name', w) :: rest, v, done, name, stack => by
    have hw := takesAll_tokens w (.member ((name, v) :: done) name' :: stack)
    have hrest := takesAll_membersTokens rest w ((name, v) :: done) name' stack
    rw [List.reverse_cons, List.append_assoc] at hrest
    exact .cons (.memberEnd v done name stack) (.cons (.nextKey name' _ stack)
      (.cons (.colon _ name' stack) (hw.append hrest)))
end

/-! ### Ways of the reader -/

/-- Wherever the reader comes to, it has taken a row of tokens. -/
theorem takesAll_goes {s t : State} (h : s.Goes t) (hrest : Blanks t.input.rest) :
    ∃ tokens, Spaced tokens s.input.rest ∧ s.phase.TakesAll tokens t.phase := by
  induction h using Relation.ReflTransGen.head_induction_on with
  | refl => exact ⟨[], .nil hrest, .nil _⟩
  | head hstep _ ih =>
    obtain ⟨tokens, hspaced, htakes⟩ := ih
    obtain ⟨blanks, token, cs, hblanks, hcs, hread, htake, -⟩ := takes_step hstep
    exact ⟨token :: tokens, hread ▸ .cons hblanks hcs hspaced, .cons htake htakes⟩

theorem marked_goes {s t : State} (h : s.Goes t) (hs : s.Marked) : t.Marked := by
  induction h with
  | refl => exact hs
  | tail _ hstep ih =>
    obtain ⟨_, _, _, -, -, -, -, hmarked⟩ := takes_step hstep
    exact hmarked ih

theorem closed_blanks_append {blanks cs : List Char} (hblanks : Blanks blanks) (hcs : Closed cs) :
    Closed (blanks ++ cs) := by
  cases blanks with
  | nil => exact hcs
  | cons c blanks =>
    rintro d ⟨⟩
    have hblank := hblanks c (List.mem_cons_self ..)
    simp only [Input.isBlank, Bool.or_eq_true, beq_iff_eq] at hblank
    rcases hblank with ((rfl | rfl) | rfl) | rfl <;> decide

/-- A scalar is followed by a comma, a colon or a closing bracket, if by anything. -/
theorem ends_of_takesAll {p q r : Phase} {token : Token} {tokens : List Token}
    (h : p.Takes token q) (hrest : q.TakesAll tokens r) {tail : List Char}
    (htail : Spaced tokens tail) : token.Ends tail := by
  have hnext {p q : Phase} {next : Token} {cs : List Char} (hp : ∀ v, ¬ p.Takes (.scalar v) q)
      (h : p.Takes next q) (hcs : next.WrittenAs cs) (rest : List Char) : Closed (cs ++ rest) := by
    cases hcs with
    | scalar => exact absurd h (hp _)
    | _ =>
      rintro d ⟨⟩
      decide
  rintro v rfl
  cases htail with
  | nil hblanks => exact List.append_nil tail ▸ closed_blanks_append hblanks .nil
  | @cons next _ blanks cs rest hblanks hcs _ =>
    cases hrest with
    | cons hnextTakes _ =>
      refine closed_blanks_append hblanks (hnext ?_ hnextTakes hcs rest)
      intro w hw
      have hbegun {stack : List Frame} {p q : Phase} (hp : Token.Begins stack (.scalar v) p) :
          ¬ p.Takes (.scalar w) q := by
        rintro htakes
        cases hp
        cases htakes
      cases h with
      | value h => exact hbegun h hw
      | firstItem h => exact hbegun h hw
      | nextItem h => exact hbegun h hw
      | firstKey => cases hw
      | nextKey => cases hw

/-- **The reader comes through a row of tokens that lead to the phase.** -/
theorem goes_of_takesAll {p q : Phase} {tokens : List Token} {text : List Char}
    (htext : Spaced tokens text) (h : p.TakesAll tokens q) (offset : Nat) (marks : List Mark) :
    ∃ inp marks', State.Goes ⟨p, ⟨text, offset⟩, marks⟩ ⟨q, inp, marks'⟩ ∧ Blanks inp.rest := by
  induction htext generalizing p offset marks with
  | nil hblanks =>
    cases h
    exact ⟨_, _, .refl, hblanks⟩
  | cons hblanks hcs hrest ih =>
    cases h with
    | cons htakes hrestTakes =>
      have hends := ends_of_takesAll htakes hrestTakes hrest
      obtain ⟨offset', marks', hstep⟩ := step_of_takes htakes hblanks hcs hends offset marks
      obtain ⟨inp, marks'', hgoes, hinp⟩ := ih hrestTakes offset' marks'
      exact ⟨inp, marks'', .head hstep hgoes, hinp⟩

/-! ### Texts and values -/

theorem parse_eq_ok {text : String} {v : Json} : parse text = .ok v ↔
    ∃ rest, (readValue (.ofString text)).1 = .value v rest ∧ Blanks rest.rest := by
  unfold parse
  cases (readValue (.ofString text)).1 with
  | fault f => exact ⟨nofun, nofun⟩
  | value w rest =>
    have hblanks : rest.skipBlanks.rest.isEmpty = true ↔ Blanks rest.rest :=
      List.isEmpty_iff.trans List.dropWhile_eq_nil_iff
    constructor
    · intro h
      dsimp only at h
      split at h
      · rename_i hrest
        obtain rfl := Except.ok.inj h
        exact ⟨rest, rfl, hblanks.1 hrest⟩
      · cases h
    · rintro ⟨_, ⟨⟩, hrest⟩
      exact if_pos (hblanks.2 hrest)

/-- **A text is read as a value exactly if it is written for it.** -/
theorem parse_iff_writtenAs {text : String} {v : Json} :
    parse text = .ok v ↔ v.WrittenAs text := by
  rw [parse_eq_ok, Input.ofString]
  constructor
  · rintro ⟨rest, hread, hrest⟩
    obtain ⟨marks, hgoes⟩ := exists_complete hread
    obtain ⟨tokens, hspaced, htakes⟩ := takesAll_goes hgoes hrest
    have htaken : v.tokens = [] ++ tokens := hspaced.taken htakes
    rw [WrittenAs, htaken]
    exact hspaced
  · intro hspaced
    obtain ⟨inp, marks, hgoes, hinp⟩ := goes_of_takesAll hspaced (takesAll_tokens v []) 0 []
    refine ⟨inp, ?_, hinp⟩
    rw [readValue, State.initial, run_of_goes hgoes, run_complete]

/-! ### Texts that are written -/

theorem Spaced.cons_nil {token : Token} {tokens : List Token} {cs rest : List Char}
    (hcs : token.WrittenAs cs) (h : Spaced tokens rest) : Spaced (token :: tokens) (cs ++ rest) :=
  .cons (List.forall_mem_nil _) hcs h

/-- The characters that a scalar is written as are a token. -/
theorem ReadsBack.writtenAs {v : Json} (h : v.ReadsBack) :
    (Token.scalar v).WrittenAs (v.writtenChars []) := by
  obtain ⟨c, rest, after, hwritten, hread⟩ := h [] .nil 0
  exact hwritten ▸ .scalar hread

theorem writtenAs_quotedChars (name : String) :
    (Token.scalar (.str name)).WrittenAs (quotedChars name) := by
  have h := (readsBack_str name).writtenAs
  rwa [writtenChars, List.append_nil] at h

/-- Values that are rows of tokens when they are written. -/
def WritesRow (v : Json) : Prop := ∀ (tokens : List Token) (tail : List Char), Spaced tokens tail →
  Spaced (v.tokens ++ tokens) (v.writtenChars tail)

theorem spaced_itemsChars {items : List Json} (h : ∀ v ∈ items, v.WritesRow) {tokens : List Token}
    {tail : List Char} (htail : Spaced tokens tail) :
    Spaced (itemsTokens items ++ tokens) (itemsChars items tail) := by
  induction items with
  | nil => exact .cons_nil .closeList htail
  | cons v items ih =>
    obtain ⟨hv, hitems⟩ := List.forall_mem_cons.1 h
    rw [itemsTokens, List.cons_append, List.append_assoc]
    exact .cons_nil .comma (hv _ _ (ih hitems))

/-- A member is a row of tokens if its value is. -/
theorem WritesRow.spaced_member {v : Json} (h : v.WritesRow) (name : String) {tokens : List Token}
    {tail : List Char} (htail : Spaced tokens tail) :
    Spaced (.scalar (.str name) :: .colon :: (v.tokens ++ tokens))
      (quotedChars name ++ ':' :: v.writtenChars tail) :=
  .cons_nil (writtenAs_quotedChars name) (.cons_nil .colon (h _ _ htail))

theorem spaced_membersChars {members : List (String × Json)} (h : ∀ m ∈ members, m.2.WritesRow)
    {tokens : List Token} {tail : List Char} (htail : Spaced tokens tail) :
    Spaced (membersTokens members ++ tokens) (membersChars members tail) := by
  induction members with
  | nil => exact .cons_nil .closeObject htail
  | cons m members ih =>
    obtain ⟨name, v⟩ := m
    obtain ⟨hv, hmembers⟩ := List.forall_mem_cons.1 h
    rw [membersTokens, List.cons_append, List.cons_append, List.cons_append, List.append_assoc]
    exact .cons_nil .comma (hv.spaced_member name (ih hmembers))

theorem Plain.writesRow {names : List String → Prop} {v : Json} (h : v.Plain names) :
    v.WritesRow := by
  have hscalar {v : Json} (hv : v.ReadsBack) (htokens : v.tokens = [.scalar v])
      (hwritten : ∀ tail, v.writtenChars tail = v.writtenChars [] ++ tail) : v.WritesRow := by
    intro tokens tail htail
    rw [htokens, hwritten]
    exact .cons_nil hv.writtenAs htail
  induction h with
  | null => exact hscalar readsBack_null rfl fun _ => rfl
  | bool b =>
    exact hscalar (readsBack_bool b) rfl fun _ => by simp only [writtenChars, List.append_nil]
  | str s =>
    exact hscalar (readsBack_str s) rfl fun _ => by simp only [writtenChars, List.append_nil]
  | int hfits =>
    exact hscalar (readsBack_int hfits) rfl fun _ => by simp only [writtenChars, List.append_nil]
  | @arr items _ ih =>
    intro tokens tail htail
    cases items with
    | nil => exact .cons_nil .openList (.cons_nil .closeList htail)
    | cons v items =>
      obtain ⟨hv, hitems⟩ := List.forall_mem_cons.1 ih
      rw [Json.tokens, List.cons_append, List.append_assoc]
      exact .cons_nil .openList (hv _ _ (spaced_itemsChars hitems htail))
  | @obj members _ _ ih =>
    intro tokens tail htail
    cases members with
    | nil => exact .cons_nil .openObject (.cons_nil .closeObject htail)
    | cons m members =>
      obtain ⟨name, v⟩ := m
      obtain ⟨hv, hmembers⟩ := List.forall_mem_cons.1 ih
      rw [Json.tokens, List.cons_append, List.cons_append, List.cons_append, List.append_assoc]
      exact .cons_nil .openObject (hv.spaced_member name (spaced_membersChars hmembers htail))

/-- **A plain value is read back from the text that it is written as.** -/
theorem Plain.writtenAs_written {names : List String → Prop} {v : Json} (h : v.Plain names) :
    v.WrittenAs v.written := by
  have hrow := h.writesRow _ _ (.nil (List.forall_mem_nil _))
  rwa [List.append_nil, ← String.toList_ofList (l := v.writtenChars [])] at hrow

/-! ### Marks -/

theorem reverse_membersOutline (members : List (String × Json)) :
    (membersOutline members).reverse =
      .opener false 0 :: members.reverse.flatMap fun m => [.key m.1 0, m.2.mark 0 0] := by
  induction members with
  | nil => rfl
  | cons m members ih =>
    simp [membersOutline, ih]

theorem exists_mark_of_forget {v : Json} {mark : Mark} (h : mark.forget = v.mark 0 0) :
    ∃ before after, mark = v.mark before after := by
  cases mark with
  | key name closed => cases v <;> cases h
  | scalar w after => cases v <;> cases h <;> exact ⟨0, after, rfl⟩
  | opener list before => cases v <;> cases h <;> exact ⟨before, 0, rfl⟩

/-- Marks that are those of members but for the offsets have noted them. -/
theorem noted_of_forget {members : List (String × Json)} {marks : List Mark}
    (h : marks.map Mark.forget = members.flatMap fun m => [.key m.1 0, m.2.mark 0 0]) :
    Noted members marks := by
  induction members generalizing marks with
  | nil =>
    obtain rfl := List.map_eq_nil_iff.1 h
    exact .nil
  | cons m members ih =>
    obtain ⟨name, v⟩ := m
    rw [List.flatMap_cons] at h
    obtain ⟨key, behind, rfl, hkey, hbehind⟩ := List.map_eq_cons_iff.1 h
    obtain ⟨value, marks, rfl, hvalue, hmarks⟩ := List.map_eq_cons_iff.1 hbehind
    obtain ⟨before, after, rfl⟩ := exists_mark_of_forget hvalue
    cases key with
    | key other closed =>
      cases hkey
      exact .cons closed before after (ih hmarks)
    | _ => cases hkey

/-- **The members of an outermost object are noted.** -/
theorem noted_of_readValue {text : List Char} {members : List (String × Json)} {rest : Input}
    {marks : List Mark} (h : readValue ⟨text, 0⟩ = (.value (.obj members) rest, marks)) :
    ∃ before noted, marks = .opener false before :: noted ∧ Noted members noted := by
  obtain ⟨made, hgoes⟩ := exists_complete (s := .initial ⟨text, 0⟩) (congrArg Prod.fst h)
  have hmarks : made.reverse = marks := by
    rw [readValue, run_of_goes hgoes, run_complete] at h
    exact congrArg Prod.snd h
  have hmarked : made.map Mark.forget = membersOutline members.reverse := marked_goes hgoes rfl
  rw [← List.reverse_inj, reverse_membersOutline, List.reverse_reverse, ← List.map_reverse,
    hmarks] at hmarked
  obtain ⟨opener, noted, rfl, hopener, hnoted⟩ := List.map_eq_cons_iff.1 hmarked
  cases opener with
  | opener list before =>
    cases hopener
    exact ⟨before, noted, rfl, noted_of_forget hnoted⟩
  | _ => cases hopener

end Json

end TreeWalk
