/-
What has been read of a text, and how deep it is.

In every phase of the reader, the text behind it splits along the arrays and objects that are
open.  Each begins with its bracket, and there follow what it holds already, with a comma behind
each part, and the beginning of the next part: `Phase.HasRead`.  A step keeps this and adds what
it consumes, `hasRead_step`, so it holds wherever the reader comes to, on a faulty text up to
where the reader stops.

Two things follow.  A text that has been read as a whole is derived by the grammar.  And since
the scan for nesting comes through each part as deep as the part is, behind what has been read
it has as many brackets open as the reader has arrays and objects, and has seen as many open as
the deepest of what the reader holds.  From there on the scan can only see more, so no state of
the reader is deeper than the scan of the whole text says.
-/
import TreeWalk.Proofs.Json.Steps

namespace TreeWalk

namespace Json

open Depth Grammar

/-! ### How deep a state is -/

/-- The deepest of what an open array or object holds already. -/
def Frame.depth : Frame → Nat
  | list items => depthItems items
  | member members _ => depthMembers members

/-- How deep the arrays and objects that are open have been so far. -/
def stackDepth : List Frame → Nat
  | [] => 0
  | f :: stack => max (stackDepth stack) (stack.length + 1 + f.depth)

/-- The most arrays and objects that were open at once on the way to a phase. -/
def Phase.depth : Phase → Nat
  | value stack => stackDepth stack
  | firstItem stack => stackDepth (.list [] :: stack)
  | nextItem items stack => stackDepth (.list items :: stack)
  | firstKey stack => stackDepth (.member [] "" :: stack)
  | nextKey members stack => stackDepth (.member members "" :: stack)
  | colon members name stack => stackDepth (.member members name :: stack)
  | complete v stack => max (stackDepth stack) (stack.length + v.depth)

theorem length_le_stackDepth (stack : List Frame) : stack.length ≤ stackDepth stack := by
  cases stack with
  | nil => exact Nat.le_refl 0
  | cons f stack =>
    rw [stackDepth, List.length_cons]
    omega

theorem Phase.openCount_le_depth (p : Phase) : p.openCount ≤ p.depth := by
  cases p with
  | value stack => exact length_le_stackDepth stack
  | firstItem stack => exact length_le_stackDepth (.list [] :: stack)
  | nextItem items stack => exact length_le_stackDepth (.list items :: stack)
  | firstKey stack => exact length_le_stackDepth (.member [] "" :: stack)
  | nextKey members stack => exact length_le_stackDepth (.member members "" :: stack)
  | colon members name stack => exact length_le_stackDepth (.member members name :: stack)
  | complete v stack => exact Nat.le_trans (length_le_stackDepth stack) (Nat.le_max_left ..)

theorem depthItems_append (as bs : List Json) :
    depthItems (as ++ bs) = max (depthItems as) (depthItems bs) := by
  induction as with
  | nil => simp [depthItems]
  | cons a as ih => rw [List.cons_append, depthItems, ih, depthItems, Nat.max_assoc]

theorem depthItems_reverse (items : List Json) : depthItems items.reverse = depthItems items := by
  induction items with
  | nil => rfl
  | cons v items ih =>
    rw [List.reverse_cons, depthItems_append, ih, depthItems, depthItems, depthItems]
    omega

theorem depthMembers_append (as bs : List (String × Json)) :
    depthMembers (as ++ bs) = max (depthMembers as) (depthMembers bs) := by
  induction as with
  | nil => simp [depthMembers]
  | cons a as ih => rw [List.cons_append, depthMembers, ih, depthMembers, Nat.max_assoc]

theorem depthMembers_reverse (members : List (String × Json)) :
    depthMembers members.reverse = depthMembers members := by
  induction members with
  | nil => rfl
  | cons m members ih =>
    rw [List.reverse_cons, depthMembers_append, ih, depthMembers, depthMembers, depthMembers]
    omega

/-! ### What has been read -/

/-- Parts with a comma behind each, the deepest of which nests so deeply. -/
inductive Parts (part : Symbol) : Nat → List Char → Prop where
  | nil : Parts part 0 []
  | more {d e : Nat} {before cs : List Char} (h : Parts part d before)
    (hpart : Derives part cs e) : Parts part (max e d) (before ++ (cs ++ [',']))

namespace Parts

variable {part : Symbol} {d e : Nat} {before cs : List Char}

/-- Parts, and further ones behind them, are several parts. -/
theorem append (h : Parts part d before) (hcs : Derives (.several part) cs e) :
    Derives (.several part) (before ++ cs) (max e d) := by
  induction h generalizing cs e with
  | nil => rwa [Nat.max_zero]
  | @more d k before text _ hpart ih =>
    have htext : before ++ (text ++ [',']) ++ cs = before ++ (text ++ ',' :: cs) := by
      rw [List.append_assoc, List.append_assoc, List.singleton_append]
    have hmax : max e (max k d) = max (max k e) d := by omega
    rw [htext, hmax]
    exact ih (.comma hpart hcs)

/-- The last of the parts has no comma behind it. -/
theorem last (h : Parts part d before) (hcs : Derives part cs e) :
    Derives (.several part) (before ++ cs) (max e d) := h.append (.last hcs)

theorem nests (h : Parts part d before) : Nests before d := by
  induction h with
  | nil => exact .of_flat (by decide)
  | more _ hpart ih =>
    have hcomma : Nests [','] 0 := .of_flat (by decide)
    have hall := ih.append (hpart.nests.append_flat hcomma)
    rwa [Nat.max_comm] at hall

end Parts

/-- The text goes on with blanks and with `inner` behind a text that has the property. -/
def Behind (outer : List Char → Prop) (inner text : List Char) : Prop :=
  ∃ before blanks, outer before ∧ Blanks blanks ∧ text = before ++ (blanks ++ inner)

theorem Behind.append {outer : List Char → Prop} {inner text : List Char}
    (h : Behind outer inner text) (more : List Char) :
    Behind outer (inner ++ more) (text ++ more) := by
  obtain ⟨before, blanks, hbefore, hblanks, rfl⟩ := h
  exact ⟨before, blanks, hbefore, hblanks, by simp only [List.append_assoc]⟩

/-- The text in which the arrays and objects have been opened, up to where the next value in them
begins. -/
def Opens : List Frame → List Char → Prop
  | [] => fun text => text = []
  | .list items :: stack => fun text =>
    ∃ parts, Parts .element (depthItems items) parts ∧ Behind (Opens stack) ('[' :: parts) text
  | .member members _ :: stack => fun text =>
    ∃ parts before name behind, Parts .member (depthMembers members) parts ∧ Blanks before ∧
      Quoted name ∧ Blanks behind ∧
      Behind (Opens stack) ('\x7b' :: (parts ++ (before ++ (name ++ (behind ++ [':']))))) text

/-- The text has been read when the reader is in the phase. -/
def Phase.HasRead : Phase → List Char → Prop
  | value stack => Opens stack
  | firstItem stack => Behind (Opens stack) ['[']
  | nextItem items stack => Opens (.list items :: stack)
  | firstKey stack => Behind (Opens stack) ['\x7b']
  | nextKey members stack => fun text =>
    ∃ parts, Parts .member (depthMembers members) parts ∧
      Behind (Opens stack) ('\x7b' :: parts) text
  | colon members _ stack => fun text =>
    ∃ parts before name, Parts .member (depthMembers members) parts ∧ Blanks before ∧
      Quoted name ∧ Behind (Opens stack) ('\x7b' :: (parts ++ (before ++ name))) text
  | complete v stack => fun text =>
    ∃ cs, Derives .value cs v.depth ∧ Behind (Opens stack) cs text

/-! ### Steps -/

/-- A value begins where the text has come to. -/
theorem hasRead_begins {stack : List Frame} {text blanks cs : List Char} (h : Opens stack text)
    (hblanks : Blanks blanks) {token : Token} (hcs : token.WrittenAs cs) {p : Phase}
    (hbegins : token.Begins stack p) : p.HasRead (text ++ (blanks ++ cs)) := by
  cases hbegins with
  | list =>
    cases hcs
    exact ⟨text, blanks, h, hblanks, rfl⟩
  | object =>
    cases hcs
    exact ⟨text, blanks, h, hblanks, rfl⟩
  | scalar v => exact ⟨cs, derives_of_writtenAs hcs, text, blanks, h, hblanks, rfl⟩

/-- Behind a value that is complete, and blanks, an element ends. -/
theorem exists_element {v : Json} {stack : List Frame} {text blanks : List Char}
    (h : Phase.HasRead (.complete v stack) text) (hblanks : Blanks blanks) :
    ∃ outer cs, Opens stack outer ∧ Derives .element cs v.depth ∧
      text ++ blanks = outer ++ cs := by
  obtain ⟨cs, hcs, outer, before, houter, hbefore, rfl⟩ := h
  exact ⟨outer, _, houter, .element hbefore hcs hblanks, by simp only [List.append_assoc]⟩

/-- An array goes on or ends behind a value in it. -/
theorem hasRead_item {v : Json} {items : List Json} {stack : List Frame} {outer cs : List Char}
    (h : Opens (.list items :: stack) outer) (hcs : Derives .element cs v.depth) :
    Phase.HasRead (.nextItem (v :: items) stack) (outer ++ (cs ++ [','])) ∧
      Phase.HasRead (.complete (.arr (v :: items).reverse) stack) (outer ++ (cs ++ [']'])) := by
  obtain ⟨parts, hparts, hopens⟩ := h
  refine ⟨⟨_, hparts.more hcs, hopens.append _⟩, _, ?_, hopens.append _⟩
  rw [depth, depthItems_reverse, List.cons_append, ← List.append_assoc]
  exact .array (hparts.last hcs)

/-- An object goes on or ends behind a value in it. -/
theorem hasRead_member {v : Json} {members : List (String × Json)} {name : String}
    {stack : List Frame} {outer cs : List Char} (h : Opens (.member members name :: stack) outer)
    (hcs : Derives .element cs v.depth) :
    Phase.HasRead (.nextKey ((name, v) :: members) stack) (outer ++ (cs ++ [','])) ∧
      Phase.HasRead (.complete (.obj ((name, v) :: members).reverse) stack)
        (outer ++ (cs ++ ['\x7d'])) := by
  obtain ⟨parts, before, spelled, behind, hparts, hbefore, hspelled, hbehind, hopens⟩ := h
  have hmember := Derives.member hbefore hspelled hbehind hcs
  have hassoc (c : Char) : parts ++ (before ++ (spelled ++ (behind ++ [':']))) ++ (cs ++ [c]) =
      parts ++ ((before ++ (spelled ++ (behind ++ ':' :: cs))) ++ [c]) := by
    simp only [List.append_assoc, List.cons_append, List.nil_append]
  constructor
  · refine ⟨_, hparts.more hmember, ?_⟩
    rw [← hassoc]
    exact hopens.append _
  · refine ⟨_, ?_, hopens.append _⟩
    rw [depth, depthMembers_reverse, List.cons_append, hassoc, ← List.append_assoc]
    exact .object (hparts.last hmember)

/-- A token, and the blanks before it, add to what has been read. -/
theorem hasRead_takes {p q : Phase} {text blanks cs : List Char} (h : p.HasRead text)
    {token : Token} (htakes : p.Takes token q) (hblanks : Blanks blanks)
    (hcs : token.WrittenAs cs) : q.HasRead (text ++ (blanks ++ cs)) := by
  have hbehind {v : Json} {stack : List Frame} (h : Phase.HasRead (.complete v stack) text) :
      ∃ outer element, Opens stack outer ∧ Derives .element element v.depth ∧
        ∀ c : Char, text ++ (blanks ++ [c]) = outer ++ (element ++ [c]) := by
    obtain ⟨outer, element, houter, helement, htext⟩ := exists_element h hblanks
    exact ⟨outer, element, houter, helement, fun c => by
      rw [← List.append_assoc, htext, List.append_assoc]⟩
  cases htakes with
  | value hbegins => exact hasRead_begins h hblanks hcs hbegins
  | @firstItem stack _ _ hbegins =>
    have hopens : Opens (.list [] :: stack) text := ⟨[], .nil, h⟩
    exact hasRead_begins hopens hblanks hcs hbegins
  | nextItem hbegins => exact hasRead_begins h hblanks hcs hbegins
  | emptyList stack =>
    cases hcs
    exact ⟨_, .emptyArray hblanks, h.append _⟩
  | itemEnd v items stack =>
    cases hcs
    obtain ⟨outer, element, houter, helement, htext⟩ := hbehind h
    exact htext ',' ▸ (hasRead_item houter helement).1
  | listEnd v items stack =>
    cases hcs
    obtain ⟨outer, element, houter, helement, htext⟩ := hbehind h
    exact htext ']' ▸ (hasRead_item houter helement).2
  | firstKey name stack =>
    exact ⟨[], blanks, cs, .nil, hblanks, quoted_of_writtenAs hcs, h.append _⟩
  | nextKey name members stack =>
    obtain ⟨parts, hparts, hopens⟩ := h
    exact ⟨parts, blanks, cs, hparts, hblanks, quoted_of_writtenAs hcs, hopens.append _⟩
  | colon members name stack =>
    cases hcs
    obtain ⟨parts, before, spelled, hparts, hbefore, hspelled, hopens⟩ := h
    refine ⟨parts, before, spelled, blanks, hparts, hbefore, hspelled, hblanks, ?_⟩
    have hall := hopens.append (blanks ++ [':'])
    rwa [List.cons_append, List.append_assoc, List.append_assoc] at hall
  | emptyObject stack =>
    cases hcs
    exact ⟨_, .emptyObject hblanks, h.append _⟩
  | memberEnd v members name stack =>
    cases hcs
    obtain ⟨outer, element, houter, helement, htext⟩ := hbehind h
    exact htext ',' ▸ (hasRead_member houter helement).1
  | objectEnd v members name stack =>
    cases hcs
    obtain ⟨outer, element, houter, helement, htext⟩ := hbehind h
    exact htext '\x7d' ▸ (hasRead_member houter helement).2

/-- **A step adds what it consumes to what has been read.** -/
theorem hasRead_step {s t : State} {text : List Char} (h : s.phase.HasRead text)
    (hstep : step s = .more t) :
    ∃ cs, s.input.rest = cs ++ t.input.rest ∧ t.phase.HasRead (text ++ cs) := by
  obtain ⟨blanks, token, cs, hblanks, hcs, hrest, htakes, -⟩ := takes_step hstep
  exact ⟨blanks ++ cs, by rw [hrest, List.append_assoc], hasRead_takes h htakes hblanks hcs⟩

/-! ### Runs -/

/-- Wherever the reader comes to, it has read what is not left of the text. -/
theorem hasRead_goes {s t : State} {text : List Char} (h : s.phase.HasRead text)
    (hgoes : s.Goes t) :
    ∃ cs, s.input.rest = cs ++ t.input.rest ∧ t.phase.HasRead (text ++ cs) := by
  induction hgoes with
  | refl => exact ⟨[], rfl, by rwa [List.append_nil]⟩
  | tail _ hstep ih =>
    obtain ⟨cs, hcs, hread⟩ := ih
    obtain ⟨ds, hds, hread'⟩ := hasRead_step hread hstep
    exact ⟨cs ++ ds, by rw [hcs, hds, List.append_assoc], by rwa [← List.append_assoc]⟩

theorem hasRead_of_initial {text : List Char} {offset : Nat} {s : State}
    (h : (State.initial ⟨text, offset⟩).Goes s) :
    ∃ cs, text = cs ++ s.input.rest ∧ s.phase.HasRead cs := by
  have hstart : Phase.HasRead (.value []) [] := rfl
  exact hasRead_goes (s := .initial ⟨text, offset⟩) hstart h

/-- Nothing is finished where a value begins. -/
theorem beginValue_ne_finished (stack : List Frame) (inp : Input) (marks : List Mark) (v : Json)
    (rest : Input) : beginValue stack inp marks ≠ .finished v rest := by
  rw [beginValue]
  repeat' split
  all_goals
    intro h
    cases h

theorem beginMember_ne_finished (members : List (String × Json)) (stack : List Frame)
    (inp : Input) (marks : List Mark) (v : Json) (rest : Input) :
    beginMember members stack inp marks ≠ .finished v rest := by
  rw [beginMember]
  repeat' split
  all_goals
    intro h
    cases h

/-- The reader is finished with a value that is complete, with nothing open around it. -/
theorem eq_complete_of_step {s : State} {v : Json} {rest : Input}
    (h : step s = .finished v rest) : s = ⟨.complete v [], rest, s.marks⟩ := by
  obtain ⟨phase, inp, marks⟩ := s
  rw [step] at h
  dsimp only at h
  repeat' split at h
  all_goals first
    | (cases h; done)
    | exact (beginValue_ne_finished _ _ _ _ _ h).elim
    | exact (beginMember_ne_finished _ _ _ _ _ _ h).elim
    | (cases h; rfl)

theorem exists_complete {s : State} {v : Json} {rest : Input} (h : (run s).1 = .value v rest) :
    ∃ marks, s.Goes ⟨.complete v [], rest, marks⟩ := by
  fun_induction run s with
  | case1 s t hstep ih =>
    obtain ⟨marks, hgoes⟩ := ih h
    exact ⟨marks, .head hstep hgoes⟩
  | case2 s w behind hstep =>
    cases h
    refine ⟨s.marks, ?_⟩
    rw [← eq_complete_of_step hstep]
    exact .refl
  | case3 => cases h

/-- **What is read as a whole is a document.** -/
theorem isDocument_of_readValue {text : List Char} {offset : Nat} {v : Json} {rest : Input}
    (h : (readValue ⟨text, offset⟩).1 = .value v rest) (hblanks : rest.skipBlanks.rest = []) :
    IsDocument text v.depth := by
  obtain ⟨marks, hgoes⟩ := exists_complete h
  obtain ⟨cs, rfl, hread⟩ := hasRead_of_initial hgoes
  obtain ⟨blanks, hrest, hskipped⟩ := rest_skipBlanks rest
  rw [hblanks, List.append_nil] at hskipped
  obtain ⟨outer, element, rfl, helement, htext⟩ := exists_element hread hrest
  show IsDocument (cs ++ rest.rest) v.depth
  rw [hskipped, htext]
  exact helement

theorem isDocument_of_parse {text : String} {v : Json} (h : parse text = .ok v) :
    IsDocument text.toList v.depth := by
  rw [parse] at h
  split at h
  · cases h
  · rename_i w rest hread
    dsimp only at h
    split at h
    · rename_i hblank
      obtain rfl := Except.ok.inj h
      exact isDocument_of_readValue hread (List.isEmpty_iff.1 hblank)
    · cases h

/-! ### The scan of what has been read -/

/-- The scan of a text from its start. -/
def scanned (text : List Char) : Scan := text.foldl Scan.next (.outside 0 0)

theorem scanned_append (as bs : List Char) : scanned (as ++ bs) = bs.foldl Scan.next (scanned as) :=
  List.foldl_append

theorem scanned_behind {outer : List Char → Prop} {current deepest : Nat}
    (houter : ∀ before, outer before → scanned before = .outside current deepest)
    {inner text : List Char} (h : Behind outer inner text) :
    scanned text = inner.foldl Scan.next (.outside current deepest) := by
  obtain ⟨before, blanks, hbefore, hblanks, rfl⟩ := h
  rw [scanned_append, houter before hbefore, List.foldl_append, scan_neutral hblanks.flat]

/-- The scan of an array or object that has been opened around something. -/
theorem scanned_opened {outer : List Char → Prop} {current deepest d : Nat}
    (houter : ∀ before, outer before → scanned before = .outside current deepest)
    {opening : Char} (hopening : opening = '[' ∨ opening = '\x7b') {inner text : List Char}
    (hinner : Nests inner d) (h : Behind outer (opening :: inner) text) :
    scanned text = .outside (current + 1) (max deepest (current + 1 + d)) := by
  rw [scanned_behind houter h, List.foldl_cons, next_open hopening,
    hinner _ _ (Nat.le_max_right ..)]
  congr 1
  omega

/-- What is open has been seen, and how deep what it holds is. -/
theorem Opens.scanned {stack : List Frame} {text : List Char} (h : Opens stack text) :
    scanned text = .outside stack.length (stackDepth stack) := by
  induction stack generalizing text with
  | nil =>
    obtain rfl : text = [] := h
    rfl
  | cons f stack ih =>
    cases f with
    | list items =>
      obtain ⟨parts, hparts, hopens⟩ := h
      exact scanned_opened (fun _ => ih) (.inl rfl) hparts.nests hopens
    | member members name =>
      obtain ⟨parts, before, spelled, behind, hparts, hbefore, hspelled, hbehind, hopens⟩ := h
      have hcolon : Nests [':'] 0 := .of_flat (by decide)
      have hname := hbefore.nests.append_flat
        (hspelled.nests.append_flat (hbehind.nests.append_flat hcolon))
      exact scanned_opened (fun _ => ih) (.inr rfl) (hparts.nests.append_flat hname) hopens

/-- **The scan of what has been read has open what the reader has, and has been as deep.** -/
theorem Phase.HasRead.scanned {p : Phase} {text : List Char} (h : p.HasRead text) :
    scanned text = .outside p.openCount p.depth := by
  have hnone : Nests [] 0 := .of_flat (by decide)
  cases p with
  | value stack => exact Opens.scanned h
  | firstItem stack => exact scanned_opened (fun _ => Opens.scanned) (.inl rfl) hnone h
  | nextItem items stack => exact Opens.scanned h
  | firstKey stack => exact scanned_opened (fun _ => Opens.scanned) (.inr rfl) hnone h
  | nextKey members stack =>
    obtain ⟨parts, hparts, hopens⟩ := h
    exact scanned_opened (fun _ => Opens.scanned) (.inr rfl) hparts.nests hopens
  | colon members name stack =>
    obtain ⟨parts, before, spelled, hparts, hbefore, hspelled, hopens⟩ := h
    have hname := hbefore.nests.append_flat hspelled.nests
    exact scanned_opened (fun _ => Opens.scanned) (.inr rfl) (hparts.nests.append_flat hname) hopens
  | complete v stack =>
    obtain ⟨cs, hcs, hbehind⟩ := h
    rw [scanned_behind (fun _ => Opens.scanned) hbehind,
      hcs.nests _ _ (length_le_stackDepth stack)]
    rfl

theorem deepest_next (s : Scan) (c : Char) : s.deepest ≤ (s.next c).deepest := by
  rw [Scan.next]
  repeat' split
  all_goals first | exact Nat.le_refl _ | exact Nat.le_max_left ..

/-- The scan never forgets how deep it has been. -/
theorem deepest_foldl (s : Scan) (cs : List Char) :
    s.deepest ≤ (cs.foldl Scan.next s).deepest := by
  induction cs generalizing s with
  | nil => exact Nat.le_refl _
  | cons c cs ih => exact Nat.le_trans (deepest_next s c) (ih _)

/-- **No state that the reader comes to has been deeper than the text nests.** -/
theorem depth_le_nestingDepth {text : List Char} {offset : Nat} {s : State}
    (h : (State.initial ⟨text, offset⟩).Goes s) : s.phase.depth ≤ nestingDepth text := by
  obtain ⟨cs, rfl, hread⟩ := hasRead_of_initial h
  have hscan : nestingDepth (cs ++ s.input.rest) =
      (s.input.rest.foldl Scan.next (.outside s.phase.openCount s.phase.depth)).deepest := by
    rw [← hread.scanned, ← scanned_append]
    rfl
  rw [hscan]
  exact deepest_foldl (.outside s.phase.openCount s.phase.depth) s.input.rest

/-- A value that has been read is no deeper than the text nests, be the text faulty behind it. -/
theorem depth_of_readValue {text : List Char} {offset : Nat} {v : Json} {rest : Input}
    (h : (readValue ⟨text, offset⟩).1 = .value v rest) : v.depth ≤ nestingDepth text := by
  obtain ⟨marks, hgoes⟩ := exists_complete h
  refine Nat.le_trans ?_ (depth_le_nestingDepth hgoes)
  show v.depth ≤ max (stackDepth []) ([].length + v.depth)
  rw [List.length_nil, Nat.zero_add]
  exact Nat.le_max_right ..

end Json

end TreeWalk
