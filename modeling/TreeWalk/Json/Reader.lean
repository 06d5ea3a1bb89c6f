/-
Reading JSON.

The reader is a machine.  Its phase says what it is in the middle of, with the arrays
and objects that are open; a step consumes at least one character, so the machine
stops, and it stops at the first character that cannot go on a document.  Nothing
nests but the data, so a document may nest as deeply as it likes.

While it reads, the machine notes in marks how the outermost value begins and, if that
is an object, how its members go: a member can be judged by its marks before the rest
of the text is known, or known to be faulty.
-/
import TreeWalk.Json.Scalar

namespace TreeWalk.Json

/-! ### States -/

/-- An array or object that is open around a value: what it holds already, in reverse. -/
inductive Frame where
  | list (items : List Json)
  /-- An object, with the name that the value is for. -/
  | member (members : List (String × Json)) (name : String)

/-- What the machine is in the middle of. -/
inductive Phase where
  /-- A value comes next. -/
  | value (stack : List Frame)
  /-- After the opening bracket of an array. -/
  | firstItem (stack : List Frame)
  /-- After a comma in an array. -/
  | nextItem (items : List Json) (stack : List Frame)
  /-- After the opening brace of an object. -/
  | firstKey (stack : List Frame)
  /-- After a comma in an object. -/
  | nextKey (members : List (String × Json)) (stack : List Frame)
  /-- After the name of a member. -/
  | colon (members : List (String × Json)) (name : String) (stack : List Frame)
  /-- A value is complete. -/
  | complete (v : Json) (stack : List Frame)

/-- How many arrays and objects are open. -/
def Phase.openCount : Phase → Nat
  | value stack => stack.length
  | firstItem stack => stack.length + 1
  | nextItem _ stack => stack.length + 1
  | firstKey stack => stack.length + 1
  | nextKey _ stack => stack.length + 1
  | colon _ _ stack => stack.length + 1
  | complete _ stack => stack.length

/-- What is noted about the outermost value and the members of an outermost object. -/
inductive Mark where
  /-- The name of a member has been read; the object would be found closed, if it is, at the
  offset. -/
  | key (name : String) (closed : Nat)
  /-- A scalar has been read, up to the offset. -/
  | scalar (v : Json) (after : Nat)
  /-- An array or object begins at the offset. -/
  | opener (list : Bool) (before : Nat)

/-- A state of the machine. -/
structure State where
  phase : Phase
  input : Input
  /-- The marks made, the latest first. -/
  marks : List Mark

/-- What a step leads to. -/
inductive Progress where
  | more (s : State)
  | finished (v : Json) (rest : Input)
  | stuck (f : Fault)

/-! ### Steps -/

/-- Whether a value inside these frames is the outermost one or belongs to a member of it. -/
def isOuter : List Frame → Bool
  | [] => true
  | [.member _ _] => true
  | _ => false

/-- Adds a mark for a value that is not deep inside. -/
def markIfOuter (stack : List Frame) (mark : Mark) (marks : List Mark) : List Mark :=
  if isOuter stack then mark :: marks else marks

/-- Reads a scalar that begins with the character `c`. -/
def readScalar (c : Char) (rest : List Char) (offset : Nat) : Except Fault (Json × Input) :=
  if c = '"' then (readString [] ⟨rest, offset + 1⟩).map fun (s, behind) => (.str s, behind)
  else if c = '-' then
    (readNumber true ⟨rest, offset + 1⟩).map fun (n, behind) => (.num n, behind)
  else if c.isDigit then
    (readNumber false ⟨c :: rest, offset⟩).map fun (n, behind) => (.num n, behind)
  else if c = 't' then
    (readWord ['r', 'u', 'e'] ⟨rest, offset + 1⟩).map fun behind => (.bool true, behind)
  else if c = 'f' then
    (readWord ['a', 'l', 's', 'e'] ⟨rest, offset + 1⟩).map fun behind => (.bool false, behind)
  else if c = 'n' then
    (readWord ['u', 'l', 'l'] ⟨rest, offset + 1⟩).map fun behind => (.null, behind)
  else .error ⟨.noValue, offset + 1⟩

/-- Begins a value: reads it whole if it is a scalar, and opens it if not. -/
def beginValue (stack : List Frame) (inp : Input) (marks : List Mark) : Progress :=
  match inp.rest with
  | [] => .stuck (inp.faultAfter .endInValue)
  | c :: rest =>
    if c = '[' then
      .more ⟨.firstItem stack, ⟨rest, inp.offset + 1⟩,
        markIfOuter stack (.opener true inp.offset) marks⟩
    else if c = '\x7b' then
      .more ⟨.firstKey stack, ⟨rest, inp.offset + 1⟩,
        markIfOuter stack (.opener false inp.offset) marks⟩
    else
      match readScalar c rest inp.offset with
      | .error f => .stuck f
      | .ok (v, behind) =>
        .more ⟨.complete v stack, behind, markIfOuter stack (.scalar v behind.offset) marks⟩

/-- Where an object that ends here is closed: behind its brace, or where the brace would be. -/
def closedAt (inp : Input) : Nat :=
  let inp := inp.skipBlanks
  if inp.rest.head? = some '\x7d' then inp.offset + 1 else inp.offset

/-- Reads the name of a member. -/
def beginMember (members : List (String × Json)) (stack : List Frame) (inp : Input)
    (marks : List Mark) : Progress :=
  match inp.rest with
  | [] => .stuck (inp.faultAfter .endInValue)
  | c :: rest =>
    if c = '"' then
      match readString [] ⟨rest, inp.offset + 1⟩ with
      | .error f => .stuck f
      | .ok (name, behind) =>
        let marks := if stack.isEmpty then .key name (closedAt behind) :: marks else marks
        .more ⟨.colon members name stack, behind, marks⟩
    else .stuck (inp.faultAt .keyNotString)

/-- One step of the machine. -/
def step (s : State) : Progress :=
  let inp := s.input.skipBlanks
  let advanced : Input := ⟨inp.rest.tail, inp.offset + 1⟩
  match s.phase, inp.rest.head? with
  | .value stack, _ => beginValue stack inp s.marks
  | .firstItem _, none => .stuck (inp.faultAfter .endInList)
  | .firstItem stack, some c =>
    if c = ']' then .more ⟨.complete (.arr []) stack, advanced, s.marks⟩
    else beginValue (.list [] :: stack) inp s.marks
  | .nextItem items stack, next =>
    if next = some ']' then .stuck (inp.faultAt .trailingComma)
    else beginValue (.list items :: stack) inp s.marks
  | .firstKey _, none => .stuck (inp.faultAfter .endInObject)
  | .firstKey stack, some c =>
    if c = '\x7d' then .more ⟨.complete (.obj []) stack, advanced, s.marks⟩
    else beginMember [] stack inp s.marks
  | .nextKey members stack, next =>
    if next = some '\x7d' then .stuck (inp.faultAt .trailingComma)
    else beginMember members stack inp s.marks
  | .colon _ _ _, none => .stuck (inp.faultAfter .endInObject)
  | .colon members name stack, some c =>
    if c = ':' then .more ⟨.value (.member members name :: stack), advanced, s.marks⟩
    else .stuck (inp.faultAt .noColon)
  | .complete v [], _ => .finished v s.input
  | .complete _ (.list _ :: _), none => .stuck (inp.faultAfter .endInList)
  | .complete v (.list items :: stack), some c =>
    if c = ',' then .more ⟨.nextItem (v :: items) stack, advanced, s.marks⟩
    else if c = ']' then .more ⟨.complete (.arr (v :: items).reverse) stack, advanced, s.marks⟩
    else .stuck (inp.faultAt .noListEnd)
  | .complete _ (.member _ _ :: _), none => .stuck (inp.faultAfter .endInObject)
  | .complete v (.member members name :: stack), some c =>
    if c = ',' then .more ⟨.nextKey ((name, v) :: members) stack, advanced, s.marks⟩
    else if c = '\x7d' then
      .more ⟨.complete (.obj ((name, v) :: members).reverse) stack, advanced, s.marks⟩
    else .stuck (inp.faultAt .noObjectEnd)

/-! ### Running

Every step consumes something, so the machine stops.
-/

private theorem exists_of_map_eq_ok {α β : Type} {f : α → β} {r : Except Fault α} {b : β}
    (h : r.map f = .ok b) : ∃ a, r = .ok a ∧ f a = b := by
  cases r with
  | error e => cases h
  | ok a => exact ⟨a, rfl, Except.ok.inj h⟩

theorem length_readScalar {c : Char} {rest : List Char} {offset : Nat} {v : Json} {behind : Input}
    (h : readScalar c rest offset = .ok (v, behind)) : behind.rest.length ≤ rest.length := by
  simp only [readScalar] at h
  split at h
  · obtain ⟨p, hx, hp⟩ := exists_of_map_eq_ok h
    simp only [Prod.mk.injEq] at hp
    exact hp.2 ▸ Nat.le_of_lt (length_readString hx)
  split at h
  · obtain ⟨p, hx, hp⟩ := exists_of_map_eq_ok h
    simp only [Prod.mk.injEq] at hp
    exact hp.2 ▸ Nat.le_of_lt (length_readNumber hx)
  split at h
  · obtain ⟨p, hx, hp⟩ := exists_of_map_eq_ok h
    simp only [Prod.mk.injEq] at hp
    exact hp.2 ▸ Nat.le_of_lt_succ (length_readNumber hx)
  iterate 3
    split at h
    · obtain ⟨p, hx, hp⟩ := exists_of_map_eq_ok h
      simp only [Prod.mk.injEq] at hp
      exact hp.2 ▸ length_readWord hx
  cases h

theorem length_beginValue {stack : List Frame} {inp : Input} {marks : List Mark} {s : State}
    (h : beginValue stack inp marks = .more s) : s.input.rest.length < inp.rest.length := by
  simp only [beginValue] at h
  split at h
  · cases h
  · rename_i hr
    split at h
    · cases h; simp [hr]
    · split at h
      · cases h; simp [hr]
      · split at h
        · cases h
        · rename_i hx
          have := length_readScalar hx
          cases h
          simp only [hr, List.length_cons]
          omega

theorem length_beginMember {members : List (String × Json)} {stack : List Frame} {inp : Input}
    {marks : List Mark} {s : State} (h : beginMember members stack inp marks = .more s) :
    s.input.rest.length < inp.rest.length := by
  simp only [beginMember] at h
  split at h
  · cases h
  · rename_i hr
    split at h
    · split at h
      · cases h
      · rename_i hx
        have := length_readString hx
        cases h
        simp only [hr, List.length_cons] at this ⊢
        omega
    · cases h

/-- A step that goes on consumes at least one character. -/
theorem length_step {s s' : State} (h : step s = .more s') :
    s'.input.rest.length < s.input.rest.length := by
  have hb := Input.length_skipBlanks s.input
  have advance {c : Char} (hc : s.input.skipBlanks.rest.head? = some c) :
      s.input.skipBlanks.rest.tail.length < s.input.rest.length := by
    cases hr : s.input.skipBlanks.rest with
    | nil => simp [hr] at hc
    | cons d ds => simp only [hr, List.length_cons, List.tail_cons] at hb ⊢; omega
  simp only [step] at h
  split at h
  all_goals (repeat' split at h)
  all_goals first
    | (cases h; done)
    | (cases h; exact advance ‹_›)
    | exact Nat.lt_of_lt_of_le (length_beginValue h) hb
    | exact Nat.lt_of_lt_of_le (length_beginMember h) hb

/-- What reading a text comes to. -/
inductive Reading where
  /-- A value, and the text behind it. -/
  | value (v : Json) (rest : Input)
  | fault (f : Fault)

/-- Runs the machine from a state to its end, and gives the marks in the order they were made. -/
def run (s : State) : Reading × List Mark :=
  match _h : step s with
  | .more s' => run s'
  | .finished v rest => (.value v rest, s.marks.reverse)
  | .stuck f => (.fault f, s.marks.reverse)
termination_by s.input.rest.length
decreasing_by exact length_step _h

/-- The machine before a text. -/
def State.initial (inp : Input) : State := ⟨.value [], inp, []⟩

/-- Reads the value that a text begins with. -/
def readValue (inp : Input) : Reading × List Mark := run (.initial inp)

/-- Reads a text that is one value, with blanks around it. -/
def parse (s : String) : Except Fault Json :=
  match (readValue (.ofString s)).1 with
  | .fault f => .error f
  | .value v rest =>
    let rest := rest.skipBlanks
    if rest.rest.isEmpty then .ok v else .error (rest.faultAt .trailingCharacters)

end TreeWalk.Json
