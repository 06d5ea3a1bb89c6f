/-
Documents.

A document is JSON text that describes one node.  It is refused if it nests too deeply,
whatever else it is; then it is read and decoded.

The outermost object is judged as it is read.  Its offsets are decoded where they
stand, so one that is wrong is reported there, and before anything that is wrong with
the text further on.  Everything else about the data is known when the object is
complete, and is reported just behind it.
-/
import TreeWalk.Document.Decode
import TreeWalk.Document.Depth
import TreeWalk.Json.Reader

namespace TreeWalk

namespace Document

open Json (Mark)

/-- A fault in the data, and the offset at which it is reported. -/
structure Complaint where
  fault : DataFault
  offset : Nat

/-- What is found where an array or object begins. -/
def openedAs (list : Bool) : Found := if list then .sequence else .map

/-- Judges the offset that a member of the outermost object holds, by the mark of its value. -/
def offsetComplaint : Mark → Option Complaint
  | .scalar v after =>
    match Decode.offset v with
    | .ok _ => none
    | .error fault => some ⟨fault, after⟩
  | .opener list before => some ⟨.invalidType (openedAs list) "u32", before⟩
  | .key _ _ => none

/-- Judges the members of the outermost object in turn: each offset may occur once, and has to be
one. -/
def memberComplaint (start stop : Bool) : List Mark → Option Complaint
  | [] => none
  | .key name closed :: marks =>
    if (name = "start" ∧ start) ∨ (name = "end" ∧ stop) then
      some ⟨.duplicateField name, closed⟩
    else
      match marks with
      | [] => none
      | value :: marks =>
        let isOffset := name = "start" ∨ name = "end"
        (if isOffset then offsetComplaint value else none) <|>
          memberComplaint (start || name == "start") (stop || name == "end") marks
  | _ :: marks => memberComplaint start stop marks

/-- What is wrong with a document as far as its marks show, in the order of the text. -/
def complaint? : List Mark → Option Complaint
  | [] => none
  | .scalar v after :: _ => some ⟨.invalidType (.ofJson v) "struct Node", after⟩
  | .opener true before :: _ => some ⟨.invalidType .sequence "struct Node", before⟩
  | .opener false _ :: marks => memberComplaint false false marks
  | .key _ _ :: _ => none

/-- Decodes a text, or says what is wrong with it and where. -/
def decode (text : List Char) : Except (TextFault × Nat) Node :=
  let (reading, marks) := Json.readValue ⟨text, 0⟩
  match complaint? marks, reading with
  | some c, _ => .error (.data c.fault, c.offset)
  | none, .fault f => .error (.json f.flaw, f.offset)
  | none, .value v rest =>
    match Node.ofJson v with
    | .error fault => .error (.data fault, rest.offset)
    | .ok n =>
      let rest := rest.skipBlanks
      if rest.rest.isEmpty then .ok n
      else .error (.json .trailingCharacters, (rest.faultAt .trailingCharacters).offset)

end Document

/-- Loads a tree from the text of a document. -/
def Node.load (text : String) : Except LoadError Node :=
  let chars := text.toList
  let depth := nestingDepth chars
  if depth > maxDepth then .error (.tooDeep depth maxDepth)
  else
    match Document.decode chars with
    | .ok n => .ok n
    | .error (fault, offset) =>
      let (line, column) := Json.position 1 0 chars offset
      .error (.invalid fault line column)

/-- Loads a tree from the bytes of a document. -/
def Node.loadBytes (bytes : ByteArray) : Except LoadError Node :=
  match String.fromUTF8? bytes with
  | some text => Node.load text
  | none => .error .notText

end TreeWalk
