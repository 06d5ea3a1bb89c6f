/-
What the program answers.

An answer is an exit code and what is printed: a report and a line feed on standard
output when all is well, otherwise a complaint on standard error.  The code is 2 for
arguments that ask for nothing and 1 for everything else that goes wrong.
-/
import TreeWalk.CommandLine.Arguments
import TreeWalk.Document.Load
import TreeWalk.Json.Printer
import TreeWalk.Report.Found
import TreeWalk.Report.Scopes
import TreeWalk.Report.Stats
import TreeWalk.Scope.Walk

namespace TreeWalk.CommandLine

/-- What the program prints, and the code it ends with. -/
structure Answer where
  code : Nat
  output : String
  complaint : String
deriving DecidableEq

/-- Why a command has nothing to report. -/
inductive Failure where
  | load (e : LoadError)
  | walk (e : WalkError)
  | notFound (pos : Offset)
  /-- The fuel of a walk did not suffice. -/
  | unfinished

/-- What is said when a command has nothing to report. -/
def Failure.message : Failure → String
  | load e => e.message
  | walk e => e.message
  | notFound pos => "no matching node contains offset " ++ toString pos
  | unfinished => "the walk did not finish"

/-- What comes of a walk. -/
def ofWalk {α : Type} : Option (Except WalkError α) → Except Failure α
  | some (.ok a) => .ok a
  | some (.error e) => .error (.walk e)
  | none => .error .unfinished

/-- The node that a search of a tree finds around a position. -/
def findNode (tree : Node) (pos : Offset) (key : Option String) : Except Failure Node := do
  let test : Test Unit := (key.map Test.ofType).getD Test.any
  let found ← ofWalk ((Walk.findAround tree.walkFuel tree pos test none () ()).map Prod.fst)
  found.elim (.error (.notFound pos)) fun c => .ok c.node

/-- The report that a command makes on a tree. -/
def Command.report (command : Command) (format : Format) (tree : Node) :
    Except Failure String :=
  match command with
  | .scopes => do
    let report := ScopeReport.ofScope (← ofWalk (scopeTree tree)) globalScope
    .ok (match format with | .text => report.text | .json => report.json.pretty)
  | .stats => do
    let report ← ofWalk (StatsReport.collect tree)
    .ok (match format with | .text => report.text | .json => report.json.pretty)
  | .find pos key => do
    let report := FoundReport.ofNode (← findNode tree pos key)
    .ok (match format with | .text => report.text | .json => report.json.pretty)

/-- What `--version` prints. -/
def versionLine : String := "rwalk 0.1.0"

/-- The answer to arguments, given how the document in a file is loaded. -/
def answer {m : Type → Type} [Monad m] (load : String → m (Except LoadError Node))
    (arguments : List String) : m Answer :=
  match Request.ofArguments arguments with
  | .error e => pure ⟨2, "", e.message⟩
  | .ok .version => pure ⟨0, versionLine ++ "\n", ""⟩
  | .ok (.invoke i) => do
    let tree ← load i.file
    match tree.mapError Failure.load >>= i.command.report i.format with
    | .ok report => pure ⟨0, report ++ "\n", ""⟩
    | .error e => pure ⟨1, "", e.message⟩

end TreeWalk.CommandLine
