import TreeWalk.Main
import TreeWalk.Proofs.OrderedMap.Insertion
import TreeWalk.Proofs.Table.Equality
import TreeWalk.Proofs.Table.Overrides
import TreeWalk.Proofs.Walk.Handlers
import TreeWalk.Syntax.Build
import TreeWalk.Syntax.Equality
import TreeWalk.Walk.Fuel
import TreeWalk.Proofs.Walk.Descent
import TreeWalk.Proofs.Walk.Visits
import TreeWalk.Proofs.Walk.Postorder
import TreeWalk.Proofs.Walk.Search
import TreeWalk.Proofs.Walk.Ranges
import TreeWalk.Proofs.Scope.Stages
import TreeWalk.Proofs.Scope.Events
import TreeWalk.Proofs.Scope.Growth
import TreeWalk.Proofs.Scope.Reference
import TreeWalk.Proofs.Scope.Agreement
import TreeWalk.Proofs.Scope.Progress
import TreeWalk.Proofs.Scope.Fault
import TreeWalk.Proofs.Scope.Frame
import TreeWalk.Proofs.Walk.Observation
import TreeWalk.Proofs.Json.ReadBack
import TreeWalk.Proofs.Json.Nesting
import TreeWalk.Proofs.Document.Encoding
import TreeWalk.Proofs.Json.Order
import TreeWalk.Proofs.Document.Decoding
import TreeWalk.Proofs.Document.RoundTrip
import TreeWalk.Proofs.Walk.Path
import TreeWalk.Proofs.Walk.Ancestors
import TreeWalk.Proofs.Scope.Traversal
import TreeWalk.Proofs.Scope.Lifetime
import TreeWalk.Proofs.Scope.History
import TreeWalk.Proofs.Scope.Bodies
import TreeWalk.Proofs.Scope.Housing
import TreeWalk.Proofs.Scope.Residence
import TreeWalk.Proofs.Json.Grammar
import TreeWalk.Proofs.Json.Tokens
import TreeWalk.Proofs.Json.Prefixes
import TreeWalk.Proofs.Document.Nesting
import TreeWalk.Proofs.Walk.Conduct
import TreeWalk.Proofs.Walk.Faults
import TreeWalk.Proofs.Walk.Pruning
import TreeWalk.Proofs.Json.Steps
import TreeWalk.Proofs.Json.Spelling
import TreeWalk.Proofs.Document.Description
import TreeWalk.Proofs.Document.Loading
import TreeWalk.Proofs.Document.Acceptance
import TreeWalk.Proofs.Document.Edits
import TreeWalk.Proofs.Document.Repetition
import TreeWalk.Proofs.Walk.Wrapping
import TreeWalk.Proofs.Walk.Arrivals
import TreeWalk.Proofs.Walk.Frugality
import TreeWalk.Proofs.Walk.Termination
import TreeWalk.Proofs.Report.Positions
import TreeWalk.Proofs.Report.Counts
import TreeWalk.Proofs.Report.Agreement
import TreeWalk.Proofs.Walk.Interchange
import TreeWalk.Proofs.Walk.Settling
import TreeWalk.Proofs.Scope.Upkeep
import TreeWalk.Proofs.Report.Lines
import TreeWalk.Proofs.Report.Lossless
import TreeWalk.Proofs.Walk.Typed
import TreeWalk.Proofs.Scope.Parameters
import TreeWalk.Proofs.Scope.Built
