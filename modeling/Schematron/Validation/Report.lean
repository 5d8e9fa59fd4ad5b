import Schematron.Schema.Model

namespace Schematron.Validation

structure Diagnostic where
  id : String
  message : String
  deriving DecidableEq, Repr

/-- One assert that failed or report that succeeded. -/
structure Event where
  patternId : Option String
  ruleId : Option String
  assertionId : Option String
  kind : Schema.AssertionKind
  test : String
  message : String
  /-- The path to the node from the root. -/
  location : String
  role : Option String
  flag : Option String
  diagnosticIds : List String
  diagnostics : List Diagnostic
  deriving DecidableEq, Repr

structure Report where
  phase : String
  events : List Event
  nodesVisited : Nat
  deriving DecidableEq, Repr

/-- A document is valid when nothing is reported. -/
def Report.isValid (r : Report) : Bool := r.events.isEmpty

end Schematron.Validation
