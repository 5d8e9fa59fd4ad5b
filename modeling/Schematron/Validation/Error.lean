import Schematron.Evaluation.Fault
import Schematron.Schema.Error
import Schematron.XPath.Token

namespace Schematron.Validation

/-- Misuse of the scopes of variables. -/
inductive ScopeError where
  | underflow
  | duplicateBinding (name : String)
  deriving DecidableEq, Repr

inductive EvaluationError where
  | parse (e : XPath.ParseError)
  /-- The evaluator does not take the text. -/
  | compile (expression : String)
  | execution (source : String) (fault : Evaluation.Fault)
  /-- The context of a rule has a value other than nodes. -/
  | notSelecting (source : String)
  | unknownVariable (name : String)
  | circularVariable (name : String)
  /-- Evaluation broke off at a name test whose prefix means nothing. -/
  | brokenOff (nsPrefix : String)
  deriving DecidableEq, Repr

/-- Why a run ends without a report. -/
inductive Failure where
  | schema (e : Schema.SchemaError)
  | scope (e : ScopeError)
  | evaluation (e : EvaluationError)
  | cancelled
  /-- The text of the document is not well-formed. -/
  | illFormed (origin : String)
  /-- Evaluation broke off; no run goes on after that. -/
  | brokenOff (nsPrefix : String)
  deriving DecidableEq, Repr

def ScopeError.message : ScopeError → String
  | underflow => "Scope popped without a matching push"
  | duplicateBinding name => "Variable '" ++ name ++ "' is already bound in this scope"

def EvaluationError.message : EvaluationError → String
  | parse e => e.message
  | compile expression => "Cannot compile '" ++ expression ++ "'"
  | execution source fault => "Evaluating '" ++ source ++ "' failed: " ++ fault.message
  | notSelecting source => "Evaluating '" ++ source ++ "' failed: rule context does not select nodes"
  | unknownVariable name => "Unknown variable: $" ++ name
  | circularVariable name => "Variable $" ++ name ++ " depends on itself"
  | brokenOff p => "No namespace for prefix " ++ p

def Failure.message : Failure → String
  | schema e => "Schema error: " ++ e.message
  | scope e => "Scope error: " ++ e.message
  | evaluation e => "Evaluation error: " ++ e.message
  | cancelled => "Validation cancelled"
  | illFormed origin => "Instance document is not well-formed: " ++ origin
  | brokenOff p => (EvaluationError.brokenOff p).message

/-- The failure of a run that does not put up with an error. -/
def Failure.ofEvaluation : EvaluationError → Failure
  | .brokenOff p => brokenOff p
  | e => evaluation e

end Schematron.Validation
