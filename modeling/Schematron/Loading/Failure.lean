import Schematron.Files.Filter
import Schematron.Validation.Error

namespace Schematron.Loading

/-- Why a file or a schema is not to be had, or a run on it not to be made. -/
inductive Failure where
  | validation (e : Validation.Failure)
  /-- A file that is there cannot be read. -/
  | unreadable
  /-- A server gave no response. -/
  | unanswered
  | status (code : Nat) (url reason : String)
  | schemaNotFound (location : String)
  | noReference (document : String)
  | badPattern (e : Files.BadPattern)
  /-- The start of a search for files is not there. -/
  | noStart (path : String)
  /-- The failure of a load that others may have waited for. -/
  | shared (e : Failure)
  deriving DecidableEq, Repr

namespace Failure

def message : Failure → String
  | validation e => e.message
  | unreadable => "IO error"
  | unanswered => "HTTP error"
  | status code url reason => "HTTP status error: " ++ toString code ++ " for " ++ url ++ " - " ++ reason
  | schemaNotFound location => "Schema not found: " ++ location
  | noReference document => "No Schematron schema referenced by " ++ document
  | badPattern e => "Configuration error: " ++ e.message
  | noStart path => "File system traversal error: " ++ path
  | shared e => e.message

/-- Whether the schema itself is at fault. -/
def isSchemaError : Failure → Bool
  | validation (.schema _) => true
  | shared e => e.isSchemaError
  | _ => false

end Failure

end Schematron.Loading
