import Schematron.Files.Raw
import Schematron.Loading.Cache
import Schematron.Validation.Report

namespace Schematron.Batch

inductive Status where
  | valid
  | invalid (diagnostics : Nat)
  | error (message : String)
  | skipped (reason : String)
  deriving DecidableEq, Repr

namespace Status

def isValid : Status → Bool
  | valid => true
  | _ => false

def isInvalid : Status → Bool
  | invalid _ => true
  | _ => false

def isError : Status → Bool
  | error _ => true
  | _ => false

def isSkipped : Status → Bool
  | skipped _ => true
  | _ => false

/-- The file is invalid or could not be validated. -/
def isBad (s : Status) : Bool := s.isInvalid || s.isError

def diagnostics : Status → Nat
  | invalid n => n
  | _ => 0

end Status

structure FileResult where
  path : Files.Raw
  status : Status
  /-- The schema as the document or the caller names it. -/
  schema : Option String
  phase : Option String
  /-- In microseconds. -/
  duration : Nat
  events : List Validation.Event
  deriving DecidableEq, Repr

/-- The results of many files. -/
structure Results where
  files : List FileResult
  /-- In microseconds. -/
  duration : Nat
  cache : Loading.Cache.Stats
  deriving DecidableEq, Repr

namespace Results

def count (p : Status → Bool) (r : Results) : Nat := r.files.countP (p ·.status)

def total (r : Results) : Nat := r.files.length

def valid (r : Results) : Nat := r.count Status.isValid

def invalid (r : Results) : Nat := r.count Status.isInvalid

def errors (r : Results) : Nat := r.count Status.isError

def skipped (r : Results) : Nat := r.count Status.isSkipped

def diagnostics (r : Results) : Nat := r.files.foldr (fun f n => f.status.diagnostics + n) 0

/-- The schemas that were used, in the order of their names. -/
def schemas (r : Results) : List String :=
  (Table.ofList (r.files.filterMap fun f => f.schema.map (·, ()))).map (·.1)

def allValid (r : Results) : Bool := 0 < r.total && r.valid = r.total

def hasErrors (r : Results) : Bool := 0 < r.errors

def hasDiagnostics (r : Results) : Bool := 0 < r.invalid

/-- The share of valid files, in percent. -/
def successRate (r : Results) : Float :=
  if r.total = 0 then 0.0 else Float.ofNat r.valid / Float.ofNat r.total * 100.0

end Results

end Schematron.Batch
