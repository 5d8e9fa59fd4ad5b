import Schematron.Data.Printer
import Schematron.Rendering.Human

namespace Schematron.Rendering

open Schematron.Batch

def eventData (e : Validation.Event) : Data := .record [
  ("pattern_id", .text? e.patternId),
  ("rule_id", .text? e.ruleId),
  ("assertion_id", .text? e.assertionId),
  ("kind", .text e.kind.name),
  ("test", .text e.test),
  ("message", .text e.message),
  ("location", .text e.location),
  ("role", .text? e.role),
  ("flag", .text? e.flag),
  ("diagnostic_ids", .texts e.diagnosticIds),
  ("diagnostics", .list (e.diagnostics.map fun d => .record [("id", .text d.id), ("message", .text d.message)]))]

def statusFields : Status → List (String × Data)
  | .valid => [("status", .text "valid")]
  | .invalid n => [("status", .text "invalid"), ("diagnostic_count", .nat n)]
  | .error message => [("status", .text "error"), ("message", .text message)]
  | .skipped reason => [("status", .text "skipped"), ("reason", .text reason)]

/-- The path is broken where it spells no text. -/
def fileData (r : FileResult) : Data := .record (
  [("path", r.path.text?.elim .broken .text)] ++ statusFields r.status ++ [
  ("schema", .text? r.schema),
  ("phase", .text? r.phase),
  ("duration", .nat (r.duration / 1000)),
  ("events", .list (r.events.map eventData))])

def resultsFields (r : Results) : List (String × Data) := [
  ("total_files", .nat r.total),
  ("valid_files", .nat r.valid),
  ("invalid_files", .nat r.invalid),
  ("error_files", .nat r.errors),
  ("skipped_files", .nat r.skipped),
  ("total_diagnostics", .nat r.diagnostics),
  ("total_duration", .nat (r.duration / 1000)),
  ("schemas_used", .texts r.schemas),
  ("cache", .record [
    ("hits", .nat r.cache.hits), ("misses", .nat r.cache.misses), ("entries", .nat r.cache.entries)]),
  ("file_results", .list (r.files.map fileData))]

def version : String := "0.1.0"

/-- Results as a JSON document that tells when it was made. -/
def document (generatedAt : String) (r : Results) : Data := .record (
  [("generated_at", .text generatedAt), ("tool", .text "schematron"), ("version", .text version)]
    ++ resultsFields r)

def render (format : Format) (style : Style) (generatedAt : String) (r : Results) : String :=
  match format with
  | .human => human style r
  | .json => (document generatedAt r).toJson
  | .summary => summary style r

end Schematron.Rendering
