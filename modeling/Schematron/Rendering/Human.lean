import Schematron.Batch.Result
import Schematron.Rendering.Style

/-! Results as lines of text: one for each file and a summary. -/

namespace Schematron.Rendering

open Schematron.Batch

structure Style where
  verbosity : Verbosity
  colored : Bool
  deriving DecidableEq, Repr

/-- What stands on a line of its own below another. -/
def indented (depth : Nat) (s : String) : String :=
  "\n" ++ String.ofList (List.replicate depth ' ') ++ s

def eventText (style : Style) (e : Validation.Event) : String :=
  let role := match e.role with
    | some r => " " ++ r
    | none => ""
  let line := e.location ++ " [" ++ e.kind.name ++ role ++ "] " ++ e.message
  if style.verbosity = .verbose then
    let details := ["test: " ++ e.test]
      ++ (e.patternId.map ("pattern: " ++ ·)).toList
      ++ e.diagnostics.map fun d => d.id ++ ": " ++ d.message
    line ++ String.join (details.map (indented 6))
  else line

def plural (n : Nat) (noun : String) : String :=
  toString n ++ " " ++ noun ++ if n = 1 then "" else "s"

def fileText (style : Style) (r : FileResult) : String :=
  let place := "  " ++ r.path.shown ++ " (" ++ duration r.duration ++ ")"
  match r.status with
  | .valid => Color.green.paint style.colored "VALID" ++ place
  | .invalid n =>
    Color.red.paint style.colored "INVALID" ++ place ++ " - " ++ plural n "diagnostic"
      ++ String.join (r.events.map fun e => indented 4 (eventText style e))
  | .error message => Color.yellow.paint style.colored "ERROR" ++ place ++ " - " ++ message
  | .skipped reason => Color.cyan.paint style.colored "SKIPPED" ++ place ++ " - " ++ reason

def summary (style : Style) (r : Results) : String :=
  let counted := fun (c : Color) (label : String) (n : Nat) (more : String) =>
    "  " ++ c.paint style.colored label ++ " " ++ toString n ++ more ++ "\n"
  "Validation Summary:\n"
    ++ "  Total files: " ++ toString r.total ++ "\n"
    ++ counted .green "Valid:" r.valid ""
    ++ (if 0 < r.invalid then
        counted .red "Invalid:" r.invalid (" (" ++ toString r.diagnostics ++ " diagnostics)") else "")
    ++ (if 0 < r.errors then counted .yellow "Errors:" r.errors "" else "")
    ++ (if 0 < r.skipped then counted .cyan "Skipped:" r.skipped "" else "")
    ++ "  Success rate: " ++ Number.fixed 1 r.successRate ++ "%\n"
    ++ "  Duration: " ++ duration r.duration ++ "\n"
    ++ (if style.verbosity = .verbose then
        "  Schemas: " ++ toString r.schemas.length ++ " (cache hit rate "
          ++ Number.fixed 1 (r.cache.hitRate * 100.0) ++ "%)\n"
      else "")

/-- Whether a file has a line. -/
def isShown (v : Verbosity) (s : Status) : Bool :=
  match v with
  | .quiet => s.isBad
  | .normal => !s.isValid
  | .verbose => true

def human (style : Style) (r : Results) : String :=
  String.join ((r.files.filter (isShown style.verbosity ·.status)).map (fileText style · ++ "\n"))
    ++ if style.verbosity ≠ .quiet || r.hasErrors || r.hasDiagnostics then summary style r else ""

end Schematron.Rendering
