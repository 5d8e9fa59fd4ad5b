import Schematron.Batch.Run
import Schematron.Command.Arguments
import Schematron.Config.File
import Schematron.Rendering.Render

namespace Schematron.Command

open Schematron.Config

variable {m : Type → Type} [Monad m]

/-- Why a run ends before any file is validated. -/
inductive Fault where
  | noPath (path : String)
  | noThreads
  | config (e : ConfigError)
  | loading (e : Loading.Failure)
  deriving DecidableEq, Repr

def Fault.message : Fault → String
  | noPath path => "Path does not exist: " ++ path
  | noThreads => Violation.noThreads.message
  | config e => "failed to load configuration: " ++ e.message
  | loading e => e.message

/-- The computer that a command runs on. -/
structure Machine (m : Type → Type) where
  host : Files.Host m
  network : Loading.Network m
  /-- The time in microseconds. -/
  clock : m Nat
  /-- The time of day, as reports give it. -/
  date : m String
  environment : Environment
  /-- Where files of settings are looked for. -/
  configDirectories : List String
  /-- Output goes to a terminal. -/
  colored : Bool

/-- Checks arguments against the files that there are. -/
def Arguments.check (a : Arguments) (host : Files.Host m) : m (Option Fault) := do
  if (← host.tree false (some 0) a.path).isNone then return some (.noPath a.path)
  if a.threads = some 0 then return some .noThreads
  return none

/-- The settings for a run: those of a file, changed by the environment and then by the arguments. -/
def settings (host : Files.Host m) (env : Environment) (directories : List String) (a : Arguments) :
    m (Except ConfigError Settings) := do
  let base ← match a.config with
    | some path => load host path
    | none => search host directories
  return do
    let s ← env.apply (← base)
    (a.apply s).check.mapError .violation

def validate (machine : Machine m) (a : Arguments) (s : Settings) :
    m (Except Loading.Failure Batch.Outcome) := do
  match Files.Filter.ofTexts s.files.extensions s.files.wanted s.files.unwanted with
  | .error e => return .error (.badPattern e)
  | .ok filter =>
    let setup : Batch.Setup m := {
      supply := ⟨machine.host, machine.network, s.fetchPolicy⟩
      clock := machine.clock
      explicit := a.schema.map .explicit
      options := ⟨s.validation.phase, s.validation.lenient, false⟩
      failFast := s.validation.failFast }
    Batch.validatePath setup ⟨filter, none, false⟩ a.path

/-- What a command leaves: its exit code, and what it has written. -/
structure Outcome where
  code : Nat
  output : String
  error : Option String
  deriving DecidableEq, Repr

/-- Two where a file is in error, one where a file is invalid, and otherwise zero. -/
def exitCode (r : Batch.Results) : Nat :=
  if r.hasErrors then 2 else if r.hasDiagnostics then 1 else 0

def withLineEnd (s : String) : String := if s.toList.getLast? = some '\n' then s else s ++ "\n"

def execute (machine : Machine m) (a : Arguments) : m (Except Fault Outcome) := do
  if let some fault ← a.check machine.host then return .error fault
  match ← settings machine.host machine.environment machine.configDirectories a with
  | .error e => return .error (.config e)
  | .ok s =>
    match ← validate machine a s with
    | .error e => return .error (.loading e)
    | .ok outcome =>
      let style := ⟨s.verbosity, machine.colored && s.output.format = .human⟩
      let text := Rendering.render s.output.format style (← machine.date) outcome.results
      return .ok ⟨exitCode outcome.results, withLineEnd text, none⟩

def usage : String :=
  "Usage: schematron-validate [OPTIONS] <PATH>\n\n"
    ++ "Options:\n"
    ++ "  -s, --schema <SCHEMA>\n      --phase <PHASE>\n      --lenient\n"
    ++ "  -e, --extensions <EXTENSIONS>\n  -t, --threads <THREADS>\n  -v, --verbose\n  -q, --quiet\n"
    ++ "      --format <human|json|summary>\n  -c, --config <CONFIG>\n"
    ++ "      --include <PATTERN>\n      --exclude <PATTERN>\n      --fail-fast\n"
    ++ "      --timeout <SECONDS>\n      --retry-attempts <COUNT>\n      --cache-size <COUNT>\n"
    ++ "  -h, --help\n  -V, --version\n"

def UsageError.message : UsageError → String
  | missingRequired => "a path is required"
  | unknownArgument => "unexpected argument"
  | invalidValue => "invalid or missing value"
  | valueValidation => "value out of range"
  | tooManyValues => "unexpected value"
  | conflict => "arguments cannot be used together"
  | helpAsked | versionAsked => ""

/-- Runs a command. -/
def run (machine : Machine m) (args : List String) : m Outcome := do
  match Arguments.parse args with
  | .error .helpAsked => return ⟨0, usage, none⟩
  | .error .versionAsked => return ⟨0, "schematron-validate " ++ Rendering.version ++ "\n", none⟩
  | .error e => return ⟨2, "", some ("error: " ++ e.message)⟩
  | .ok a =>
    match ← execute machine a with
    | .ok outcome => return outcome
    | .error fault => return ⟨2, "", some ("Error: " ++ fault.message)⟩

end Schematron.Command
