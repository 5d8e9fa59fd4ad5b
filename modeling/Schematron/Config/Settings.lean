import Schematron.Loading.Fetch
import Schematron.Rendering.Style

namespace Schematron.Config

structure ValidationSettings where
  /-- How many files are validated at the same time. -/
  threads : Option Nat
  failFast : Bool
  lenient : Bool
  phase : Option String
  deriving DecidableEq, Repr

structure NetworkSettings where
  /-- In seconds. -/
  timeout : Nat
  retries : Nat
  /-- The pause before the first repetition, in milliseconds. -/
  retryPause : Nat
  deriving DecidableEq, Repr

structure CacheSettings where
  /-- How many compiled schemas are kept. -/
  capacity : Nat
  /-- How long a schema is kept, in seconds. -/
  lifetime : Nat
  deriving DecidableEq, Repr

structure OutputSettings where
  format : Rendering.Format
  verbose : Bool
  quiet : Bool
  deriving DecidableEq, Repr

structure FileSettings where
  extensions : List String
  /-- Patterns of the files to take. -/
  wanted : List String
  /-- Patterns of the files to leave out. -/
  unwanted : List String
  deriving DecidableEq, Repr

structure Settings where
  validation : ValidationSettings
  network : NetworkSettings
  cache : CacheSettings
  output : OutputSettings
  files : FileSettings
  deriving DecidableEq, Repr

/-- The settings where nothing else is said. -/
def Settings.default : Settings where
  validation := ⟨none, false, false, none⟩
  network := ⟨30, 3, 1000⟩
  cache := ⟨100, 3600⟩
  output := ⟨.human, false, false⟩
  files := ⟨["xml"], [], []⟩

/-- Why settings cannot be used. -/
inductive Violation where
  | noThreads
  | tooManyThreads
  | emptyPhase
  | noTimeout
  | tooManyRetries
  | noCapacity
  | noLifetime
  | verboseAndQuiet
  | noExtensions
  | badExtension (extension : String)
  deriving DecidableEq, Repr

def Violation.message : Violation → String
  | noThreads => "Number of threads must be greater than 0"
  | tooManyThreads => "Number of threads cannot exceed 1000"
  | emptyPhase => "Phase name must not be empty"
  | noTimeout => "Timeout must be greater than 0"
  | tooManyRetries => "Retry attempts cannot exceed 10"
  | noCapacity => "Schema cache size must be greater than 0"
  | noLifetime => "Schema cache TTL must be greater than 0"
  | verboseAndQuiet => "Cannot enable both verbose and quiet modes"
  | noExtensions => "At least one file extension must be specified"
  | badExtension e => "Invalid file extension: " ++ e

/-- An extension is no path and holds no dot. -/
def isExtension (s : String) : Bool := s.toList.all fun c => c ≠ '/' && c ≠ '\\' && c ≠ '.'

namespace Settings

/-- All that is wrong with settings, the gravest first. -/
def violations (s : Settings) : List Violation :=
  let when (p : Bool) (v : Violation) : List Violation := if p then [v] else []
  when (s.validation.threads = some 0) .noThreads
    ++ when (s.validation.threads.any (1000 < ·)) .tooManyThreads
    ++ when (s.validation.phase = some "") .emptyPhase
    ++ when (s.network.timeout = 0) .noTimeout
    ++ when (10 < s.network.retries) .tooManyRetries
    ++ when (s.cache.capacity = 0) .noCapacity
    ++ when (s.cache.lifetime = 0) .noLifetime
    ++ when (s.output.verbose && s.output.quiet) .verboseAndQuiet
    ++ when s.files.extensions.isEmpty .noExtensions
    ++ (s.files.extensions.filter (!isExtension ·)).map .badExtension

def check (s : Settings) : Except Violation Settings :=
  match s.violations with
  | [] => .ok s
  | v :: _ => .error v

/-- How schemas are fetched. The longest pause and the size of a schema are fixed. -/
def fetchPolicy (s : Settings) : Loading.FetchPolicy where
  retries := s.network.retries
  firstPause := s.network.retryPause
  longestPause := 30000
  sizeLimit := 16 * 1024 * 1024

def verbosity (s : Settings) : Rendering.Verbosity :=
  if s.output.quiet then .quiet else if s.output.verbose then .verbose else .normal

end Settings

end Schematron.Config
