import Schematron.Batch.Job
import Schematron.Batch.Result
import Schematron.Loading.Loader

/-!
Validation of many files. The cache of schemas, the compiled queries of these, the signal to stop and the
count of files are all that the files share.
-/

namespace Schematron.Batch

open Schematron.Loading

variable {m : Type → Type} [Monad m] {α : Type}

structure Setup (m : Type → Type) where
  supply : Supply m
  /-- The time in microseconds. -/
  clock : m Nat
  /-- The schema to apply to every file, whatever the file names. -/
  explicit : Option Reference
  options : Validation.Options
  /-- No file is begun once one is invalid or in error. -/
  failFast : Bool

def skippedResult (path : Files.Raw) (reason : String) : FileResult := ⟨path, .skipped reason, none, none, 0, []⟩

def errorResult (path : Files.Raw) (href : Option String) (e : Failure) : FileResult :=
  ⟨path, .error e.message, href, none, 0, []⟩

def resultOf (path : Files.Raw) (href : String) : Except Validation.Failure Validation.Report → FileResult
  | .ok report =>
    let status := if report.isValid then .valid else .invalid report.events.length
    ⟨path, status, some href, some report.phase, 0, report.events⟩
  | .error .cancelled => skippedResult path "cancelled"
  | .error e => errorResult path (some href) (.validation e)

namespace Setup

def reference? (setup : Setup m) (path : Files.Raw) (text : String) : Option Reference :=
  match setup.explicit with
  | some r => some r
  | none => (Reference.allIn text (.ofRaw path)).head?

/-- Gets the schema for the text of a file and validates it. -/
def judge (setup : Setup m) (path : Files.Raw) (text : String) : Job FileResult :=
  match setup.reference? path text with
  | none => return skippedResult path "no Schematron xml-model reference"
  | some r => do
    match ← Job.schema r.source with
    | .error e => return errorResult path (some r.href) e
    | .ok schema => return resultOf path r.href (← Job.report setup.options r.source.key schema path.shown text)

/-- Reads a file and validates it. -/
def validation (setup : Setup m) (path : Files.Raw) : Job FileResult := do
  match ← Job.of (.read path) with
  | .error _ => return errorResult path none .unreadable
  | .ok text => setup.judge path text

/-- Makes a result known: a bad one may be reason to stop. -/
def publish (setup : Setup m) (r : FileResult) : Job FileResult := do
  if setup.failFast && r.status.isBad then Job.of .signal
  Job.of (.finish r.path)
  return r

/-- Makes a result known with the time that has passed since `start`. -/
def close (setup : Setup m) (start : Nat) (r : FileResult) : Job FileResult := do
  let now : Nat ← Job.of .clock
  setup.publish { r with duration := now - start }

/-- Validates a file unless no more files are to be begun. -/
def begun (setup : Setup m) (path : Files.Raw) (start : Nat) : Job FileResult := do
  if ← Job.of .stopped then setup.close start (skippedResult path "fail-fast")
  else setup.close start (← setup.validation path)

/-- All that is done for a file. -/
def task (setup : Setup m) (path : Files.Raw) : Job FileResult := do
  setup.begun path (← Job.of .clock)

end Setup

/-- What files share. -/
structure Shared where
  cache : SchemaCache
  /-- The slots of the schemas that are kept, by location. -/
  slots : Table Validation.Slots
  stopped : Bool
  /-- The files that are finished, in that order. -/
  finished : List Files.Raw

namespace Shared

def fresh : Shared := ⟨.empty, [], false, []⟩

def slotsAt (s : Shared) (location : String) : Validation.Slots := (s.slots.get? location).getD []

/-- Keeps a schema that has been loaded. None of its queries is compiled yet. -/
def keep (s : Shared) (location : String) (loaded : Except Failure Schema.Compiled) : Shared :=
  { s with cache := s.cache.keep location loaded, slots := s.slots.erase location }

end Shared

/-- Answers what is asked for. -/
def Op.perform (setup : Setup m) : (op : Op) → Shared → m (op.Answer × Shared)
  | .clock, s => return (← setup.clock, s)
  | .read path, s => return (← setup.supply.host.read path, s)
  | .stopped, s => return (s.stopped, s)
  | .seek location, s =>
    let (found, cache) := s.cache.seek location
    return (found, { s with cache })
  | .load source, s =>
    match s.cache.get? source.key with
    | some schema => return (.ok schema, s)
    | none => do
      let loaded ← setup.supply.schema source
      return (Cache.shareOf loaded, s.keep source.key loaded)
  | .query location schema place, s =>
    let (answer, slots) := (s.slotsAt location).fetch schema place
    return (answer, { s with slots := s.slots.insert location slots })
  | .signal, s => return ((), { s with stopped := true })
  | .finish path, s => return ((), { s with finished := s.finished ++ [path] })

/-- Brings a job to its end. -/
def Job.run (setup : Setup m) : Job α → Shared → m (α × Shared)
  | .done a, s => return (a, s)
  | .ask op next, s => do
    let (answer, s) ← op.perform setup s
    (next answer).run setup s

/-- Validates files one after the other, each to its end. -/
def Setup.validateFiles (setup : Setup m) : List Files.Raw → Shared → m (List FileResult × Shared)
  | [], s => return ([], s)
  | path :: paths, s => do
    let (r, s) ← (setup.task path).run setup s
    let (rs, s) ← setup.validateFiles paths s
    return (r :: rs, s)

inductive Progress where
  | searching
  | validated (path : String) (done total : Nat)
  | complete (total : Nat)
  deriving DecidableEq, Repr

/-- Which files are looked for. -/
structure Search where
  filter : Files.Filter
  depth : Option Nat
  followLinks : Bool

structure Outcome where
  results : Results
  progress : List Progress

/-- Validates the files at or below a path. -/
def validatePath (setup : Setup m) (search : Search) (path : String) : m (Except Failure Outcome) := do
  let start ← setup.clock
  match ← setup.supply.host.tree search.followLinks search.depth path with
  | none => return .error (.noStart path)
  | some tree =>
    let paths := Files.discover search.filter search.depth path tree
    let (files, last) ← setup.validateFiles (paths.map .ofText) .fresh
    let results := ⟨files, (← setup.clock) - start, last.cache.stats⟩
    let validated := last.finished.zipIdx.map fun (p, i) => .validated p.shown (i + 1) paths.length
    return .ok ⟨results, .searching :: validated ++ [.complete results.total]⟩

end Schematron.Batch
