import Schematron.Config.Settings
import Schematron.Data.Value

/-!
Settings as data. What is left out keeps its default, and fields of other names do not count.
-/

namespace Schematron.Config

inductive Dialect where
  | json
  | toml
  deriving DecidableEq, Repr

namespace Decode

/-- The values of the fields of a record, which may also be written as a list in the order of `names`. A
field that counts is not written twice, and in TOML no other field may be broken. A date or a time of
that dialect is a record of none of the fields. -/
def fields? (dialect : Dialect) (names : List String) : Data → Option (List (String × Data))
  | .record fields =>
    if names.any fun n => 1 < (fields.map (·.1)).count n then none
    else if dialect = .toml ∧ fields.any (fun (n, d) => !names.contains n && !d.isSound) then none
    else some fields
  | .moment _ => some []
  | .list items =>
    if dialect = .json ∧ names.length < items.length then none else some (names.zip items)
  | _ => none

/-- The value of a field, which is `default` where it is left out. -/
def field {α : Type} (fields : List (String × Data)) (name : String) (default : α)
    (decode : Data → Option α) : Option α :=
  match fields.lookup name with
  | some d => decode d
  | none => some default

def flag? : Data → Option Bool
  | .bool b => some b
  | _ => none

def text? : Data → Option String
  | .text s => some s
  | _ => none

def texts? : Data → Option (List String)
  | .list items => items.mapM text?
  | _ => none

/-- A whole number that fits so many bits. -/
def nat? (bits : Nat) : Data → Option Nat
  | .int n => if 0 ≤ n ∧ n.toNat < Nat.pow 2 bits then some n.toNat else none
  | _ => none

def orNull {α : Type} (decode : Data → Option α) : Data → Option (Option α)
  | .null => some none
  | d => (decode d).map some

/-- What may stand beside a name that stands for itself. -/
def isNothing : Dialect → Data → Bool
  | .json, .null => true
  | .toml, .list items => items.isEmpty
  | .toml, .record fields => fields.isEmpty
  | _, _ => false

def format? (dialect : Dialect) : Data → Option Rendering.Format
  | .text s => Rendering.Format.ofName? s
  | .record [(s, d)] => if isNothing dialect d then Rendering.Format.ofName? s else none
  | _ => none

def validation? (dialect : Dialect) (s : ValidationSettings) (d : Data) : Option ValidationSettings := do
  let fs ← fields? dialect ["threads", "fail_fast", "lenient", "phase"] d
  return {
    threads := ← field fs "threads" s.threads (orNull (nat? 64))
    failFast := ← field fs "fail_fast" s.failFast flag?
    lenient := ← field fs "lenient" s.lenient flag?
    phase := ← field fs "phase" s.phase (orNull text?) }

def network? (dialect : Dialect) (s : NetworkSettings) (d : Data) : Option NetworkSettings := do
  let fs ← fields? dialect ["timeout_seconds", "retry_attempts", "retry_delay_ms"] d
  return {
    timeout := ← field fs "timeout_seconds" s.timeout (nat? 64)
    retries := ← field fs "retry_attempts" s.retries (nat? 32)
    retryPause := ← field fs "retry_delay_ms" s.retryPause (nat? 64) }

def cache? (dialect : Dialect) (s : CacheSettings) (d : Data) : Option CacheSettings := do
  let fs ← fields? dialect ["max_schemas", "ttl_seconds"] d
  return {
    capacity := ← field fs "max_schemas" s.capacity (nat? 64)
    lifetime := ← field fs "ttl_seconds" s.lifetime (nat? 64) }

def output? (dialect : Dialect) (s : OutputSettings) (d : Data) : Option OutputSettings := do
  let fs ← fields? dialect ["format", "verbose", "quiet"] d
  return {
    format := ← field fs "format" s.format (format? dialect)
    verbose := ← field fs "verbose" s.verbose flag?
    quiet := ← field fs "quiet" s.quiet flag? }

def files? (dialect : Dialect) (s : FileSettings) (d : Data) : Option FileSettings := do
  let fs ← fields? dialect ["extensions", "include_patterns", "exclude_patterns"] d
  return {
    extensions := ← field fs "extensions" s.extensions texts?
    wanted := ← field fs "include_patterns" s.wanted texts?
    unwanted := ← field fs "exclude_patterns" s.unwanted texts? }

end Decode

open Decode in
/-- The settings that data stands for. -/
def Settings.ofData? (dialect : Dialect) (d : Data) : Option Settings := do
  let s := Settings.default
  let fs ← fields? dialect ["validation", "network", "cache", "output", "files"] d
  return {
    validation := ← field fs "validation" s.validation (validation? dialect s.validation)
    network := ← field fs "network" s.network (network? dialect s.network)
    cache := ← field fs "cache" s.cache (cache? dialect s.cache)
    output := ← field fs "output" s.output (output? dialect s.output)
    files := ← field fs "files" s.files (files? dialect s.files) }

/-- Settings as data, with every field. -/
def Settings.toData (s : Settings) : Data := .record [
  ("validation", .record [
    ("threads", (s.validation.threads.map .nat).getD .null),
    ("fail_fast", .bool s.validation.failFast),
    ("lenient", .bool s.validation.lenient),
    ("phase", .text? s.validation.phase)]),
  ("network", .record [
    ("timeout_seconds", .nat s.network.timeout),
    ("retry_attempts", .nat s.network.retries),
    ("retry_delay_ms", .nat s.network.retryPause)]),
  ("cache", .record [("max_schemas", .nat s.cache.capacity), ("ttl_seconds", .nat s.cache.lifetime)]),
  ("output", .record [
    ("format", .text s.output.format.name),
    ("verbose", .bool s.output.verbose),
    ("quiet", .bool s.output.quiet)]),
  ("files", .record [
    ("extensions", .texts s.files.extensions),
    ("include_patterns", .texts s.files.wanted),
    ("exclude_patterns", .texts s.files.unwanted)])]

end Schematron.Config
