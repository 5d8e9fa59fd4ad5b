import Schematron.Config.Error
import Schematron.Number.Reading
import Schematron.Text.Split

namespace Schematron.Config

/-- The values of environment variables. -/
abbrev Environment := String → Option String

/-- The whole number below `2 ^ bits` that a text spells; a plus sign may stand before it. -/
def readNat? (bits : Nat) (s : String) : Option Nat :=
  let ds := match s.toList with
    | '+' :: rest => rest
    | cs => cs
  if ds.isEmpty || !ds.all Char.isDigit then none
  else
    let n := Number.digitsToNat ds
    if n < Nat.pow 2 bits then some n else none

def readBool? (s : String) : Option Bool :=
  if s = "true" then some true else if s = "false" then some false else none

/-- The items between the commas of a list, without white space around them. Empty ones do not count. -/
def splitList (s : String) : List String := ((Text.pieces ',' s).map Text.trim).filter (· ≠ "")

namespace Environment

/-- The variables that settings depend on. -/
def keys : List String := [
  "SCHEMATRON_THREADS", "SCHEMATRON_FAIL_FAST", "SCHEMATRON_LENIENT", "SCHEMATRON_PHASE",
  "SCHEMATRON_TIMEOUT", "SCHEMATRON_RETRY_ATTEMPTS", "SCHEMATRON_CACHE_SIZE", "SCHEMATRON_CACHE_TTL",
  "SCHEMATRON_VERBOSE", "SCHEMATRON_QUIET", "SCHEMATRON_FORMAT", "SCHEMATRON_EXTENSIONS"]

/-- The value of a variable, or `default` where it is not set. -/
def value {α : Type} (env : Environment) (read : String → Option α) (key : String) (default : α) :
    Except ConfigError α :=
  match env key with
  | none => .ok default
  | some s =>
    match read (Text.trim s) with
    | some a => .ok a
    | none => .error (.environment key s)

def nat (env : Environment) (bits : Nat) (key : String) (default : Nat) : Except ConfigError Nat :=
  env.value (readNat? bits) key default

def bool (env : Environment) (key : String) (default : Bool) : Except ConfigError Bool :=
  env.value readBool? key default

/-- A blank value is as good as none. -/
def phase (env : Environment) (default : Option String) : Option String :=
  match (env "SCHEMATRON_PHASE").map Text.trim with
  | some "" | none => default
  | some s => some s

/-- Settings changed by the environment. The first variable with a bad value is reported. -/
def apply (env : Environment) (s : Settings) : Except ConfigError Settings := do
  let validation : ValidationSettings := {
    threads := ← env.value (fun t => (readNat? 64 t).map some) "SCHEMATRON_THREADS" s.validation.threads
    failFast := ← env.bool "SCHEMATRON_FAIL_FAST" s.validation.failFast
    lenient := ← env.bool "SCHEMATRON_LENIENT" s.validation.lenient
    phase := env.phase s.validation.phase }
  let network : NetworkSettings := {
    timeout := ← env.nat 64 "SCHEMATRON_TIMEOUT" s.network.timeout
    retries := ← env.nat 32 "SCHEMATRON_RETRY_ATTEMPTS" s.network.retries
    retryPause := s.network.retryPause }
  let cache : CacheSettings := {
    capacity := ← env.nat 64 "SCHEMATRON_CACHE_SIZE" s.cache.capacity
    lifetime := ← env.nat 64 "SCHEMATRON_CACHE_TTL" s.cache.lifetime }
  let verbose ← env.bool "SCHEMATRON_VERBOSE" s.output.verbose
  let quiet ← env.bool "SCHEMATRON_QUIET" s.output.quiet
  let format ← env.value (fun t => Rendering.Format.ofName? (Text.lower t)) "SCHEMATRON_FORMAT"
    s.output.format
  let files : FileSettings := {
    s.files with extensions := ((env "SCHEMATRON_EXTENSIONS").map splitList).getD s.files.extensions }
  return ⟨validation, network, cache, ⟨format, verbose, quiet⟩, files⟩

end Environment

end Schematron.Config
