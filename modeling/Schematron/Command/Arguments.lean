import Schematron.Config.Environment
import Schematron.Rendering.Style

/-!
The command line. Arguments are read from left to right; the value of an option is looked at only when
the next option or operand begins, so of two faults the one that is met first is reported.
-/

namespace Schematron.Command

inductive Opt where
  /-- The operand: a directory or a file. -/
  | path
  | schema
  | phase
  | lenient
  | extensions
  | threads
  | verbose
  | quiet
  | format
  | config
  | wanted
  | unwanted
  | failFast
  | timeout
  | retries
  | cacheSize
  | help
  | version
  deriving DecidableEq, Repr

/-- Why a command line is not run. -/
inductive UsageError where
  | missingRequired
  | unknownArgument
  /-- An option without its value, or with one that it does not know. -/
  | invalidValue
  /-- A value that is no number, or too large a one. -/
  | valueValidation
  | tooManyValues
  | conflict
  | helpAsked
  | versionAsked
  deriving DecidableEq, Repr

namespace Opt

def longNames : List (String × Opt) := [
  ("schema", schema), ("phase", phase), ("lenient", lenient), ("extensions", extensions),
  ("threads", threads), ("verbose", verbose), ("quiet", quiet), ("format", format), ("config", config),
  ("include", wanted), ("exclude", unwanted), ("fail-fast", failFast), ("timeout", timeout),
  ("retry-attempts", retries), ("cache-size", cacheSize), ("help", help), ("version", version)]

def shortNames : List (Char × Opt) := [
  ('s', schema), ('e', extensions), ('t', threads), ('v', verbose), ('q', quiet), ('c', config),
  ('h', help), ('V', version)]

def takesValue : Opt → Bool
  | lenient | verbose | quiet | failFast | help | version => false
  | _ => true

/-- The option may be given again and again. -/
def repeats : Opt → Bool
  | wanted | unwanted => true
  | _ => false

/-- A count of repetitions; it may have a sign, but not less than none be asked for. -/
def readRetries? (s : String) : Option Nat :=
  match s.toList with
  | '-' :: ds => if !ds.isEmpty && ds.all (· = '0') then some 0 else none
  | _ => Config.readNat? 32 s

def check (o : Opt) (value : String) : Except UsageError Unit :=
  let orElse (good : Bool) (e : UsageError) : Except UsageError Unit := if good then .ok () else .error e
  match o with
  | path | config => orElse (value ≠ "") .invalidValue
  | format => orElse (Rendering.Format.ofName? value).isSome .invalidValue
  | threads | timeout | cacheSize => orElse (Config.readNat? 64 value).isSome .valueValidation
  | retries => orElse (readRetries? value).isSome .valueValidation
  | _ => .ok ()

end Opt

/-- What has been read of a command line. -/
structure Reading where
  /-- The options that count, with their values. A flag has an empty one. -/
  given : List (Opt × String)
  /-- The option that was met last, while its value has not been looked at. -/
  pending : Option (Opt × Option String)
  /-- Everything from here on is an operand. -/
  operandsOnly : Bool

namespace Reading

def start : Reading := ⟨[], none, false⟩

def isGiven (r : Reading) (o : Opt) : Bool := r.given.any (·.1 = o)

def accept (r : Reading) (o : Opt) (value : String) : Except UsageError Reading := do
  if r.isGiven o && !o.repeats then throw .conflict
  o.check value
  return { r with given := r.given ++ [(o, value)] }

/-- Looks at the value that is pending. -/
def settle (r : Reading) : Except UsageError Reading :=
  match r.pending with
  | none => .ok r
  | some (_, none) => .error .invalidValue
  | some (o, some value) => { r with pending := none }.accept o value

def await (r : Reading) (o : Opt) (value : Option String) : Except UsageError Reading := do
  return { ← r.settle with pending := some (o, value) }

/-- An option with the value attached to it, if there is one. -/
def option (r : Reading) (o : Opt) (attached : Option String) : Except UsageError Reading :=
  if o.takesValue then
    match attached with
    | some value => r.settle.bind (·.accept o value)
    | none => r.await o none
  else if attached.isSome then .error .tooManyValues
  else r.settle.bind fun r =>
    match o with
    | .help => .error .helpAsked
    | .version => .error .versionAsked
    | _ => r.accept o ""

def long (r : Reading) (body : List Char) : Except UsageError Reading :=
  let name := String.ofList (body.takeWhile (· ≠ '='))
  let attached := match body.dropWhile (· ≠ '=') with
    | [] => none
    | _ :: value => some (String.ofList value)
  match Opt.longNames.lookup name with
  | some o => r.option o attached
  | none => .error .unknownArgument

/-- Short options in a row. The first that takes a value has the rest for it. -/
def cluster (r : Reading) : List Char → Except UsageError Reading
  | [] => .ok r
  | c :: rest =>
    match Opt.shortNames.lookup c with
    | none => .error .unknownArgument
    | some o =>
      if o.takesValue then
        match rest with
        | [] => r.option o none
        | '=' :: value => r.option o (some (String.ofList value))
        | value => r.option o (some (String.ofList value))
      else (r.option o none).bind (·.cluster rest)

def operand (r : Reading) (s : String) : Except UsageError Reading :=
  if r.isGiven .path || r.pending.any (·.1 = .path) then .error .unknownArgument
  else r.await .path (some s)

/-- Gives an argument to the option that waits for its value, or else takes it as an operand. -/
def plain (r : Reading) (s : String) : Except UsageError Reading :=
  match r.pending with
  | some (o, none) => .ok { r with pending := some (o, some s) }
  | _ => r.operand s

def argument (r : Reading) (s : String) : Except UsageError Reading :=
  if r.operandsOnly then r.operand s
  else
    match s.toList with
    | ['-', '-'] => .ok { r with operandsOnly := true }
    | '-' :: '-' :: body => r.long body
    | '-' :: c :: rest => r.cluster (c :: rest)
    | _ => r.plain s

end Reading

structure Arguments where
  path : String
  schema : Option String
  phase : Option String
  extensions : Option String
  config : Option String
  threads : Option Nat
  timeout : Option Nat
  retries : Option Nat
  cacheSize : Option Nat
  format : Option Rendering.Format
  lenient : Bool
  failFast : Bool
  verbose : Bool
  quiet : Bool
  wanted : List String
  unwanted : List String
  deriving DecidableEq, Repr

namespace Arguments

/-- The values of the options that were given. -/
def ofGiven (given : List (Opt × String)) (path : String) : Arguments :=
  let value (o : Opt) : Option String := given.lookup o
  let values (o : Opt) : List String := (given.filter (·.1 = o)).map (·.2)
  { path
    schema := value .schema
    phase := value .phase
    extensions := value .extensions
    config := value .config
    threads := (value .threads).bind (Config.readNat? 64)
    timeout := (value .timeout).bind (Config.readNat? 64)
    retries := (value .retries).bind Opt.readRetries?
    cacheSize := (value .cacheSize).bind (Config.readNat? 64)
    format := (value .format).bind Rendering.Format.ofName?
    lenient := (value .lenient).isSome
    failFast := (value .failFast).isSome
    verbose := (value .verbose).isSome
    quiet := (value .quiet).isSome
    wanted := values .wanted
    unwanted := values .unwanted }

/-- Reads a command line, the name of the program left out. -/
def parse (args : List String) : Except UsageError Arguments := do
  let r ← (← args.foldlM Reading.argument .start).settle
  if r.isGiven .quiet && r.isGiven .verbose then throw .conflict
  match r.given.lookup .path with
  | some path => return ofGiven r.given path
  | none => throw .missingRequired

def extensionList (a : Arguments) : Option (List String) := a.extensions.map Config.splitList

def verbosity (a : Arguments) : Rendering.Verbosity :=
  if a.quiet then .quiet else if a.verbose then .verbose else .normal

open Schematron.Config in
/-- Settings changed by what was given on the command line. -/
def apply (a : Arguments) (s : Settings) : Settings where
  validation := {
    threads := a.threads.orElse fun _ => s.validation.threads
    failFast := s.validation.failFast || a.failFast
    lenient := s.validation.lenient || a.lenient
    phase := a.phase.orElse fun _ => s.validation.phase }
  network := {
    s.network with
    timeout := a.timeout.getD s.network.timeout
    retries := a.retries.getD s.network.retries }
  cache := { s.cache with capacity := a.cacheSize.getD s.cache.capacity }
  output := {
    format := a.format.getD s.output.format
    verbose := a.verbose || (s.output.verbose && !a.quiet)
    quiet := a.quiet || (s.output.quiet && !a.verbose) }
  files := {
    extensions := a.extensionList.getD s.files.extensions
    wanted := if a.wanted.isEmpty then s.files.wanted else a.wanted
    unwanted := if a.unwanted.isEmpty then s.files.unwanted else a.unwanted }

end Arguments

end Schematron.Command
