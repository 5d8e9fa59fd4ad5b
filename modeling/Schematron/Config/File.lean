import Schematron.Config.Decode
import Schematron.Config.Error
import Schematron.Data.Json
import Schematron.Data.Toml.Document
import Schematron.Files.Host

namespace Schematron.Config

variable {m : Type → Type} [Monad m]

def ofToml (text : String) : Except ConfigError Settings :=
  match (Data.Toml.parse text).bind (Settings.ofData? .toml) with
  | some s => .ok s
  | none => .error .badToml

def ofJson (text : String) : Except ConfigError Settings :=
  match (Data.Json.parse text).bind (Settings.ofData? .json) with
  | some s => .ok s
  | none => .error .badJson

/-- The settings in a file, whose extension tells how they are written. -/
def ofFile (extension : Option String) (text : String) : Except ConfigError Settings :=
  match extension with
  | some "toml" => ofToml text
  | some "json" => ofJson text
  | some e => .error (.unsupportedFormat e)
  | none =>
    match ofToml text with
    | .ok s => .ok s
    | .error _ => ofJson text

def load (host : Files.Host m) (path : String) : m (Except ConfigError Settings) := do
  match ← host.read path with
  | .ok text => return ofFile (Files.Path.ofText path).extension? text
  | .error _ => return .error .unreadable

/-- The names of files of settings, the first to be taken first. -/
def fileNames : List String :=
  ["schematron.toml", "schematron.json", ".schematron.toml", ".schematron.json"]

def firstPresent? (host : Files.Host m) : List String → m (Option String)
  | [] => return none
  | path :: rest => do
    if (← host.tree false (some 0) path).isSome then return some path else firstPresent? host rest

/-- The settings in the first file that there is in one of the directories, or else the default. -/
def search (host : Files.Host m) (directories : List String) : m (Except ConfigError Settings) := do
  match ← firstPresent? host (directories.flatMap fun d => fileNames.map (Files.entryText d)) with
  | some path => load host path
  | none => return .ok .default

end Schematron.Config
