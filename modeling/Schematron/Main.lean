import Schematron.Command.Run
import Schematron.Rendering.Date
import Std.Time.Format

/-! The program `schematron-validate`: a machine made of the files, the clock and the environment. -/

namespace Schematron.Main

open Schematron.Files

/-- The tree at an entry of a directory. A link that leads nowhere counts as a file. -/
partial def entryTree (follow : Bool) (depth : Option Nat) (e : IO.FS.DirEntry) : IO Tree := do
  let isLink := (← e.path.symlinkMetadata).type == .symlink
  if isLink && !follow then return .link
  match ← e.path.metadata.toBaseIO with
  | .error _ => return .file
  | .ok data =>
    if data.type != .dir then return .file
    match below? depth with
    | none => return .directory []
    | some inner =>
      let entries ← e.path.readDir
      return .directory (← entries.toList.mapM fun e => return (e.fileName, ← entryTree follow inner e))

def treeAt (follow : Bool) (depth : Option Nat) (path : String) : IO (Option Tree) := do
  match ← (IO.FS.realPath path).toBaseIO with
  | .error _ => return none
  | .ok place =>
    match ← place.metadata.toBaseIO with
    | .error _ => return none
    | .ok data =>
      if data.type != .dir then return some .file
      let entries ← place.readDir
      return some (.directory
        (← entries.toList.mapM fun e => return (e.fileName, ← entryTree follow depth e)))

/-- The text of a file. Only files whose paths are texts can be opened. -/
def readAt (path : Raw) : IO (Except ReadFailure String) := do
  match path.text? with
  | none => return .error .missing
  | some path =>
    match ← (IO.FS.readFile path).toBaseIO with
    | .ok text => return .ok text
    | .error (.noFileOrDirectory ..) => return .error .missing
    | .error _ => return .error .unreadable

/-- The directory of a user's settings. -/
def userDirectory? : IO (Option String) := do
  match ← IO.getEnv "XDG_CONFIG_HOME" with
  | some path => if path.startsWith "/" then return some (entryText path "schematron")
  | none => pure ()
  return (← IO.getEnv "HOME").map fun home => entryText (entryText home ".config") "schematron"

def environment : IO Config.Environment := do
  let found ← Config.Environment.keys.filterMapM fun key => do
    return (← IO.getEnv key).map (key, ·)
  return fun key => found.lookup key

/-- The machine at hand. It has no network: what is remote gives no answer. -/
def machine : IO (Command.Machine IO) := do
  return {
    host := ⟨treeAt, readAt⟩
    network := ⟨fun _ => return .none, fun _ => return ()⟩
    clock := return (← IO.monoNanosNow) / 1000
    date := do
      let now ← Std.Time.Timestamp.now
      return Rendering.moment now.toSecondsSinceUnixEpoch.val.toNat
    environment := ← environment
    configDirectories := "." :: (← userDirectory?).toList
    colored := ← (← IO.getStdout).isTty }

end Schematron.Main

open Schematron in
def main (args : List String) : IO UInt32 := do
  let outcome ← Command.run (← Main.machine) args
  IO.print outcome.output
  if let some message := outcome.error then IO.eprintln message
  return outcome.code.toUInt32
