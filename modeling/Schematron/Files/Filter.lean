import Schematron.Files.Glob
import Schematron.Files.Path
import Schematron.Text.Case

namespace Schematron.Files

/-- Which files are taken, by their paths alone. -/
structure Filter where
  /-- In lower case and without the dot. -/
  extensions : List String
  /-- One of these patterns has to cover the path, where there are any. -/
  wanted : List Glob
  unwanted : List Glob

/-- What is wrong with patterns, and the list they stand in. -/
inductive BadPattern where
  | unreadable (list pattern : String) (error : GlobError)
  | tooDeep (list : String)
  deriving DecidableEq, Repr

def BadPattern.message : BadPattern → String
  | unreadable list pattern _ => "Invalid " ++ list ++ " pattern '" ++ pattern ++ "'"
  | tooDeep list => "Failed to build " ++ list ++ " set: error parsing pattern 0"

namespace Filter

def defaultExtensions : List String := ["xml"]

def parseGlobs (list : String) : List String → Except BadPattern (List Glob)
  | [] => .ok []
  | pattern :: rest =>
    match Glob.ofText pattern with
    | .ok g => (parseGlobs list rest).map (g :: ·)
    | .error e => .error (.unreadable list pattern e)

/-- Patterns are looked at one by one before they are put to use together. -/
def readGlobs (list : String) (patterns : List String) : Except BadPattern (List Glob) := do
  let globs ← parseGlobs list patterns
  if globs.any (·.isTooDeep) then throw (.tooDeep list)
  return globs

def withoutDots (extension : String) : String :=
  String.ofList (extension.toList.dropWhile (· = '.'))

def ofTexts (extensions wanted unwanted : List String) : Except BadPattern Filter := do
  return {
    extensions := extensions.map fun e => Text.lower (withoutDots e)
    wanted := ← readGlobs "include" wanted
    unwanted := ← readGlobs "exclude" unwanted }

def accepts (f : Filter) (path : String) : Bool :=
  match (Path.ofText path).extension? with
  | none => false
  | some e =>
    f.extensions.contains (Text.lower e)
      && (f.wanted.isEmpty || f.wanted.any (·.covers path))
      && !f.unwanted.any (·.covers path)

end Filter

end Schematron.Files
