import Schematron.Files.Raw

/-!
Paths by their steps. `folded` gives every path a normal form without looking at any file.
-/

namespace Schematron.Files

inductive Step where
  /-- To the directory above. -/
  | up
  | name (n : Raw)
  deriving DecidableEq, Repr

structure Path where
  /-- The path starts at the root of the file system. -/
  rooted : Bool
  steps : List Step
  deriving DecidableEq, Repr

namespace Path

/-- Empty steps and single dots lead nowhere. -/
def stepOf? (piece : Raw) : Option Step :=
  if piece = .ofText "" ∨ piece = .ofText "." then none
  else if piece = .ofText ".." then some .up
  else some (.name piece)

def ofRaw (r : Raw) : Path := ⟨r.signs.head? = some (.char '/'), r.pieces.filterMap stepOf?⟩

def ofText (text : String) : Path := ofRaw text

def stepRaw : Step → Raw
  | .up => ".."
  | .name n => n

def toRaw (p : Path) : Raw :=
  ⟨(if p.rooted then [.char '/'] else []) ++ [.char '/'].intercalate (p.steps.map fun s => (stepRaw s).signs)⟩

def stepText (s : Step) : String := (stepRaw s).shown

/-- The text that is shown for a path. -/
def toText (p : Path) : String := p.toRaw.shown

/-- The path `p` as seen from `base`. -/
def join (base p : Path) : Path := if p.rooted then p else { base with steps := base.steps ++ p.steps }

/-- One step more on the way `done`; a step up takes a name back. -/
def foldStep (done : List Step) (s : Step) : List Step :=
  match s, done.getLast? with
  | .up, some (.name _) => done.dropLast
  | _, _ => done ++ [s]

/-- Each step up cancelled against the name before it. -/
def folded (p : Path) : Path := { p with steps := p.steps.foldl foldStep [] }

/-- The directory a file is in. A path without steps is in the current one. -/
def directory (p : Path) : Path := if p.steps.isEmpty then ⟨false, []⟩ else { p with steps := p.steps.dropLast }

/-- The last step, if it is a name. -/
def fileName? (p : Path) : Option Raw :=
  match p.steps.getLast? with
  | some (.name n) => some n
  | _ => none

/-- What follows the last dot of the file name, if it spells a text. A dot at its beginning is part of the name. -/
def extension? (p : Path) : Option String :=
  p.fileName?.bind fun name =>
    match name.signs.reverse.span (· ≠ .char '.') with
    | (tail, .char '.' :: stem) => if stem.isEmpty then none else Raw.text? ⟨tail.reverse⟩
    | _ => none

end Path

/-- The text of the path to an entry of a directory. -/
def entryText (directory name : String) : String :=
  if directory = "" ∨ directory.toList.getLast? = some '/' then directory ++ name
  else directory ++ "/" ++ name

end Schematron.Files
