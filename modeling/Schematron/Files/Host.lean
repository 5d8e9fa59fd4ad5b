import Schematron.Files.Tree

namespace Schematron.Files

inductive ReadFailure where
  /-- There is nothing at the path. -/
  | missing
  | unreadable
  deriving DecidableEq, Repr

/-- What is asked of a file system. -/
structure Host (m : Type → Type) where
  /-- The tree at a path, if there is one, at least so many directories down; `follow` tells whether
  links are followed. A link in the path itself always is. -/
  tree (follow : Bool) (depth : Option Nat) (path : String) : m (Option Tree)
  /-- The text of a file. -/
  read (path : Raw) : m (Except ReadFailure String)

end Schematron.Files
