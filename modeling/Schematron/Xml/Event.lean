import Schematron.Xml.Tree

namespace Schematron.Xml

/-- A piece of markup, or the text between two. -/
inductive Event where
  | start (tag : QName) (attributes : List (QName × String))
  | finish (tag : QName)
  /-- Attributes of no element. They are fit for the one that is open. -/
  | stray (attributes : List (QName × String))
  | text (s : String)
  | comment (s : String)
  | instruction (target : String) (value : Option String)
  deriving DecidableEq, Repr

end Schematron.Xml
