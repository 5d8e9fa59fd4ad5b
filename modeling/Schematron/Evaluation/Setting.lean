import Schematron.Evaluation.Fault
import Schematron.Query.Language
import Schematron.Xml.Location

namespace Schematron.Evaluation

open Schematron.Xml

/-- What stays the same while an expression is evaluated. -/
structure Setting where
  document : Document
  language : Query.Language
  /-- Prefixes with their namespaces; of two entries for one prefix the later counts. -/
  prefixes : List (String × String)
  /-- Where the node is that the whole expression is evaluated at, if the expression asks for it. -/
  current : Option Address
  bindings : List (String × Value)

/-- The node an expression is evaluated at, and its place among the nodes looked at with it. -/
structure Focus where
  node : Node
  position : Nat
  size : Nat

/-- A name as it is written, taken apart at its colon. -/
def splitName (name : String) : QName :=
  match name.toList.span (· ≠ ':') with
  | (p, _ :: rest) => ⟨some (String.ofList p), String.ofList rest⟩
  | (_, []) => ⟨none, name⟩

namespace Setting

def namespace? (s : Setting) (nsPrefix : String) : Option String := s.prefixes.reverse.lookup nsPrefix

end Setting

end Schematron.Evaluation
