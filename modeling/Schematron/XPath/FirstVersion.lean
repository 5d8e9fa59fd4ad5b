import Schematron.Text.Blank
import Schematron.XPath.Grammar
import Schematron.XPath.Printer

namespace Schematron.XPath

/-- An expression in the first version of the language. -/
structure FirstVersion where
  text : String
  /-- The expression was written in a later version. -/
  changed : Bool
  deriving DecidableEq, Repr

/-- A parsed source in the first version of the language: the source itself, without the white space
around it, where nothing of it has to change. -/
def Parsed.firstVersion (p : Parsed) (source : String) : FirstVersion :=
  if p.laterSyntax || saysMore true p.expr then ⟨emit true p.expr, true⟩
  else ⟨Text.trim source, false⟩

def firstVersion (source : String) : Except ParseError FirstVersion :=
  return (← parse source).firstVersion source

mutual
/-- The selection, from the root of a document, of all nodes that a pattern matches: every relative
path in it may begin at any depth. -/
def anchor : Expr → Expr
  | .union a b => .union (anchor a) (anchor b)
  | .group e => .group (anchor e)
  | .sequence items => .sequence (anchorAll items)
  | .relative steps => .absolute (.descendantOrSelf :: steps)
  | e => e

def anchorAll : List Expr → List Expr
  | [] => []
  | e :: es => anchor e :: anchorAll es
end

end Schematron.XPath
