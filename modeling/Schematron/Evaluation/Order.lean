import Schematron.Xml.Node

/-!
The order of nodes in a document: a node comes before what is below it, and siblings come as they are
written. The attributes of one element come last to first, and namespaces behind all other nodes.
-/

namespace Schematron.Evaluation

open Schematron.Xml

def pathBefore : List Nat → List Nat → Bool
  | _, [] => false
  | [], _ :: _ => true
  | i :: p, j :: q => i < j || (i = j && pathBefore p q)

def partAtMost : Part → Part → Bool
  | .whole, _ => true
  | _, .whole => false
  | .attribute i, .attribute j => j ≤ i
  | .attribute _, .binding _ => true
  | .binding _, .attribute _ => false
  | .binding i, .binding j => i ≤ j

def isBinding (n : Node) : Bool :=
  match n.part with
  | .binding _ => true
  | _ => false

/-- Whether a node is the same as another or before it. -/
def atMost (a b : Node) : Bool :=
  if isBinding a = isBinding b then
    pathBefore a.path b.path || (a.path = b.path && partAtMost a.part b.part)
  else isBinding b

/-- Each of the neighbours that are equal dropped but for the last. -/
def dropRepeats : List Node → List Node
  | a :: b :: rest => if a = b then dropRepeats (b :: rest) else a :: dropRepeats (b :: rest)
  | nodes => nodes

/-- The nodes in document order, each once. -/
def inOrder (nodes : List Node) : List Node := dropRepeats (nodes.mergeSort atMost)

end Schematron.Evaluation
