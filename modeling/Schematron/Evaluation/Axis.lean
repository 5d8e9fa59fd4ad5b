import Schematron.Xml.Node
import Schematron.XPath.Expr

/-!
The nodes on each axis, in the order in which predicates count them: away from the context node.
-/

namespace Schematron.Evaluation

open Schematron.Xml
open Schematron.XPath (Axis)

mutual
/-- The nodes below an item at a path, in document order. -/
def nodesBelow (path : List Nat) : Item → List Node
  | .element ⟨_, _, _, _, children⟩ => nodesBelowFrom path 0 children
  | .text _ | .comment _ | .instruction _ _ => []

/-- The same for siblings, of which the first has the given index. -/
def nodesBelowFrom (path : List Nat) (index : Nat) : List Item → List Node
  | [] => []
  | item :: rest =>
    ⟨path ++ [index], .whole⟩ :: nodesBelow (path ++ [index]) item
      ++ nodesBelowFrom path (index + 1) rest
end

variable (d : Document)

def descendants (n : Node) : List Node :=
  match n.part with
  | .whole => nodesBelowFrom n.path 0 (d.contentAt n.path)
  | _ => []

/-- The nodes above, the nearest first. -/
def ancestors (n : Node) : List Node :=
  let above := (List.range n.path.length).reverse.map fun k => ⟨n.path.take k, .whole⟩
  if n.part = .whole then above else ⟨n.path, .whole⟩ :: above

def siblingsOf (n : Node) : List Node :=
  match n.part with
  | .whole => ((n.parent?).map d.childrenOf).getD []
  | _ => []

def followingSiblings (n : Node) : List Node := ((siblingsOf d n).dropWhile (· ≠ n)).drop 1

/-- The siblings before a node, the nearest first. -/
def precedingSiblings (n : Node) : List Node := ((siblingsOf d n).takeWhile (· ≠ n)).reverse

def following (n : Node) : List Node :=
  (n :: ancestors n).flatMap fun m =>
    (followingSiblings d m).flatMap fun s => s :: descendants d s

def preceding (n : Node) : List Node :=
  (n :: ancestors n).flatMap fun m =>
    (precedingSiblings d m).flatMap fun s => (s :: descendants d s).reverse

def axisNodes (n : Node) : Axis → List Node
  | .self => [n]
  | .child => d.childrenOf n
  | .parent => n.parent?.toList
  | .ancestor => ancestors n
  | .ancestorOrSelf => n :: ancestors n
  | .descendant => descendants d n
  | .descendantOrSelf => n :: descendants d n
  | .attributes => d.attributesOf n
  | .namespaces => d.bindingsOf n
  | .followingSibling => followingSiblings d n
  | .precedingSibling => precedingSiblings d n
  | .following => following d n
  | .preceding => preceding d n

end Schematron.Evaluation
