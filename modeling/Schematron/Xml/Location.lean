import Schematron.Xml.Node

namespace Schematron.Xml

namespace Document

variable (d : Document)

/-- The place of a node in a list of nodes, counted from one. -/
def ordinal (n : Node) (nodes : List Node) : Nat := nodes.idxOf n + 1

def isElementNamed (name : Name) (n : Node) : Bool :=
  match d.view? n with
  | some (.element e) => e.name = name
  | _ => false

def isText (n : Node) : Bool :=
  match d.view? n with
  | some (.text _) => true
  | _ => false

def siblings (n : Node) : List Node := ((n.parent?).map d.childrenOf).getD []

/-- The last step of the path to a node. Only an element with namesakes beside it has an index; a text
always has one. -/
def locationStep (n : Node) : String :=
  match d.view? n with
  | some (.element e) =>
    let namesakes := (d.siblings n).filter (d.isElementNamed e.name)
    if namesakes.length > 1 then
      d.qualifiedName n ++ "[" ++ toString (ordinal n namesakes) ++ "]"
    else d.qualifiedName n
  | some (.attribute _ _) => "@" ++ d.qualifiedName n
  | some (.text _) =>
    "text()[" ++ toString (ordinal n ((d.siblings n).filter d.isText)) ++ "]"
  | some (.comment _) => "comment()"
  | some (.instruction _ _) => "processing-instruction()"
  | some (.binding _ _) => "namespace::*"
  | some .root | none => ""

/-- The nodes from below the root down to the item at a path. -/
def lineage (path : List Nat) : List Node :=
  (List.range path.length).map fun i => ⟨path.take (i + 1), .whole⟩

/-- The path to a node from the root, as it is shown in reports. -/
def location (n : Node) : String :=
  let passed := lineage n.path ++ if n.part = .whole then [] else [n]
  "/" ++ "/".intercalate (passed.map d.locationStep)

end Document

/-- Where a node is: child indices down from the root and, for an attribute, its index. -/
structure Address where
  path : List Nat
  attributeIndex : Option Nat
  deriving DecidableEq, Repr

namespace Address

/-- The child indices on the way up from a node, the lowest first. The way has at most `fuel` nodes. -/
def climb (d : Document) (n : Node) : Nat → List Nat
  | 0 => []
  | fuel + 1 =>
    match n.parent? with
    | none => []
    | some p => ((d.childrenOf p).idxOf? n).getD 0 :: climb d p fuel

/-- The address of a node, found by counting the siblings before it at each level. -/
def ofNode (d : Document) (n : Node) : Address :=
  match n.part, n.parent? with
  | .attribute _, some owner =>
    ⟨(climb d owner (owner.path.length + 1)).reverse, (d.attributesOf owner).idxOf? n⟩
  | _, _ => ⟨(climb d n (n.path.length + 1)).reverse, none⟩

def descend (d : Document) : Node → List Nat → Option Node
  | n, [] => some n
  | n, i :: rest => (d.childrenOf n)[i]?.bind (descend d · rest)

/-- The node at an address in the document that `anchor` is in. -/
def resolveFrom (d : Document) (anchor : Node) (a : Address) : Option Node :=
  match descend d anchor.top a.path, a.attributeIndex with
  | some n, some i => (d.attributesOf n)[i]?
  | found, none => found
  | none, _ => none

/-- The node at an address. -/
def resolve (d : Document) (a : Address) : Option Node := a.resolveFrom d Node.root

end Address

end Schematron.Xml
