import Schematron.Xml.Tree

namespace Schematron.Xml

/-- Which node of an item is meant. -/
inductive Part where
  | whole
  /-- An attribute of an element, by its index. -/
  | attribute (index : Nat)
  /-- A namespace that is in scope at an element, by its index. -/
  | binding (index : Nat)
  deriving DecidableEq, Repr

/-- A node of a document: the way down to an item, as the indices of the children to take, and the
part of the item that is meant. -/
structure Node where
  path : List Nat
  part : Part
  deriving DecidableEq, Repr

/-- A node by what it is. -/
inductive View where
  | root
  | element (e : Element Item)
  | attribute (owner : Element Item) (a : Attribute)
  | text (s : String)
  | comment (s : String)
  | instruction (target : String) (value : Option String)
  | binding (nsPrefix uri : String)

def xmlNamespace : String := "http://www.w3.org/XML/1998/namespace"

namespace Node

def root : Node := ⟨[], .whole⟩

/-- The node above; that of an attribute is its element. -/
def parent? (n : Node) : Option Node :=
  match n.part with
  | .whole => if n.path.isEmpty then none else some ⟨n.path.dropLast, .whole⟩
  | _ => some ⟨n.path, .whole⟩

def child (n : Node) (index : Nat) : Node := ⟨n.path ++ [index], .whole⟩

/-- The number of steps from a node up to the root. -/
def height (n : Node) : Nat := n.path.length + if n.part = .whole then 0 else 1

theorem height_lt_of_parent? {n p : Node} (h : n.parent? = some p) : p.height < n.height := by
  obtain ⟨path, part⟩ := n
  unfold parent? at h
  split at h
  · rename_i hpart
    split at h
    · cases h
    · rename_i hpath
      cases h
      have hlength : 0 < path.length := List.length_pos_iff.mpr (by simpa using hpath)
      simp only [show part = .whole from hpart, height, List.length_dropLast, if_true]
      omega
  · rename_i hpart
    cases h
    have hpart' : part ≠ .whole := hpart
    simp [height, hpart']

/-- The node that is reached by going up as far as there is a node above. -/
def top (n : Node) : Node :=
  match _h : n.parent? with
  | none => n
  | some p => p.top
termination_by n.height
decreasing_by exact height_lt_of_parent? _h

end Node

namespace Document

variable (d : Document)

/-- The items that a way down from `content` passes, the last one first. -/
def trailIn (content : List Item) : List Nat → Option (List Item)
  | [] => some []
  | i :: rest =>
    match content[i]? with
    | none => none
    | some item => (trailIn item.children rest).map (· ++ [item])

def item? (path : List Nat) : Option Item := (trailIn d.content path).bind List.head?

/-- The items directly below a path; the empty path is the document itself. -/
def contentAt (path : List Nat) : List Item :=
  match path with
  | [] => d.content
  | _ => ((d.item? path).map Item.children).getD []

/-- Prefixes that are in scope at an element with their namespaces, the nearest declaration of each. -/
def bindingsAt (path : List Nat) : List (String × String) :=
  let declared := ((trailIn d.content path).getD []).flatMap fun
    | .element e => e.declared
    | _ => []
  declared.foldl (fun acc (p, uri) => if acc.any (·.1 = p) then acc else acc ++ [(p, uri)])
    [("xml", xmlNamespace)]

/-- The prefix for a namespace at an element: one that the element declares for it, else one of the
nearest element around that does. Of several the preferred one is taken, else the first. That of the
namespace built in is fixed, and stands for no other. -/
def prefixOf? (path : List Nat) (preferred : Option String) (uri : String) : Option String :=
  if uri = xmlNamespace then some "xml"
  else
    ((trailIn d.content path).getD []).findSome? fun
      | .element e =>
        let found := e.declared.filterMap fun (p, u) => if u = uri && p ≠ "xml" then some p else none
        preferred.filter found.contains <|> found.head?
      | _ => none

def view? (n : Node) : Option View :=
  match n.part, n.path with
  | .whole, [] => some .root
  | _, [] => none
  | part, path =>
    match part, d.item? path with
    | .whole, some (.element e) => some (.element e)
    | .whole, some (.text s) => some (.text s)
    | .whole, some (.comment s) => some (.comment s)
    | .whole, some (.instruction t v) => some (.instruction t v)
    | .attribute i, some (.element e) => e.attributes[i]?.map (.attribute e)
    | .binding i, some (.element _) => (d.bindingsAt path)[i]?.map fun (p, uri) => .binding p uri
    | _, _ => none

/-- The children of a node. Attributes and namespaces are no children of their element. -/
def childrenOf (n : Node) : List Node :=
  match n.part with
  | .whole => (List.range (d.contentAt n.path).length).map n.child
  | _ => []

def attributesOf (n : Node) : List Node :=
  match d.view? n with
  | some (.element e) => (List.range e.attributes.length).map fun i => ⟨n.path, .attribute i⟩
  | _ => []

def bindingsOf (n : Node) : List Node :=
  match d.view? n with
  | some (.element _) => (List.range (d.bindingsAt n.path).length).map fun i => ⟨n.path, .binding i⟩
  | _ => []

/-- The string value of a node. -/
def stringValue (n : Node) : String :=
  match d.view? n with
  | some .root => Item.textOfAll d.content
  | some (.element e) => Item.textOfAll e.children
  | some (.attribute _ a) => a.value
  | some (.text s) | some (.comment s) => s
  | some (.instruction _ v) => v.getD ""
  | some (.binding _ uri) => uri
  | none => ""

/-- The name of an element or attribute as it would be written. -/
def qualifiedName (n : Node) : String :=
  let write (name : Name) (nsPrefix : Option String) : String :=
    match name.uri, nsPrefix with
    | some _, some p => p ++ ":" ++ name.localPart
    | _, _ => name.localPart
  match d.view? n with
  | some (.element e) => write e.name e.nsPrefix
  | some (.attribute _ a) => write a.name a.nsPrefix
  | _ => ""

end Document

end Schematron.Xml
