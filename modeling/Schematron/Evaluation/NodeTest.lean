import Schematron.Evaluation.Setting

namespace Schematron.Evaluation

open Schematron.Xml
open Schematron.XPath (Axis NodeTest)

/-- The name by which a node is tested; text, comments and the root have none. -/
def testedName : View → Option Name
  | .element e => some e.name
  | .attribute _ a => some a.name
  | .binding p _ => some ⟨none, p⟩
  | .instruction target _ => some ⟨none, target⟩
  | .root | .text _ | .comment _ => none

/-- Whether a node is of the kind that names on an axis select. -/
def isPrincipal (axis : Axis) (v : View) : Bool :=
  match axis, v with
  | .attributes, .attribute _ _ => true
  | .attributes, _ => false
  | .namespaces, .binding _ _ => true
  | .namespaces, _ => false
  | _, .element _ => true
  | _, _ => false

def inNamespace (s : Setting) (nsPrefix : String) (name : Name) : Except Fault Bool :=
  match s.namespace? nsPrefix with
  | none => .error (.brokenTest nsPrefix)
  | some uri => .ok (name.uri == some uri)

/-- A name without a prefix is in no namespace. -/
def hasName (s : Setting) (wanted : String) (name : Name) : Except Fault Bool :=
  match splitName wanted with
  | ⟨none, l⟩ => .ok (name.uri.isNone && name.localPart == l)
  | ⟨some p, l⟩ => return (← inNamespace s p name) && name.localPart == l

/-- Whether a node on an axis passes a test. -/
def passes (s : Setting) (axis : Axis) (test : NodeTest) (v : View) : Except Fault Bool :=
  let ofPrincipal (check : Name → Except Fault Bool) : Except Fault Bool :=
    match isPrincipal axis v, testedName v with
    | true, some name => check name
    | _, _ => .ok false
  match test, v with
  | .node, _ => .ok true
  | .text, .text _ => .ok true
  | .comment, .comment _ => .ok true
  | .instruction none, .instruction _ _ => .ok true
  | .instruction (some target), .instruction t _ => .ok (t == target)
  | .wildcard, _ => ofPrincipal fun _ => .ok true
  | .wildcardIn p, _ => ofPrincipal (inNamespace s p)
  | .name n, _ => ofPrincipal (hasName s n)
  | _, _ => .ok false

end Schematron.Evaluation
