import Schematron.Schema.Error
import Schematron.Schema.Model
import Schematron.Text.Blank
import Schematron.Xml.Expanding

namespace Schematron.Schema

open Xml (Element Item)

namespace Reader

abbrev Result (α : Type) := Except SchemaError α

def malformed {α : Type} (reason : String) : Result α := .error (.malformed reason)

def attribute? (e : Element Item) (name : String) : Option String :=
  (e.attributes.find? (·.name = ⟨none, name⟩)).map (·.value)

def required (e : Element Item) (name : String) : Result String :=
  match attribute? e name with
  | some v => .ok v
  | none =>
    malformed ("<" ++ e.name.localPart ++ "> is missing required attribute '" ++ name ++ "'")

def isTrue (value : Option String) : Bool :=
  match value.map Text.trim with
  | some v => v = "true" || v = "1"
  | none => false

/-- The elements of the namespace `ns` right below an element. All else there is not looked at. -/
def childrenIn (ns : String) (e : Element Item) : List (Element Item) :=
  e.children.filterMap fun
    | .element c => if c.name.uri = some ns then some c else none
    | _ => none

def titleText (e : Element Item) : String := Text.normalizeBlanks (Item.textOfAll e.children)

def letBinding (e : Element Item) : Result Let := return ⟨← required e "name", ← required e "value"⟩

mutual
/-- The parts of a message in the content of its element. Markup of no meaning to a message adds its
own content. -/
def messageParts (ns : String) : List Item → Message
  | [] => []
  | i :: rest => messagePart ns i ++ messageParts ns rest

def messagePart (ns : String) : Item → Message
  | .text s => [.text s]
  | .comment _ | .instruction _ _ => []
  | .element ⟨name, nsPrefix, declared, attributes, children⟩ =>
    let e : Element Item := ⟨name, nsPrefix, declared, attributes, children⟩
    if name = ⟨some ns, "value-of"⟩ then ((attribute? e "select").map .valueOf).toList
    else if name = ⟨some ns, "name"⟩ then
      [.name ("name(" ++ (attribute? e "path").getD "." ++ ")")]
    else messageParts ns children
end

def message (ns : String) (e : Element Item) : Message := messageParts ns e.children

def assertion (ns : String) (e : Element Item) (kind : AssertionKind) : Result Assertion :=
  return {
    id := attribute? e "id"
    kind
    test := ← required e "test"
    message := message ns e
    diagnostics := ((attribute? e "diagnostics").map Text.words).getD []
    role := attribute? e "role"
    flag := attribute? e "flag"
    subject := attribute? e "subject"
    icon := attribute? e "icon" }

def rulePart (ns : String) (r : Rule) (e : Element Item) : Result Rule :=
  match e.name.localPart with
  | "let" => return { r with lets := r.lets ++ [← letBinding e] }
  | "extends" => return { r with bases := r.bases ++ [← required e "rule"] }
  | "assert" => return { r with assertions := r.assertions ++ [← assertion ns e .assert] }
  | "report" => return { r with assertions := r.assertions ++ [← assertion ns e .report] }
  | _ => .ok r

def rule (ns : String) (e : Element Item) : Result Rule := do
  let isAbstract := isTrue (attribute? e "abstract")
  let context ←
    match attribute? e "context" with
    | some c => pure c
    | none => if isAbstract then pure "" else malformed "concrete <rule> requires a context"
  let id := attribute? e "id"
  if isAbstract && id.isNone then malformed "abstract <rule> requires an id"
  (childrenIn ns e).foldlM (rulePart ns) ⟨id, context, isAbstract, [], [], []⟩

def patternPart (ns : String) (p : Pattern) (e : Element Item) : Result Pattern :=
  match e.name.localPart with
  | "title" => return { p with title := some (titleText e) }
  | "param" =>
    return { p with parameters := p.parameters.insert (← required e "name") (← required e "value") }
  | "let" => return { p with lets := p.lets ++ [← letBinding e] }
  | "rule" => return { p with rules := p.rules ++ [← rule ns e] }
  | _ => .ok p

def pattern (ns : String) (e : Element Item) : Result Pattern := do
  let start : Pattern := {
    id := attribute? e "id"
    title := attribute? e "name"
    isAbstract := isTrue (attribute? e "abstract")
    base := attribute? e "is-a"
    parameters := []
    lets := []
    rules := [] }
  let p ← (childrenIn ns e).foldlM (patternPart ns) start
  if p.isAbstract && p.id.isNone then malformed "abstract <pattern> requires an id"
  if p.base.isSome && !p.rules.isEmpty then
    malformed ("pattern '" ++ p.idOrEmpty
      ++ "' instantiates an abstract pattern and may not declare rules")
  return p

def phasePart (p : Phase) (e : Element Item) : Result Phase :=
  match e.name.localPart with
  | "active" => return { p with active := p.active ++ [← required e "pattern"] }
  | "let" => return { p with lets := p.lets ++ [← letBinding e] }
  | _ => .ok p

def phase (ns : String) (e : Element Item) : Result Phase := do
  (childrenIn ns e).foldlM phasePart ⟨← required e "id", [], []⟩

def diagnostic (ns : String) (found : Table Message) (e : Element Item) : Result (Table Message) :=
  if e.name.localPart = "diagnostic" then return found.insert (← required e "id") (message ns e)
  else .ok found

def schemaPart (ns : String) (d : Document) (e : Element Item) : Result Document :=
  match e.name.localPart with
  | "title" => return { d with title := some (titleText e) }
  | "ns" =>
    return { d with namespaces := d.namespaces ++ [⟨← required e "prefix", ← required e "uri"⟩] }
  | "let" => return { d with lets := d.lets ++ [← letBinding e] }
  | "phase" => do
    let p ← phase ns e
    return { d with phases := d.phases.insert p.id p }
  | "pattern" => return { d with patterns := d.patterns ++ [← pattern ns e] }
  | "diagnostics" =>
    return { d with diagnostics := ← (childrenIn ns e).foldlM (diagnostic ns) d.diagnostics }
  | _ => .ok d

/-- The schema that an element of the namespace `ns` holds. -/
def schema (ns : String) (e : Element Item) : Result Document :=
  (childrenIn ns e).foldlM (schemaPart ns) {
    Document.empty with
    id := attribute? e "id"
    schemaVersion := attribute? e "schemaVersion"
    queryBinding := attribute? e "queryBinding"
    defaultPhase := attribute? e "defaultPhase" }

def rootElement? (d : Xml.Document) : Option (Element Item) :=
  d.content.findSome? fun
    | .element e => some e
    | _ => none

/-- The schema in a document. The namespace of its root tells the version of the vocabulary. -/
def ofDocument (d : Xml.Document) : Result Document :=
  match rootElement? d with
  | none => .error .illFormed
  | some e =>
    if e.name.uri = some isoNamespace ∨ e.name.uri = some earlyNamespace then
      if e.name.localPart = "schema" then schema (e.name.uri.getD "") e
      else malformed ("root element must be 'schema', found '" ++ e.name.localPart ++ "'")
    else
      malformed ("root element \x7b" ++ e.name.uri.getD "" ++ "\x7d" ++ e.name.localPart
        ++ " is not a Schematron schema")

end Reader

/-- Reads a schema from its text. -/
def parse (text : String) : Except SchemaError Document :=
  match Xml.Expanding.parse text with
  | none => .error .illFormed
  | some d => Reader.ofDocument d

end Schematron.Schema
