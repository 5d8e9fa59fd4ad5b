import Schematron.Xml.Build
import Schematron.Xml.Doctype

/-!
Documents in which entities are replaced by their texts, line ends are made one line feed each, and
texts that meet are one. This is how a schema is read.
-/

namespace Schematron.Xml.Expanding

open Schematron.Xml.Reader Schematron.Reader

/-- What has been read of a document. -/
structure Course where
  /-- The last one first. -/
  events : List Event
  /-- The attributes of tags that the texts of entities leave without an end. They go to the next tag
  that has one, where they are dropped if it closes an element. -/
  pending : List (QName × String)
  /-- The references met since one in the document itself has been followed. -/
  met : Nat
  /-- One more than the elements that are open in the text that is read. -/
  depth : Nat
  /-- There has been a start tag in the text that is read. -/
  tagged : Bool

/-- The text that is read: the document itself or, if it is `deep`, that of an entity. -/
structure Place where
  entities : Entities
  /-- How deep entities may be nested in the text. -/
  fuel : Nat
  deep : Bool
  /-- Reads on with the text of an entity. -/
  expand : Course → List Char → Option Course

namespace Course

def initial : Course := ⟨[], [], 0, 0, false⟩

def add (c : Course) (e : Event) : Course := { c with events := e :: c.events }

/-- A text, its last character first. No characters are no text. -/
def addText (c : Course) (text : List Char) : Course :=
  if text.isEmpty then c else c.add (.text (String.ofList text.reverse))

end Course

namespace Place

/-- The values that attributes stand for, and the references met. -/
def values (p : Place) (met : Nat) : List (QName × List Char) → Option (List (QName × String) × Nat)
  | [] => some ([], met)
  | (name, text) :: rest => do
    let (value, met) ← attributeText p.entities p.fuel p.deep met text
    let (more, met) ← values p met rest
    return ((name, String.ofList value) :: more, met)

def addTag (p : Place) (c : Course) (tag : Tag) : Option Course := do
  let (own, met) ← p.values c.met tag.entries
  let entries := c.pending ++ own
  let c := { c with met, tagged := true }
  match tag.closing with
  | .cut => return { c with pending := entries }
  | .empty => return { (c.add (.start tag.name entries)).add (.finish tag.name) with pending := [] }
  | .opening => return { c.add (.start tag.name entries) with pending := [], depth := c.depth + 1 }

/-- A closing tag. The text of an entity does not begin with one. -/
def addEnd (c : Course) (tag : QName) : Option Course :=
  if c.tagged then
    let c := if c.pending.isEmpty then c else { c.add (.stray c.pending) with pending := [] }
    some { c.add (.finish tag) with depth := c.depth - 1 }
  else none

/-- Reads on with the text of an entity, as a text of its own. -/
def addEntity (p : Place) (c : Course) (name : String) : Option Course := do
  let text ← p.entities.lookup name
  let met ← counted p.deep c.met
  let after ← p.expand { c with met, depth := 1, tagged := false } text
  return { after with
    met := if p.deep then after.met else 0
    depth := c.depth
    tagged := c.tagged }

/-- A run of characters and references behind those in `text`. A character that the document itself
gives by a reference stays as it is, and so does, `asIs`, the one behind it. -/
def addRun (p : Place) (asIs : Bool) (text : List Char) (c : Course) (cs : List Char) : Option Course :=
  match cs with
  | [] => some (c.addText text)
  | '&' :: rest =>
    match reference ('&' :: rest) with
    | none => none
    | some (r, after) =>
      if after.length ≤ rest.length then
        match r with
        | .char x =>
          if p.deep then addRun p false (addChar text x after.isEmpty) c after
          else addRun p true (x :: text) c after
        | .entity name =>
          match p.addEntity (c.addText text) name with
          | some c => addRun p false [] c after
          | none => none
      else none
  | x :: rest => addRun p false (if asIs then x :: text else addChar text x rest.isEmpty) c rest
termination_by cs.length

/-- A character section, in which nothing but line ends is replaced. -/
def characterSection : Reader Event := do
  word "<![CDATA[".toList
  let body ← upTo [']', ']', '>']
  if !body.all isXmlChar then failure
  let ends := body.zipIdx.foldl (fun text (c, i) => addChar text c (i + 1 == body.length)) []
  return .text (String.ofList ends.reverse)

/-- The next piece of content. -/
def piece (p : Place) (c : Course) : Reader Course := do
  match ← get with
  | '<' :: '/' :: _ => addEnd c (← endTag)
  | '<' :: '!' :: '-' :: _ => return c.add (← comment)
  | '<' :: '!' :: _ => return c.add (← characterSection)
  | '<' :: '?' :: _ => return c.add (← instruction)
  | '<' :: _ => p.addTag c (← startTag)
  | cs =>
    let run := cs.takeWhile (· ≠ '<')
    set (cs.dropWhile (· ≠ '<'))
    if !run.all isXmlChar || (cut [']', ']', '>'] run).isSome then failure
    p.addRun false [] c run

/-- Content up to the end of the text, or of the element that is open in front of it. -/
def content (p : Place) (c : Course) (cs : List Char) : Option (Course × List Char) :=
  match cs, c.depth with
  | [], _ => some (c, [])
  | cs, 0 => some (c, cs)
  | cs, _ + 1 =>
    match piece p c cs with
    | none => none
    | some (c, rest) => if rest.length < cs.length then content p c rest else none
termination_by cs.length

end Place

/-- Reads on with the text of an entity, in which entities may be nested to a depth of `fuel`. What is
left behind the end of an element around is not read. -/
def expand (entities : Entities) (fuel : Nat) (c : Course) (text : List Char) : Option Course :=
  match fuel with
  | 0 => none
  | n + 1 => ((⟨entities, n, true, expand entities n⟩ : Place).content c text).map (·.1)

/-- The element of a document. -/
def rootElement (entities : Entities) : Reader (List Event) := do
  let place : Place := ⟨entities, nestingLimit, false, expand entities nestingLimit⟩
  let c ← place.addTag .initial (← startTag)
  let c ← (place.content c : Reader Course)
  return c.events.reverse

def events : Reader (List Event) := do
  if ← nextIs declarationHead then declaration
  let before ← miscs
  let entities ← (do if ← nextIs "<!DOCTYPE".toList then doctype else return [])
  let between ← miscs
  let root ← (do if ← nextIs ['<'] then rootElement entities else return [])
  let after ← miscs
  if (← get).isEmpty then return before ++ between ++ root ++ after else failure

def declarationNamespace : String := "http://www.w3.org/2000/xmlns/"

/-- A prefix is declared once in a tag, and those built in keep their meaning. -/
def Entries.wellDeclared (e : Entries) : Bool :=
  (e.prefixes.all fun (p, uri) => uri ≠ declarationNamespace && ((p = "xml") = (uri = xmlNamespace)))
    && e.defaults.all (fun uri => uri ≠ declarationNamespace && uri ≠ xmlNamespace)
    && ((e.prefixes.map (·.1)).filter (· ≠ "xml")).Nodup

/-- The name of an attribute. Without a prefix it is in no namespace. -/
def attributeName? (scope : Scope) (name : QName) : Option Name :=
  match name.nsPrefix with
  | none => some ⟨none, name.localPart⟩
  | some "xml" => some ⟨some xmlNamespace, name.localPart⟩
  | some p => (scope.lookup (some p)).map fun uri => ⟨some uri, name.localPart⟩

/-- An element. Its prefix has to be declared; of the attributes no two may mean the same name. -/
def opened (around : Option Scope) (tag : QName) (entries : Entries) : Option (Scope × Element Item) := do
  if !Entries.wellDeclared entries then failure
  let prefixes := entries.prefixes.filter (·.1 ≠ "xml")
  let scope : Scope := prefixes.map (fun (p, uri) => (some p, uri)) ++ entries.defaults.map (none, ·)
    ++ around.getD []
  let uri := scope.lookup tag.nsPrefix
  if tag.nsPrefix.isSome && uri.isNone then failure
  let attributes ← entries.attributes.mapM fun (name, value) => do
    return (⟨← attributeName? scope name, name.nsPrefix, value⟩ : Attribute)
  if !(attributes.map (·.name)).Nodup then failure
  return (scope, ⟨⟨uri, tag.localPart⟩, tag.nsPrefix, prefixes, attributes, []⟩)

/-- Texts that meet are one node. -/
def assembly : Assembly := ⟨opened, true⟩

/-- The document that a schema text stands for. A mark of the byte order in front is dropped. -/
def parse (text : String) : Option Document := do
  let cs :=
    match text.toList with
    | c :: rest => if c = Char.ofNat 0xFEFF then rest else c :: rest
    | [] => []
  let (es, _) ← events cs
  assembly.document? es

end Schematron.Xml.Expanding
