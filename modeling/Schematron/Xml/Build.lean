import Schematron.Xml.Event
import Schematron.Xml.Node

namespace Schematron.Xml

/-- The namespaces in force, the nearest declaration first; no prefix is the default namespace. -/
abbrev Scope := List (Option String × String)

/-- The entries of a tag by what they are. -/
structure Entries where
  /-- Prefixes with their namespaces. -/
  prefixes : List (String × String)
  defaults : List String
  attributes : List (QName × String)

namespace Entries

def ofTag (entries : List (QName × String)) : Entries :=
  let isPrefix := fun (e : QName × String) => e.1.nsPrefix = some "xmlns"
  let isDefault := fun (e : QName × String) => e.1.localPart = "xmlns"
  let others := entries.filter (!isPrefix ·)
  { prefixes := (entries.filter (isPrefix ·)).map fun (name, uri) => (name.localPart, uri)
    defaults := (others.filter (isDefault ·)).map (·.2)
    attributes := others.filter (!isDefault ·) }

end Entries

/-- What the readers decide in their own ways. -/
structure Assembly where
  /-- The element that a tag opens, and the namespaces in force in it. There are none around the
  element at the top. -/
  opened : Option Scope → QName → Entries → Option (Scope × Element Item)
  /-- Adjacent texts are one node. -/
  merges : Bool

/-- An element whose end has not been met. -/
structure Open where
  tag : QName
  scope : Scope
  header : Element Item
  /-- The content so far, the last item first. -/
  content : List Item

namespace Assembly

/-- Content, the last item first, with one more text. -/
def addText (a : Assembly) (s : String) : List Item → List Item
  | .text t :: rest => if a.merges then .text (t ++ s) :: rest else .text s :: .text t :: rest
  | content => .text s :: content

/-- Content with an item behind it, where `opened` are the elements around, the innermost first, and
`top` the items at the top of the document, the last one first. -/
def addItem (item : Item) : List Open → List Item → List Open × List Item
  | [], top => ([], item :: top)
  | o :: more, top => ({ o with content := item :: o.content } :: more, top)

/-- The items that events stand for. -/
def build (a : Assembly) (opened : List Open) (top : List Item) : List Event → Option (List Item)
  | [] => if opened.isEmpty then some top.reverse else none
  | .start tag entries :: rest =>
    match a.opened (opened.head?.map (·.scope)) tag (.ofTag entries) with
    | some (scope, header) => build a (⟨tag, scope, header, []⟩ :: opened) top rest
    | none => none
  | .finish tag :: rest =>
    match opened with
    | [] => none
    | o :: more =>
      if o.tag = tag then
        let (opened, top) := addItem (.element { o.header with children := o.content.reverse }) more top
        build a opened top rest
      else none
  | .stray entries :: rest =>
    if (opened.head?.bind fun o => a.opened (some o.scope) o.tag (.ofTag entries)).isSome then
      build a opened top rest
    else none
  | .text s :: rest =>
    match opened with
    | [] => build a [] (a.addText s top) rest
    | o :: more => build a ({ o with content := a.addText s o.content } :: more) top rest
  | .comment s :: rest =>
    let (opened, top) := addItem (.comment s) opened top
    build a opened top rest
  | .instruction target value :: rest =>
    let (opened, top) := addItem (.instruction target value) opened top
    build a opened top rest

/-- The document that events stand for. It has an element at its top. -/
def document? (a : Assembly) (events : List Event) : Option Document := do
  let content ← a.build [] [] events
  if content.any Item.isElement then return ⟨content⟩ else none

end Assembly

end Schematron.Xml
