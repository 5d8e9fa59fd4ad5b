import Schematron.Xml.Build
import Schematron.Xml.Lexical

/-!
Documents as they are validated. Only references are replaced, and each run of characters, each
reference and each character section is a text of its own.
-/

namespace Schematron.Xml.Instance

open Schematron.Xml.Reader Schematron.Reader

def qName : Reader QName := do
  let first ← ncName
  match ← attempt (do word [':']; ncName) with
  | some second => return ⟨some first, second⟩
  | none => return ⟨none, first⟩

/-- The attributes of a tag up to its end, and whether it closes itself. `value` reads an attribute
value up to its quote. -/
def attributes (value : Char → Reader String) (cs : List Char) :
    Option ((List (QName × String) × Bool) × List Char) :=
  let rest := cs.dropWhile isSpace
  match rest with
  | '>' :: after => some (([], false), after)
  | '/' :: '>' :: after => some (([], true), after)
  | _ =>
    if rest.length < cs.length then
      match (do let name ← qName; equals; let q ← quote; return (name, ← value q) : Reader _) rest with
      | none => none
      | some (entry, after) =>
        if after.length < cs.length then
          (attributes value after).map fun ((more, closed), last) => ((entry :: more, closed), last)
        else none
    else none
termination_by cs.length

/-- A tag that opens an element, behind its bracket. One that closes itself is two events. -/
def startTag (value : Char → Reader String) : Reader (List Event) := do
  let tag ← qName
  let (attrs, closed) ← attributes value
  return if closed then [.start tag attrs, .finish tag] else [.start tag attrs]

/-- A tag that closes an element, behind its bracket and slash. -/
def endTag : Reader (List Event) := do
  let tag ← qName
  skipSpaces
  word ['>']
  return [.finish tag]

/-- The change in depth that events make. -/
def depthAfter (depth : Nat) (events : List Event) : Nat :=
  events.foldl (fun n e =>
    match e with
    | .start _ _ => n + 1
    | .finish _ => n - 1
    | _ => n) depth

/-- Pieces of content up to the end of the element that is open at depth one. -/
def untilClosed (piece : Reader (List Event)) (depth : Nat) (cs : List Char) :
    Option (List Event × List Char) :=
  if depth = 0 then some ([], cs)
  else
    match piece cs with
    | none => none
    | some (events, rest) =>
      if rest.length < cs.length then
        (untilClosed piece (depthAfter depth events) rest).map fun (more, last) => (events ++ more, last)
      else none
termination_by cs.length

/-- The character that a reference stands for; there are no other entities than the predefined. -/
def reference : Reader Char := do
  word ['&']
  match ← upTo [';'] with
  | '#' :: body => (referenceNumber? body).bind Text.charOf?
  | name => predefined? (String.ofList name)

/-- An attribute value. Only references in it are replaced. -/
def valueUpTo (quote : Char) (cs : List Char) : Option (List Char × List Char) :=
  match cs with
  | [] => none
  | '<' :: _ => none
  | '&' :: rest =>
    match reference ('&' :: rest) with
    | none => none
    | some (c, after) =>
      if after.length < rest.length then
        (valueUpTo quote after).map fun (more, last) => (c :: more, last)
      else none
  | c :: rest =>
    if c = quote then some ([], rest)
    else (valueUpTo quote rest).map fun (more, last) => (c :: more, last)
termination_by cs.length

def value (quote : Char) : Reader String := do
  return String.ofList (← (valueUpTo quote : Reader _))

/-- Text up to markup, a reference or the end mark of a character section. -/
def plainText : List Char → List Char × List Char
  | [] => ([], [])
  | c :: rest =>
    if c = '<' ∨ c = '&' ∨ [']', ']', '>'].isPrefixOf (c :: rest) then ([], c :: rest)
    else
      let (more, last) := plainText rest
      (c :: more, last)

/-- Two hyphens end a comment. -/
def comment : Reader Event := do
  word ['<', '!', '-', '-']
  let body ← upTo ['-', '-']
  word ['>']
  return .comment (String.ofList body)

def instruction : Reader Event := do
  word ['<', '?']
  let target ← name
  if target.toLower = "xml" then failure
  if ← nextIs ['?', '>'] then
    word ['?', '>']
    return .instruction target none
  spaces
  return .instruction target (some (String.ofList (← upTo ['?', '>'])))

def piece : Reader (List Event) := do
  match ← get with
  | '<' :: '/' :: rest => set rest; endTag
  | '<' :: '!' :: '-' :: _ => return [← comment]
  | '<' :: '!' :: _ =>
    word "<![CDATA[".toList
    return [.text (String.ofList (← upTo [']', ']', '>']))]
  | '<' :: '?' :: _ => return [← instruction]
  | '<' :: rest => set rest; startTag value
  | '&' :: _ => return [.text (String.singleton (← reference))]
  | cs =>
    match plainText cs with
    | ([], _) => failure
    | (run, rest) => set rest; return [.text (String.ofList run)]

def versionNumber : Reader Unit := do
  word ['1', '.']
  match ← get with
  | c :: rest => if c.isDigit then set (rest.dropWhile Char.isDigit) else failure
  | [] => failure

def encodingName : Reader Unit := do
  match ← get with
  | c :: rest =>
    if c.isAlpha then set (rest.dropWhile fun c => c.isAlphanum || c = '.' || c = '_' || c = '-')
    else failure
  | [] => failure

def yesOrNo : Reader Unit := do
  match ← attempt (word "yes".toList) with
  | some _ => return ()
  | none => word "no".toList

/-- One entry of the declaration at the head of a document. -/
def setting (name : String) (content : Reader Unit) : Reader Unit := do
  spaces
  word name.toList
  equals
  let q ← quote
  content
  word [q]

def declaration : Reader Unit := do
  word "<?xml".toList
  setting "version" versionNumber
  let _ ← attempt (setting "encoding" encodingName)
  let _ ← attempt (setting "standalone" yesOrNo)
  skipSpaces
  word ['?', '>']

/-- A comment, an instruction or white space, the last of which leaves nothing. -/
def misc : Reader (List Event) := do
  match ← get with
  | '<' :: '!' :: _ => return [← comment]
  | '<' :: '?' :: _ => return [← instruction]
  | _ => spaces; return []

/-- The place of a text outside the document. -/
def externalId : Reader Unit := do
  spaces
  word "SYSTEM".toList
  spaces
  let q ← quote
  let body ← upTo [q]
  if body.isEmpty || body.any (fun c => c = '&' || c = '<') then failure

/-- A document type declaration, which is read over. -/
def doctype : Reader Unit := do
  word "<!DOCTYPE".toList
  spaces
  let _ ← name
  let _ ← attempt externalId
  skipSpaces
  let _ ← attempt do
    word ['[']
    let _ ← upTo [']']
    skipSpaces
  word ['>']

/-- What stands between the first thing in a document and its element. -/
def prologPiece : Reader (List Event) := do
  match ← get with
  | '<' :: '!' :: 'D' :: _ => doctype; return []
  | _ => misc

def manyOf (piece : Reader (List Event)) : Reader (List Event) := fun cs =>
  let (events, rest) := many piece cs
  some (events.flatten, rest)

def rootElement : Reader (List Event) := do
  word ['<']
  let events ← startTag value
  let more ← (untilClosed piece (depthAfter 0 events) : Reader _)
  return events ++ more

/-- A document type declaration may not be the very first thing in a document; behind that there may
be any number of them. -/
def events : Reader (List Event) := do
  let first ← (do
    match ← attempt declaration with
    | some _ => return some []
    | none => attempt misc)
  let before ← (do
    match first with
    | some found => return found ++ (← manyOf prologPiece)
    | none => return [])
  let root ← rootElement
  let after ← manyOf misc
  if (← get).isEmpty then return before ++ root ++ after else failure

def written (a b : QName) : Bool :=
  match a.nsPrefix, b.nsPrefix with
  | none, some _ => true
  | some _, none => false
  | some p, some q => p < q || (p = q && a.localPart ≤ b.localPart)
  | none, none => a.localPart ≤ b.localPart

/-- A namespace may not be empty where it has a prefix, and no name may be written twice. -/
def wellDeclared (e : Entries) : Bool :=
  (e.prefixes.map (·.1)).Nodup && e.prefixes.all (fun (_, uri) => !uri.isEmpty)
    && e.defaults.length ≤ 1 && (e.attributes.map (·.1)).Nodup

/-- The namespace of a prefix that the tag does not declare. -/
def inherited? (around : Scope) (p : String) : Option String :=
  if p = "xml" then some xmlNamespace else around.lookup (some p)

/-- The name of an element. A prefix has to be declared, at the top by the element itself. Declared as
empty, the default namespace is none, but only for the element itself. -/
def elementName? (around : Option Scope) (tag : QName) (e : Entries) : Option Name :=
  match tag.nsPrefix, e.defaults with
  | some p, _ =>
    (e.prefixes.lookup p <|> around.bind (inherited? · p)).map fun uri => ⟨some uri, tag.localPart⟩
  | none, uri :: _ => some ⟨if uri.isEmpty then none else some uri, tag.localPart⟩
  | none, [] => some ⟨around.bind (·.lookup none), tag.localPart⟩

/-- The attributes in the order of their prefixes and names, those without a prefix first. Of two that
mean the same name the later one stays. -/
def arrange (around : Scope) (e : Entries) : Option (List Attribute) := do
  let attributes ← (e.attributes.mergeSort fun a b => written a.1 b.1).mapM fun (name, value) =>
    match name.nsPrefix with
    | none => some (⟨⟨none, name.localPart⟩, none, value⟩ : Attribute)
    | some p => (e.prefixes.lookup p <|> inherited? around p).map fun uri =>
      ⟨⟨some uri, name.localPart⟩, p, value⟩
  return attributes.foldl (fun acc a => acc.filter (·.name ≠ a.name) ++ [a]) []

/-- An element. Only one without a prefix passes a default namespace on to its content. -/
def opened (around : Option Scope) (tag : QName) (e : Entries) : Option (Scope × Element Item) := do
  if !wellDeclared e then failure
  let name ← elementName? around tag e
  let attributes ← arrange (around.getD []) e
  let defaults := if tag.nsPrefix.isSome then [] else e.defaults.filter (!·.isEmpty)
  let scope := e.prefixes.map (fun (p, uri) => (some p, uri)) ++ defaults.map (none, ·) ++ around.getD []
  return (scope, ⟨name, tag.nsPrefix, e.prefixes, attributes, []⟩)

/-- Texts stay as they are read. -/
def assembly : Assembly := ⟨opened, false⟩

/-- The document that an instance text stands for. -/
def parse (text : String) : Option Document := do
  let (es, _) ← events text.toList
  assembly.document? es

end Schematron.Xml.Instance
