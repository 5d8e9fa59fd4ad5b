import Schematron.Xml.Event
import Schematron.Xml.Lexical

/-!
Comments, instructions and tags, as they are written in a schema.
-/

namespace Schematron.Xml.Expanding

open Schematron.Xml.Reader Schematron.Reader

/-- Characters that a document may hold, as a text. -/
def textOf? (cs : List Char) : Option String :=
  if cs.all isXmlChar then some (String.ofList cs) else none

/-- Two hyphens end a comment. -/
def comment : Reader Event := do
  word ['<', '!', '-', '-']
  let body ← upTo ['-', '-']
  word ['>']
  return .comment (← textOf? body)

/-- The head of a declaration, which no instruction has. -/
def declarationHead : List Char := "<?xml ".toList

def instruction : Reader Event := do
  if ← nextIs declarationHead then failure
  word ['<', '?']
  let target ← name
  skipSpaces
  match ← upTo ['?', '>'] with
  | [] => return .instruction target none
  | body => return .instruction target (some (← textOf? body))

/-- A name with at most one colon. Nothing in front of the colon is no prefix. -/
def qName : Reader QName := do
  let isPart := fun c => isNameChar c || c = ':'
  let run := (← get).takeWhile isPart
  modify (·.dropWhile isPart)
  let isNcName := fun (cs : List Char) => (cs.head?.map isNameStart).getD false
  match run.takeWhile (· ≠ ':'), run.dropWhile (· ≠ ':') with
  | localPart, [] => if isNcName localPart then return ⟨none, String.ofList localPart⟩ else failure
  | nsPrefix, _ :: localPart =>
    if localPart.contains ':' || !isNcName localPart then failure
    else if nsPrefix.isEmpty then return ⟨none, String.ofList localPart⟩
    else if isNcName nsPrefix then return ⟨some (String.ofList nsPrefix), String.ofList localPart⟩
    else failure

/-- An attribute with its text as it stands between the quotes. -/
def entry : Reader (QName × List Char) := do
  let entry ← qName
  equals
  let q ← quote
  let inside := fun c => c ≠ q && c ≠ '<'
  let body := (← get).takeWhile inside
  if !body.all isXmlChar then failure
  modify (·.dropWhile inside)
  word [q]
  return (entry, body)

/-- How a start tag ends. -/
inductive Closing where
  | opening
  | empty
  /-- The text ends before the tag. -/
  | cut
  deriving DecidableEq, Repr

structure Tag where
  name : QName
  entries : List (QName × List Char)
  closing : Closing

/-- The attributes of a tag, and its end. -/
def entries (cs : List Char) : Option ((List (QName × List Char) × Closing) × List Char) :=
  if cs.isEmpty then some (([], .cut), [])
  else
    let rest := cs.dropWhile isSpace
    match rest with
    | '>' :: after => some (([], .opening), after)
    | '/' :: '>' :: after => some (([], .empty), after)
    | _ =>
      if rest.length < cs.length then
        match entry rest with
        | none => none
        | some (e, after) =>
          if after.length < cs.length then
            (entries after).map fun ((more, closing), last) => ((e :: more, closing), last)
          else none
      else none
termination_by cs.length

def startTag : Reader Tag := do
  word ['<']
  let tag ← qName
  if tag.nsPrefix = some "xmlns" then failure
  let (entries, closing) ← entries
  return ⟨tag, entries, closing⟩

def endTag : Reader QName := do
  word ['<', '/']
  let tag ← qName
  skipSpaces
  word ['>']
  return tag

end Schematron.Xml.Expanding
