import Schematron.Xml.Entity
import Schematron.Xml.Markup

/-!
What stands in front of the element of a document: a declaration, and a document type with entities.
-/

namespace Schematron.Xml.Expanding

open Schematron.Xml.Reader Schematron.Reader

def quotedText : Reader (List Char) := do
  let q ← quote
  upTo [q]

/-- White space, which may be missing only where the declaration ends. -/
def settingEnd : Reader Unit := do
  if !(← nextIs ['?', '>']) && !(← get).isEmpty then spaces

/-- The declaration of the version, encoding and independence of a document. What they are set to does
not matter, nor what their names end in. -/
def declaration : Reader Unit := do
  if !(← nextIs declarationHead) then failure
  word "<?xml".toList
  spaces
  if !(← nextIs "version".toList) then failure
  let _ ← entry
  settingEnd
  if ← nextIs "encoding".toList then
    let _ ← entry
    settingEnd
  if ← nextIs "standalone".toList then
    let _ ← entry
  skipSpaces
  word ['?', '>']

/-- A comment, an instruction or white space, the last of which leaves nothing. -/
def misc : Reader (List Event) := do
  match ← get with
  | '<' :: '!' :: _ => return [← comment]
  | '<' :: _ => return [← instruction]
  | _ => spaces; return []

def miscs : Reader (List Event) := fun cs =>
  let (events, rest) := many misc cs
  some (events.flatten, rest)

/-- The place of a text outside the document. -/
def externalId : Reader Unit := do
  match ← attempt (word "SYSTEM".toList) with
  | some _ =>
    spaces
    let _ ← quotedText
  | none =>
    word "PUBLIC".toList
    spaces
    let _ ← quotedText
    spaces
    let _ ← quotedText

/-- The declaration of an entity; one of a parameter is like all others. A text outside the document
declares nothing. -/
def entityDeclaration : Reader Entities := do
  word "<!ENTITY".toList
  spaces
  let parameter ← attempt (do word ['%']; spaces)
  let entity ← name
  spaces
  let declared ← (do
    match ← attempt quotedText with
    | some text => return [(entity, text)]
    | none =>
      externalId
      if parameter.isNone then
        skipSpaces
        if ← nextIs "NDATA".toList then
          word "NDATA".toList
          spaces
          let _ ← name
      return [])
  skipSpaces
  word ['>']
  return declared

/-- A declaration that is read over, up to the first closing bracket. -/
def otherDeclaration : Reader Unit := do
  let heads := ["<!ELEMENT", "<!ATTLIST", "<!NOTATION"]
  let cs ← get
  if heads.any fun head => head.toList.isPrefixOf cs then
    let _ ← upTo ['>']
  else failure

def subsetPiece : Reader Entities := do
  match ← get with
  | '<' :: '!' :: '-' :: _ => let _ ← comment; return []
  | '<' :: '?' :: _ => let _ ← instruction; return []
  | '<' :: '!' :: 'E' :: 'N' :: _ => entityDeclaration
  | '<' :: _ => otherDeclaration; return []
  | _ => spaces; return []

/-- Declarations up to their closing bracket. -/
def subset : Reader Entities := do
  word ['[']
  let found ← (fun cs => some (many subsetPiece cs) : Reader (List Entities))
  word [']']
  skipSpaces
  return found.flatten

/-- A document type declaration, of which only the entities count. -/
def doctype : Reader Entities := do
  word "<!DOCTYPE".toList
  spaces
  let _ ← name
  skipSpaces
  if (← nextIs ['S']) || (← nextIs ['P']) then externalId
  skipSpaces
  let entities ← (do if ← nextIs ['['] then subset else return [])
  word ['>']
  return entities

end Schematron.Xml.Expanding
