import Schematron.Xml.Lexical

/-!
References, and the entities that a document declares. The text of an entity is read at each reference
to it, and may refer to others.
-/

namespace Schematron.Xml.Expanding

open Schematron.Xml.Reader Schematron.Reader

/-- The texts of entities. Of two with one name the first one counts. -/
abbrev Entities := List (String × List Char)

inductive Reference where
  | char (c : Char)
  | entity (name : String)

/-- The character of a number. One that is no character's stands for the replacement character. -/
def numberedChar? (n : Nat) : Option Char :=
  if n < Nat.pow 2 32 then
    let c := (Text.charOf? n).getD (Char.ofNat 0xFFFD)
    if isXmlChar c then some c else none
  else none

/-- A reference, from its ampersand to its semicolon. -/
def reference : Reader Reference := do
  word ['&']
  match ← get with
  | '#' :: rest =>
    set rest
    match (referenceNumber? (← upTo [';'])).bind numberedChar? with
    | some c => return .char c
    | none => failure
  | _ =>
    let entity ← name
    word [';']
    match predefined? entity with
    | some c => return .char c
    | none => return .entity entity

/-- How deep entities may be nested. -/
def nestingLimit : Nat := 10

/-- How many references may be met while that in the document itself is followed. -/
def referenceLimit : Nat := 255

/-- The number of references met, after one more; `deep` tells that it is in the text of an entity. -/
def counted (deep : Bool) (met : Nat) : Option Nat :=
  if !deep then some met else if met < referenceLimit then some (met + 1) else none

/-- White space in an attribute value is a space. -/
def valueChar (c : Char) : Char := if isSpace c then ' ' else c

/-- What the text of an attribute stands for, where `expand` tells that of an entity's text. A character that the
document itself gives by a reference stays as it is; in the text of an entity it may not be the angle bracket. -/
def attributeRun (entities : Entities) (expand : Nat → List Char → Option (List Char × Nat)) (deep : Bool)
    (met : Nat) (cs : List Char) : Option (List Char × Nat) :=
  match cs with
  | [] => some ([], met)
  | '\r' :: '\n' :: rest => attributeRun entities expand deep met ('\n' :: rest)
  | '&' :: rest =>
    match reference ('&' :: rest) with
    | none => none
    | some (r, after) =>
      if after.length ≤ rest.length then
        match r with
        | .char c =>
          if deep && c = '<' then none
          else
            (attributeRun entities expand deep met after).map fun (more, met) =>
              ((if deep then valueChar c else c) :: more, met)
        | .entity name => do
          let (front, met) ← expand (← counted deep met) (← entities.lookup name)
          let (back, met) ← attributeRun entities expand deep (if deep then met else 0) after
          return (front ++ back, met)
      else none
  | c :: rest =>
    (attributeRun entities expand deep met rest).map fun (more, met) => (valueChar c :: more, met)
termination_by cs.length

/-- The same, where entities may be nested to a depth of `fuel`. -/
def attributeText (entities : Entities) (fuel : Nat) : Bool → Nat → List Char → Option (List Char × Nat) :=
  match fuel with
  | 0 => attributeRun entities fun _ _ => none
  | n + 1 => attributeRun entities (attributeText entities n true)

/-- The characters of a text so far, the last one first, with one more. Each line end becomes one line
feed; `last` tells that nothing follows. -/
def addChar (text : List Char) (c : Char) (last : Bool) : List Char :=
  match text with
  | '\r' :: before =>
    if last && c = '\r' then '\n' :: '\n' :: before
    else if c = '\n' then '\n' :: before
    else c :: '\n' :: before
  | _ => if last && c = '\r' then '\n' :: text else c :: text

end Schematron.Xml.Expanding
