import Schematron.Text.Blank
import Schematron.Text.Digits
import Schematron.Text.Ranges
import Schematron.Text.Reader

namespace Schematron.Xml

/-- Code points that may begin a name without a colon. -/
def nameStartRanges : List (Nat × Nat) := [
  (0x41, 0x5A), (0x5F, 0x5F), (0x61, 0x7A), (0xC0, 0xD6), (0xD8, 0xF6), (0xF8, 0x2FF),
  (0x370, 0x37D), (0x37F, 0x1FFF), (0x200C, 0x200D), (0x2070, 0x218F), (0x2C00, 0x2FEF),
  (0x3001, 0xD7FF), (0xF900, 0xFDCF), (0xFDF0, 0xFFFD), (0x10000, 0xEFFFF)]

/-- Code points that a name may hold behind its first character. -/
def nameRestRanges : List (Nat × Nat) := [
  (0x2D, 0x2E), (0x30, 0x39), (0xB7, 0xB7), (0x300, 0x36F), (0x203F, 0x2040)]

/-- Code points that a document may hold. -/
def charRanges : List (Nat × Nat) := [
  (0x9, 0xA), (0xD, 0xD), (0x20, 0xD7FF), (0xE000, 0xFFFD), (0x10000, 0x10FFFF)]

def isNameStart (c : Char) : Bool := Text.inRanges nameStartRanges c.toNat

def isNameChar (c : Char) : Bool := isNameStart c || Text.inRanges nameRestRanges c.toNat

def isXmlChar (c : Char) : Bool := Text.inRanges charRanges c.toNat

def isSpace (c : Char) : Bool := c = ' ' || c = '\t' || c = '\n' || c = '\r'

namespace Reader

open Schematron.Reader

def skipSpaces : Reader Unit := modify (·.dropWhile isSpace)

def spaces : Reader Unit := do
  match ← get with
  | c :: rest => if isSpace c then set (rest.dropWhile isSpace) else failure
  | [] => failure

/-- A name without colons. -/
def ncName : Reader String := do
  match ← get with
  | c :: rest =>
    if isNameStart c then
      set (rest.dropWhile isNameChar)
      return String.ofList (c :: rest.takeWhile isNameChar)
    else failure
  | [] => failure

/-- A name, in which colons may stand anywhere. -/
def name : Reader String := do
  match ← get with
  | c :: rest =>
    if isNameStart c || c = ':' then
      set (rest.dropWhile fun c => isNameChar c || c = ':')
      return String.ofList (c :: rest.takeWhile fun c => isNameChar c || c = ':')
    else failure
  | [] => failure

def quote : Reader Char := do
  match ← get with
  | c :: rest => if c = '"' ∨ c = '\'' then set rest; return c else failure
  | [] => failure

/-- An equals sign with the white space that may be around it. -/
def equals : Reader Unit := do
  skipSpaces
  word ['=']
  skipSpaces

end Reader

/-- The number that a reference gives between its number sign and the semicolon. -/
def referenceNumber? (body : List Char) : Option Nat :=
  match body with
  | 'x' :: digits => if digits.isEmpty then none else Text.digitsValue 16 digits
  | digits => if digits.isEmpty then none else Text.digitsValue 10 digits

def predefined? (name : String) : Option Char :=
  ([("lt", '<'), ("gt", '>'), ("amp", '&'), ("apos", '\''), ("quot", '"')] : List (String × Char)).lookup name

end Schematron.Xml
