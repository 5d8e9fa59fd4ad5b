import Schematron.Text.Split

/-!
Names and paths as a file system has them. They are bytes and need not spell a text. Bytes that spell no
character are all shown alike, so that names that differ may look the same.
-/

namespace Schematron.Files

/-- A piece of a name: a character, or bytes that spell none and are shown as one. -/
inductive Sign where
  | char (c : Char)
  | stray (bytes : List UInt8)
  deriving DecidableEq, Repr

/-- What is shown in the place of bytes that spell no character. -/
def replacement : Char := '\uFFFD'

namespace Sign

def shown : Sign → Char
  | char c => c
  | stray _ => replacement

def char? : Sign → Option Char
  | char c => some c
  | stray _ => none

end Sign

/-- A name or a path. -/
structure Raw where
  signs : List Sign
  deriving DecidableEq, Repr

namespace Raw

def ofText (text : String) : Raw := ⟨text.toList.map .char⟩

instance : Coe String Raw := ⟨ofText⟩

/-- The text that is shown for a name. -/
def shown (r : Raw) : String := String.ofList (r.signs.map Sign.shown)

/-- The text that a name spells, if it does. -/
def text? (r : Raw) : Option String := (r.signs.mapM Sign.char?).map String.ofList

/-- The pieces between slashes. -/
def pieces (r : Raw) : List Raw := (Text.splitAt (.char '/') r.signs).map Raw.mk

end Raw

end Schematron.Files
