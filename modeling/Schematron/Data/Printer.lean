import Schematron.Data.Value
import Schematron.Text.Quoted

/-! JSON laid out over lines, two spaces for each level. -/

namespace Schematron.Data

def fourHexDigits (n : Nat) : String :=
  let digits := Nat.toDigits 16 n
  String.ofList (List.replicate (4 - digits.length) '0' ++ digits)

/-- A character between quotes. Only the quote, the backslash and control characters are escaped. -/
def jsonChar (c : Char) : String :=
  if c = '"' then "\\\""
  else if c = '\\' then "\\\\"
  else if c = '\n' then "\\n"
  else if c = '\r' then "\\r"
  else if c = '\t' then "\\t"
  else if c.toNat = 8 then "\\b"
  else if c.toNat = 12 then "\\f"
  else if c.toNat < 32 then "\\u" ++ fourHexDigits c.toNat
  else c.toString

def jsonText (s : String) : String := "\"" ++ String.join (s.toList.map jsonChar) ++ "\""

/-- The line break in front of what stands `level` deep. -/
def breakLine (level : Nat) : String := "\n" ++ String.ofList (List.replicate (2 * level) ' ')

mutual
def jsonAt (level : Nat) : Data → String
  | .null | .broken => "null"
  | .bool b => if b then "true" else "false"
  | .int n => toString n
  | .decimal s | .moment s => s
  | .text s => jsonText s
  | .list items =>
    if items.isEmpty then "[]"
    else "[" ++ ",".intercalate (itemLines (level + 1) items) ++ breakLine level ++ "]"
  | .record fields =>
    if fields.isEmpty then "\x7b\x7d"
    else "\x7b" ++ ",".intercalate (fieldLines (level + 1) fields) ++ breakLine level ++ "\x7d"

def itemLines (level : Nat) : List Data → List String
  | [] => []
  | d :: rest => (breakLine level ++ jsonAt level d) :: itemLines level rest

def fieldLines (level : Nat) : List (String × Data) → List String
  | [] => []
  | (key, d) :: rest =>
    (breakLine level ++ jsonText key ++ ": " ++ jsonAt level d) :: fieldLines level rest
end

def toJson (d : Data) : String := jsonAt 0 d

end Schematron.Data
