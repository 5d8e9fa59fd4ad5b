import Schematron.Number.Binary
import Schematron.Text.Blank
import Schematron.Text.Case

namespace Schematron.Number

def digitsToNat (ds : List Char) : Nat := ds.foldl (fun n c => n * 10 + (c.toNat - 48)) 0

/-- `m * 10 ^ e`, rounded to the nearest. -/
def scientific (m : Nat) (e : Int) : Float :=
  let size := (Nat.toDigits 10 m).length + e
  if m = 0 then 0.0
  else if size > 400 then infinity
  else if size < -400 then 0.0
  else if 0 ≤ e then Float.ofScientific m false e.toNat
  else Float.ofScientific m true (-e).toNat

/-- The part behind an exponent mark. -/
def readExponent : List Char → Option Int
  | '-' :: ds => if ds.isEmpty || !ds.all Char.isDigit then none else some (-digitsToNat ds)
  | '+' :: ds => if ds.isEmpty || !ds.all Char.isDigit then none else some (digitsToNat ds)
  | ds => if ds.isEmpty || !ds.all Char.isDigit then none else some (digitsToNat ds)

/-- A number without a sign: digits with a point, of which there is at least one, and an exponent. -/
def readUnsigned (cs : List Char) : Option Float :=
  let whole := cs.takeWhile Char.isDigit
  let rest := cs.dropWhile Char.isDigit
  let (fraction, after) :=
    match rest with
    | '.' :: more => (more.takeWhile Char.isDigit, more.dropWhile Char.isDigit)
    | _ => ([], rest)
  if whole.isEmpty && fraction.isEmpty then none
  else
    let m := digitsToNat (whole ++ fraction)
    let shift : Int := -fraction.length
    match after with
    | [] => some (scientific m shift)
    | c :: more => if c = 'e' ∨ c = 'E' then (readExponent more).map fun e => scientific m (e + shift) else none

def readSize (cs : List Char) : Option Float :=
  let lowered := Text.asciiLower (String.ofList cs)
  if lowered = "inf" ∨ lowered = "infinity" then some infinity
  else if lowered = "nan" then some notANumber
  else readUnsigned cs

/-- The number that a text spells, `inf` and `nan` among them. -/
def read? (s : String) : Option Float :=
  match s.toList with
  | '-' :: cs => (readSize cs).map (-·)
  | '+' :: cs => readSize cs
  | cs => readSize cs

/-- The number that a text spells between white space. -/
def readTrimmed? (s : String) : Option Float := read? (Text.trim s)

end Schematron.Number
