import Schematron.Text.CaseTable

namespace Schematron.Text

def mapRun : List CaseRun → Nat → Nat
  | [], n => n
  | r :: rest, n =>
    if n < r.first then n
    else if n ≤ r.last then (if (n - r.first) % r.step = 0 then n - r.first + r.target else mapRun rest n)
    else mapRun rest n

def upperChars (c : Char) : List Char :=
  match upperExpansions.lookup c.toNat with
  | some ns => ns.map Char.ofNat
  | none => [Char.ofNat (mapRun upperRuns c.toNat)]

/-- Lower-case form of a character on its own; only the dotted capital I has two characters. -/
def lowerChars (c : Char) : List Char :=
  if c.toNat = 304 then [Char.ofNat 105, Char.ofNat 775] else [Char.ofNat (mapRun lowerRuns c.toNat)]

def upper (s : String) : String := String.ofList (s.toList.flatMap upperChars)

/-- The nearest character that case mapping does not skip over is a cased one. -/
def meetsCased (cs : List Char) : Bool :=
  match cs.dropWhile (fun c => inRanges caseIgnorableRanges c.toNat) with
  | [] => false
  | c :: _ => inRanges casedRanges c.toNat

def capitalSigma : Char := Char.ofNat 0x3A3

def finalSigma : Char := Char.ofNat 0x3C2

/-- `before` holds the characters already passed, the nearest first. A capital sigma that ends a word
becomes a final sigma. -/
def lowerFrom (before : List Char) : List Char → List Char
  | [] => []
  | c :: rest =>
    (if c = capitalSigma ∧ meetsCased before ∧ ¬ meetsCased rest then [finalSigma] else lowerChars c)
      ++ lowerFrom (c :: before) rest

def lower (s : String) : String := String.ofList (lowerFrom [] s.toList)

def asciiLower (s : String) : String := String.ofList (s.toList.map Char.toLower)

end Schematron.Text
