import Schematron.Number.Binary

namespace Schematron.Number

/-- Decimal digits and the power of ten that their number is multiplied by. -/
structure Decimal where
  digits : Nat
  exponent : Int
  deriving DecidableEq, Repr

def digitCount (n : Nat) : Nat := (Nat.toDigits 10 n).length

/-- The exponent of the first decimal digit of `num / den`. -/
def leadingExponent (num den : Nat) : Int :=
  let e : Int := digitCount num - digitCount den
  let reaches := if 0 ≤ e then den * Nat.pow 10 e.toNat ≤ num else den ≤ num * Nat.pow 10 (-e).toNat
  if reaches then e else e - 1

/-- The point of the decimal grid `10 ^ k` next to a value, both in the interval around it, if there is
one; of two at the same distance the upper one. All are given as numerators over `den`. -/
def gridPoint? (value low high den : Nat) (closed : Bool) (k : Int) : Option Nat :=
  let scale := if 0 ≤ k then den * Nat.pow 10 k.toNat else den
  let lift := fun n => if 0 ≤ k then n else n * Nat.pow 10 (-k).toNat
  let inside := fun d =>
    if closed then lift low ≤ d * scale && d * scale ≤ lift high
    else lift low < d * scale && d * scale < lift high
  let below := lift value / scale
  let gapBelow := lift value - below * scale
  let gapAbove := (below + 1) * scale - lift value
  match inside below, inside (below + 1) with
  | true, true => some (if gapBelow < gapAbove then below else below + 1)
  | true, false => some below
  | false, true => some (below + 1)
  | false, false => none

/-- Tries grids with more and more digits, `fuel` of them. The first is for a value just below a power
of ten. -/
def search (value low high den : Nat) (closed : Bool) (lead : Int) (count : Nat) : Nat → Decimal
  | 0 => ⟨value / den, 0⟩
  | fuel + 1 =>
    let k := lead + 1 - count
    match gridPoint? value low high den closed k with
    | some d => ⟨d, k⟩
    | none => search value low high den closed lead (count + 1) fuel

/-- The decimal with the fewest digits that reads back as `m * 2 ^ e`; of two such the nearer. -/
def shortest (m : Nat) (e : Int) : Decimal :=
  let narrow := m = Nat.pow 2 52 && e ≠ -1074
  let (value, den) := ratio (4 * m) (e - 2)
  let (low, _) := ratio (4 * m - if narrow then 1 else 2) (e - 2)
  let (high, _) := ratio (4 * m + 2) (e - 2)
  search value low high den (m % 2 = 0) (leadingExponent value den) 0 18

/-- Digits with a point and zeros in place of the exponent. -/
def Decimal.positional (d : Decimal) : String :=
  let s := Nat.toDigits 10 d.digits
  if 0 ≤ d.exponent then String.ofList (s ++ List.replicate d.exponent.toNat '0')
  else
    let places := (-d.exponent).toNat
    if places < s.length then
      String.ofList (s.take (s.length - places) ++ '.' :: s.drop (s.length - places))
    else String.ofList ('0' :: '.' :: List.replicate (places - s.length) '0' ++ s)

/-- The text of a number, without an exponent; `inf` is how an infinite number is spelled. -/
def spell (inf : String) (x : Float) : String :=
  if x.isNaN then "NaN"
  else
    let b := decode x
    let sign := if b.negative then "-" else ""
    if x.isInf then sign ++ inf
    else if b.mantissa = 0 then sign ++ "0"
    else sign ++ (shortest b.mantissa b.exponent).positional

end Schematron.Number
