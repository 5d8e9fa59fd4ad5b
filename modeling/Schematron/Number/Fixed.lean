import Schematron.Number.Binary

namespace Schematron.Number

/-- The whole number nearest to `num / den`; a half goes to the even neighbour. -/
def roundDiv (num den : Nat) : Nat :=
  let q := num / den
  let twice := 2 * (num % den)
  if twice < den then q else if den < twice then q + 1 else q + q % 2

/-- A count of units of the last of `places` decimal places. -/
def placed (places units : Nat) : String :=
  let digits := Nat.toDigits 10 units
  let digits := List.replicate (places + 1 - digits.length) '0' ++ digits
  if places = 0 then String.ofList digits
  else
    let whole := digits.length - places
    String.ofList (digits.take whole ++ '.' :: digits.drop whole)

/-- A finite number with so many decimal places. -/
def fixed (places : Nat) (x : Float) : String :=
  let b := decode x
  let (num, den) := ratio b.mantissa b.exponent
  (if b.negative then "-" else "") ++ placed places (roundDiv (num * Nat.pow 10 places) den)

end Schematron.Number
