namespace Schematron.Number

/-- A finite number as a sign and `mantissa * 2 ^ exponent`. -/
structure Binary where
  negative : Bool
  mantissa : Nat
  exponent : Int
  deriving DecidableEq, Repr

def signBit (x : Float) : Bool := x.toBits >>> 63 = 1

/-- The parts of a finite number; the mantissa has 53 bits unless the number is close to zero. -/
def decode (x : Float) : Binary :=
  let bits := x.toBits.toNat
  let fraction : Nat := bits % Nat.pow 2 52
  let field : Nat := bits / Nat.pow 2 52 % Nat.pow 2 11
  if field = 0 then ⟨signBit x, fraction, -1074⟩
  else ⟨signBit x, Nat.pow 2 52 + fraction, (field : Int) - 1075⟩

/-- The numerator and the denominator of `m * 2 ^ e`. -/
def ratio (m : Nat) (e : Int) : Nat × Nat :=
  if 0 ≤ e then (m * Nat.pow 2 e.toNat, 1) else (m, Nat.pow 2 (-e).toNat)

def notANumber : Float := 0.0 / 0.0

def infinity : Float := 1.0 / 0.0

/-- The remainder of a division toward zero, exact and with the sign of `x`. -/
def remainder (x y : Float) : Float :=
  if x.isNaN || y.isNaN || x.isInf || y == 0.0 then notANumber
  else if y.isInf || x.abs < y.abs then x
  else
    let a := decode x
    let b := decode y
    let r := a.mantissa * Nat.pow 2 (a.exponent - b.exponent).toNat % b.mantissa
    let size := Float.scaleB (Float.ofNat r) b.exponent
    if a.negative then -size else size

/-- Rounds to the nearest integer, a half upward. What rounds to zero keeps its sign. -/
def roundHalfUp (x : Float) : Float :=
  let low := x.floor
  if x == low then x
  else
    let size := (2.0 * x - low).floor.abs
    if signBit x then -size else size

end Schematron.Number
