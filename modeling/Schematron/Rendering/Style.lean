import Schematron.Number.Fixed

namespace Schematron.Rendering

inductive Format where
  | human
  | json
  | summary
  deriving DecidableEq, Repr

def Format.name : Format → String
  | human => "human"
  | json => "json"
  | summary => "summary"

def Format.ofName? (s : String) : Option Format := [Format.human, .json, .summary].find? (·.name = s)

theorem Format.ofName?_name (f : Format) : Format.ofName? f.name = some f := by
  cases f <;> decide

inductive Verbosity where
  | quiet
  | normal
  | verbose
  deriving DecidableEq, Repr

/-- A length of time, given in microseconds: milliseconds below a second, seconds below a minute. -/
def duration (micros : Nat) : String :=
  let seconds := Float.ofNat (micros / 1000000) + Float.ofNat (micros % 1000000 * 1000) / 1000000000.0
  if seconds < 1.0 then toString (micros / 1000) ++ "ms"
  else if seconds < 60.0 then Number.fixed 2 seconds ++ "s"
  else
    let minutes := (seconds / 60.0).floor.toUInt64.toNat
    toString minutes ++ "m" ++ Number.fixed 1 (Number.remainder seconds 60.0) ++ "s"

inductive Color where
  | green
  | red
  | yellow
  | cyan
  deriving DecidableEq, Repr

def Color.code : Color → String
  | green => "32"
  | red => "31"
  | yellow => "33"
  | cyan => "36"

def Color.paint (c : Color) (colored : Bool) (s : String) : String :=
  if colored then "\x1b[" ++ c.code ++ "m" ++ s ++ "\x1b[0m" else s

end Schematron.Rendering
