namespace Schematron.Rendering

/-- The year, month and day that lie so many days after the first of January 1970. Years are counted from
March, so that the leap day is the last. -/
def civil (days : Nat) : Nat × Nat × Nat :=
  let shifted := days + 719468
  let era := shifted / 146097
  let day := shifted % 146097
  let year := (day - day / 1460 + day / 36524 - day / 146096) / 365
  let dayOfYear := day - (365 * year + year / 4 - year / 100)
  let month := (5 * dayOfYear + 2) / 153
  let dayOfMonth := dayOfYear - (153 * month + 2) / 5 + 1
  if month < 10 then (era * 400 + year, month + 3, dayOfMonth)
  else (era * 400 + year + 1, month - 9, dayOfMonth)

def padded (width n : Nat) : String :=
  let digits := Nat.toDigits 10 n
  String.ofList (List.replicate (width - digits.length) '0' ++ digits)

/-- A moment in universal time, given in seconds since the beginning of 1970. -/
def moment (seconds : Nat) : String :=
  let (year, month, day) := civil (seconds / 86400)
  let second := seconds % 86400
  padded 4 year ++ "-" ++ padded 2 month ++ "-" ++ padded 2 day ++ "T" ++ padded 2 (second / 3600) ++ ":"
    ++ padded 2 (second / 60 % 60) ++ ":" ++ padded 2 (second % 60) ++ "Z"

end Schematron.Rendering
