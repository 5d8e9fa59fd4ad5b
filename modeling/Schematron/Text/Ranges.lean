namespace Schematron.Text

/-- Membership in a list of inclusive ranges in rising order. -/
def inRanges : List (Nat × Nat) → Nat → Bool
  | [], _ => false
  | (lo, hi) :: rest, n => if n < lo then false else n ≤ hi || inRanges rest n

end Schematron.Text
