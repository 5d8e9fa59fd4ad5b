import Schematron.Text.Ranges

namespace Schematron.Text

/-- Code points with the White_Space property. -/
def blankRanges : List (Nat × Nat) := [
  (9, 13), (32, 32), (133, 133), (160, 160), (5760, 5760), (8192, 8202), (8232, 8233), (8239, 8239),
  (8287, 8287), (12288, 12288)]

def isBlank (c : Char) : Bool := inRanges blankRanges c.toNat

def skipBlanks (cs : List Char) : List Char := cs.dropWhile isBlank

theorem length_dropWhile_le {α : Type} (p : α → Bool) (l : List α) :
    (l.dropWhile p).length ≤ l.length :=
  (List.dropWhile_sublist p).length_le

theorem length_skipBlanks_le (cs : List Char) : (skipBlanks cs).length ≤ cs.length :=
  length_dropWhile_le isBlank cs

theorem isBlank_of_skipBlanks {cs rest : List Char} {c : Char} (h : skipBlanks cs = c :: rest) :
    isBlank c = false := by
  have := List.head?_dropWhile_not isBlank cs
  rw [show cs.dropWhile isBlank = c :: rest from h] at this
  simpa using this

def trimStart (s : String) : String := String.ofList (skipBlanks s.toList)

/-- The text without white space at either end. -/
def trim (s : String) : String :=
  String.ofList (skipBlanks (skipBlanks s.toList).reverse).reverse

/-- The maximal runs without white space, in order. -/
def fields (cs : List Char) : List (List Char) :=
  match _h : skipBlanks cs with
  | [] => []
  | c :: rest => (c :: rest.takeWhile (!isBlank ·)) :: fields (rest.dropWhile (!isBlank ·))
termination_by cs.length
decreasing_by
  have h1 := length_skipBlanks_le cs
  have h2 := length_dropWhile_le (fun x => !isBlank x) rest
  rw [_h] at h1
  simp only [List.length_cons] at h1
  omega

def words (s : String) : List String := (fields s.toList).map String.ofList

/-- White space at the ends dropped and each run inside made one space. -/
def normalizeBlanks (s : String) : String := " ".intercalate (words s)

end Schematron.Text
