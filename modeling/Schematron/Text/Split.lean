namespace Schematron.Text

/-- The pieces between the places where `sep` stands; there is always at least one. -/
def splitAt {α : Type} [DecidableEq α] (sep : α) : List α → List (List α)
  | [] => [[]]
  | c :: rest =>
    if c = sep then [] :: splitAt sep rest
    else
      match splitAt sep rest with
      | [] => [[c]]
      | piece :: more => (c :: piece) :: more

def pieces (sep : Char) (s : String) : List String := (splitAt sep s.toList).map String.ofList

end Schematron.Text
