namespace Schematron

/-- Data as JSON and TOML write it. -/
inductive Data where
  | null
  | bool (b : Bool)
  | int (n : Int)
  /-- A number that is not written as an integer. -/
  | decimal (spelling : String)
  /-- A date, a time or both. -/
  | moment (spelling : String)
  | text (s : String)
  /-- What is spelled as a value that there is not, such as a number out of all bounds. -/
  | broken
  | list (items : List Data)
  /-- Fields in the order in which they are written. -/
  | record (fields : List (String × Data))
  deriving Repr

namespace Data

mutual
/-- Whether nothing in a value is broken. -/
def isSound : Data → Bool
  | broken => false
  | list items => allSound items
  | record fields => fieldsSound fields
  | _ => true

def allSound : List Data → Bool
  | [] => true
  | d :: rest => d.isSound && allSound rest

def fieldsSound : List (String × Data) → Bool
  | [] => true
  | (_, d) :: rest => d.isSound && fieldsSound rest
end

def nat (n : Nat) : Data := .int n

def texts (l : List String) : Data := .list (l.map .text)

def text? : Option String → Data
  | some s => .text s
  | none => .null

end Data

end Schematron
