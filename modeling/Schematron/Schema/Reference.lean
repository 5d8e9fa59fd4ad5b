import Schematron.Table
import Schematron.Text.Alphabetic
import Schematron.Text.Blank

namespace Schematron.Schema

def isReferenceStart (c : Char) : Bool := Text.isAlphabetic c || c = '_'

def isReferenceChar (c : Char) : Bool :=
  Text.isAlphanumeric c || c = '_' || c = '-' || c = '.'

/-- A piece of a query: a reference by name, or text that is copied. -/
inductive Fragment where
  | text (cs : List Char)
  | reference (name : List Char)
  deriving DecidableEq

/-- Text up to and with the closing quote, or all of it. -/
def quotedPart (quote : Char) : List Char → List Char × List Char
  | [] => ([], [])
  | c :: rest =>
    if c = quote then ([c], rest)
    else
      let (inside, after) := quotedPart quote rest
      (c :: inside, after)

theorem quotedPart_length (quote : Char) (cs : List Char) :
    (quotedPart quote cs).2.length ≤ cs.length := by
  fun_induction quotedPart quote cs with
  | case1 => simp
  | case2 => simp
  | case3 c rest h inside after heq ih =>
    simp only [heq] at ih
    simp only [List.length_cons]
    omega

/-- The references in a query, and the text between them. There are none inside string literals. -/
def fragments : List Char → List Fragment
  | [] => []
  | c :: rest =>
    if c = '\'' ∨ c = '"' then
      .text (c :: (quotedPart c rest).1) :: fragments (quotedPart c rest).2
    else
      match rest with
      | d :: more =>
        if c = '$' ∧ isReferenceStart d then
          .reference (d :: more.takeWhile isReferenceChar) :: fragments (more.dropWhile isReferenceChar)
        else .text [c] :: fragments (d :: more)
      | [] => [.text [c]]
termination_by cs => cs.length
decreasing_by
  · have := quotedPart_length c rest
    simp only [List.length_cons]
    omega
  · have := Text.length_dropWhile_le isReferenceChar more
    simp only [List.length_cons]
    omega
  · simp

def Fragment.reference? : Fragment → Option String
  | .text _ => none
  | .reference name => some (String.ofList name)

/-- A reference to a parameter becomes the parameter's value. -/
def Fragment.substituted (parameters : Table String) : Fragment → List Char
  | .text cs => cs
  | .reference name =>
    match parameters.get? (String.ofList name) with
    | some value => value.toList
    | none => '$' :: name

def references (query : String) : List String := (fragments query.toList).filterMap (·.reference?)

def substitute (parameters : Table String) (query : String) : String :=
  String.ofList ((fragments query.toList).flatMap (·.substituted parameters))

end Schematron.Schema
