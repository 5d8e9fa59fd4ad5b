import Schematron.Data.Value
import Schematron.Text.Digits
import Schematron.Text.Reader

namespace Schematron.Data.Json

open Schematron.Reader

def isBlank (c : Char) : Bool := c = ' ' || c = '\t' || c = '\n' || c = '\r'

def skip : Reader Unit := modify (·.dropWhile isBlank)

/-- Whether the next sign is `c`, which is then taken. -/
def takes (c : Char) : Reader Bool := do
  skip
  match ← get with
  | d :: rest => if d = c then set rest; return true else return false
  | [] => return false

def escapes : List (Char × Char) := [
  ('"', '"'), ('\\', '\\'), ('/', '/'), ('b', Char.ofNat 8), ('f', Char.ofNat 12), ('n', '\n'),
  ('r', '\r'), ('t', '\t')]

/-- A piece of a text: a character, or a code unit given by its number. -/
inductive Piece where
  | char (c : Char)
  | code (n : Nat)

/-- The pieces up to the closing quote. -/
def pieces : List Char → Option (List Piece × List Char)
  | [] => none
  | '"' :: rest => some ([], rest)
  | '\\' :: 'u' :: a :: b :: c :: d :: rest => do
    let n ← Text.digitsValue 16 [a, b, c, d]
    let (us, after) ← pieces rest
    return (.code n :: us, after)
  | '\\' :: e :: rest => do
    let c ← escapes.lookup e
    let (us, after) ← pieces rest
    return (.char c :: us, after)
  | c :: rest => do
    if c.toNat < 32 then none
    let (us, after) ← pieces rest
    return (.char c :: us, after)

/-- The characters of pieces. A pair of code pieces stands for one character. -/
def joined : List Piece → Option (List Char)
  | [] => some []
  | .char c :: rest => (joined rest).map (c :: ·)
  | .code n :: .code m :: rest =>
    if 0xD800 ≤ n ∧ n < 0xDC00 then
      if 0xDC00 ≤ m ∧ m < 0xE000 then do
        let c ← Text.charOf? (0x10000 + (n - 0xD800) * 0x400 + (m - 0xDC00))
        return c :: (← joined rest)
      else none
    else do
      let c ← Text.charOf? n
      return c :: (← joined (.code m :: rest))
  | .code n :: rest => do
    let c ← Text.charOf? n
    return c :: (← joined rest)

/-- A text whose opening quote has been taken. There is none where code units do not pair. -/
def text : Reader (Option String) := do
  let us ← (pieces : Reader (List Piece))
  return (joined us).map String.ofList

/-- A record. One in which a key is no text is broken. -/
def record (fields : List (Option String × Data)) : Data :=
  match fields.mapM fun field => field.1.map (·, field.2) with
  | some fields => .record fields
  | none => .broken

def isNumberChar (c : Char) : Bool := c.isDigit || c = '-' || c = '+' || c = '.' || c = 'e' || c = 'E'

/-- Digits, of which there has to be one. -/
def digits : List Char → Option (List Char × List Char)
  | cs => if (cs.takeWhile Char.isDigit).isEmpty then none
    else some (cs.takeWhile Char.isDigit, cs.dropWhile Char.isDigit)

def isExponent : List Char → Bool
  | [] => true
  | e :: rest =>
    let rest := match rest with
      | '+' :: more | '-' :: more => more
      | _ => rest
    (e = 'e' || e = 'E') && !rest.isEmpty && rest.all Char.isDigit

/-- The number that a spelling stands for. A negative zero is no integer. -/
def numberOf? (cs : List Char) : Option Data := do
  let (negative, cs') := match cs with
    | '-' :: rest => (true, rest)
    | _ => (false, cs)
  let (whole, rest) ← digits cs'
  if whole.head? = some '0' ∧ 1 < whole.length then none
  match rest with
  | [] =>
    let n ← Text.digitsValue 10 whole
    if negative then return if n = 0 then .decimal (String.ofList cs) else .int (-n)
    else return .int n
  | '.' :: more =>
    let (_, after) ← digits more
    if isExponent after then return .decimal (String.ofList cs) else none
  | _ => if isExponent rest then return .decimal (String.ofList cs) else none

def number : Reader Data := do
  let cs ← get
  set (cs.dropWhile isNumberChar)
  numberOf? (cs.takeWhile isNumberChar)

mutual
def value : (fuel : Nat) → Reader Data
  | 0 => failure
  | fuel + 1 => do
    skip
    match ← get with
    | '"' :: rest => set rest; return ((← text).map .text).getD .broken
    | '[' :: rest =>
      set rest
      if ← takes ']' then return .list [] else return .list (← items fuel)
    | '\x7b' :: rest =>
      set rest
      if ← takes '\x7d' then return .record [] else return record (← fields fuel)
    | 't' :: _ => word "true".toList; return .bool true
    | 'f' :: _ => word "false".toList; return .bool false
    | 'n' :: _ => word "null".toList; return .null
    | _ => number

/-- The items of a list up to its bracket. -/
def items : (fuel : Nat) → Reader (List Data)
  | 0 => failure
  | fuel + 1 => do
    let v ← value fuel
    if ← takes ',' then return v :: (← items fuel)
    else if ← takes ']' then return [v]
    else failure

/-- The fields of a record up to its bracket. -/
def fields : (fuel : Nat) → Reader (List (Option String × Data))
  | 0 => failure
  | fuel + 1 => do
    if !(← takes '"') then failure
    let key ← text
    if !(← takes ':') then failure
    let v ← value fuel
    if ← takes ',' then return (key, v) :: (← fields fuel)
    else if ← takes '\x7d' then return [(key, v)]
    else failure
end

/-- The value that a JSON text spells. Each level of a value takes a character, so the fuel suffices. -/
def parse (s : String) : Option Data := do
  let cs := s.toList
  let (v, rest) ← (value (2 * cs.length + 2)).run cs
  if (rest.dropWhile isBlank).isEmpty then some v else none

end Schematron.Data.Json
