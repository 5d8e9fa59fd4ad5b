import Schematron.Data.Value
import Schematron.Number.Reading
import Schematron.Text.Digits
import Schematron.Text.Reader
import Schematron.Text.Split

namespace Schematron.Data.Toml

open Schematron.Reader

def isBlank (c : Char) : Bool := c = ' ' || c = '\t'

/-- What a comment or a text on one line may hold. -/
def isPlain (c : Char) : Bool := c = '\t' || (32 ≤ c.toNat && c.toNat ≠ 127)

def blanks : Reader Unit := modify (·.dropWhile isBlank)

/-- What follows a line break. -/
def behindBreak? : List Char → Option (List Char)
  | '\n' :: rest => some rest
  | '\r' :: '\n' :: rest => some rest
  | _ => none

def lineBreak : Reader Unit := do set (← behindBreak? (← get))

def comment : Reader Unit := do
  match ← get with
  | '#' :: rest => set (rest.dropWhile isPlain)
  | _ => return ()

/-- White space, and comments with the line breaks behind them. -/
def gap : Reader Unit := do
  let found ← (fun cs => some (many (do blanks; comment; lineBreak) cs) : Reader (List Unit))
  if found.isEmpty then blanks else blanks

def escapes : List (Char × Char) := [
  ('b', Char.ofNat 8), ('t', '\t'), ('n', '\n'), ('f', Char.ofNat 12), ('r', '\r'),
  ('e', Char.ofNat 27), ('"', '"'), ('\\', '\\')]

def numbered? (digits : List Char) : Option Char := (Text.digitsValue 16 digits).bind Text.charOf?

def before (c : Option Char) (r : Option (List Char × List Char)) : Option (List Char × List Char) := do
  let (cs, after) ← r
  return ((← c) :: cs, after)

/-- The characters of a text with escapes, up to its closing quote. -/
def basic : List Char → Option (List Char × List Char)
  | [] => none
  | '"' :: rest => some ([], rest)
  | '\\' :: 'x' :: a :: b :: rest => before (numbered? [a, b]) (basic rest)
  | '\\' :: 'u' :: a :: b :: c :: d :: rest => before (numbered? [a, b, c, d]) (basic rest)
  | '\\' :: 'U' :: a :: b :: c :: d :: e :: f :: g :: h :: rest =>
    before (numbered? [a, b, c, d, e, f, g, h]) (basic rest)
  | '\\' :: e :: rest => before (escapes.lookup e) (basic rest)
  | c :: rest => if isPlain c then before (some c) (basic rest) else none

/-- The quotes in front of three closing ones, of which there may be two. -/
def closing? (q : Char) : List Char → Option (List Char × List Char)
  | a :: b :: c :: rest =>
    if a = q ∧ b = q ∧ c = q then
      match rest with
      | d :: e :: more =>
        if d = q ∧ e = q then some ([q, q], more)
        else if d = q then some ([q], e :: more)
        else some ([], rest)
      | [d] => if d = q then some ([q], []) else some ([], rest)
      | [] => some ([], [])
    else none
  | _ => none

/-- Whether the rest of a line is blank. -/
def isLineEnd (cs : List Char) : Bool := (behindBreak? (cs.dropWhile isBlank)).isSome

/-- The characters of a text over several lines. `skipping` tells that a backslash has ended a line and
white space does not count. -/
def basicLines (skipping : Bool) : List Char → Option (List Char × List Char)
  | [] => none
  | '\\' :: 'x' :: a :: b :: rest => before (numbered? [a, b]) (basicLines false rest)
  | '\\' :: 'u' :: a :: b :: c :: d :: rest => before (numbered? [a, b, c, d]) (basicLines false rest)
  | '\\' :: 'U' :: a :: b :: c :: d :: e :: f :: g :: h :: rest =>
    before (numbered? [a, b, c, d, e, f, g, h]) (basicLines false rest)
  | '\\' :: e :: rest =>
    if isLineEnd (e :: rest) then basicLines true (e :: rest)
    else before (escapes.lookup e) (basicLines false rest)
  | c :: rest =>
    match closing? '"' (c :: rest) with
    | some found => some found
    | none =>
      let isBreak := c = '\n' ∨ (c = '\r' ∧ rest.head? = some '\n')
      if skipping ∧ (isBlank c ∨ isBreak) then basicLines true rest
      else if isPlain c ∨ isBreak then before (some c) (basicLines false rest)
      else none

def literal : List Char → Option (List Char × List Char)
  | [] => none
  | '\'' :: rest => some ([], rest)
  | c :: rest => if isPlain c then before (some c) (literal rest) else none

def literalLines : List Char → Option (List Char × List Char)
  | [] => none
  | c :: rest =>
    match closing? '\'' (c :: rest) with
    | some found => some found
    | none =>
      if isPlain c ∨ c = '\n' ∨ (c = '\r' ∧ rest.head? = some '\n') then
        before (some c) (literalLines rest)
      else none

/-- A text on one line. -/
def line : Reader String := do
  match ← get with
  | '"' :: rest => set rest; return String.ofList (← (basic : Reader _))
  | '\'' :: rest => set rest; return String.ofList (← (literal : Reader _))
  | _ => failure

/-- A line break at the beginning of a text over several lines does not count. -/
def withoutBreak (cs : List Char) : List Char := (behindBreak? cs).getD cs

def text : Reader String := do
  match ← get with
  | '"' :: '"' :: '"' :: rest =>
    set (withoutBreak rest)
    return String.ofList (← (basicLines false : Reader _))
  | '\'' :: '\'' :: '\'' :: rest =>
    set (withoutBreak rest)
    return String.ofList (← (literalLines : Reader _))
  | _ => line

def isKeyChar (c : Char) : Bool := c.isAlphanum || c = '_' || c = '-'

def simpleKey : Reader String := do
  let cs ← get
  match cs with
  | c :: _ =>
    if c = '"' ∨ c = '\'' then line
    else if isKeyChar c then
      set (cs.dropWhile isKeyChar)
      return String.ofList (cs.takeWhile isKeyChar)
    else failure
  | [] => failure

/-- How deep values may be nested, and how many parts a key may have. -/
def nestingLimit : Nat := 80

/-- A key of parts with dots between them. -/
def key : Reader (List String) := do
  let first ← simpleKey
  let more ← (fun cs => some (many (do blanks; word ['.']; blanks; simpleKey) cs) : Reader (List String))
  if more.length < nestingLimit then return first :: more else failure

/-- Digits without the underscores that may stand between two of them. -/
def ungrouped (p : Char → Bool) (cs : List Char) : Option (List Char) :=
  let groups := Text.splitAt '_' cs
  if groups.all fun g => !g.isEmpty && g.all p then some groups.flatten else none

/-- Decimal digits without a needless zero in front. -/
def whole? (cs : List Char) : Option (List Char) := do
  let ds ← ungrouped Char.isDigit cs
  if ds.head? = some '0' ∧ 1 < ds.length then none else some ds

def unsigned (cs : List Char) : Bool × List Char :=
  match cs with
  | '-' :: rest => (true, rest)
  | '+' :: rest => (false, rest)
  | _ => (false, cs)

/-- Integers below `-2 ^ 127` and from `2 ^ 128` on are no values. -/
def inBounds (n : Int) : Bool := -Int.ofNat (Nat.pow 2 127) ≤ n && n < Int.ofNat (Nat.pow 2 128)

def isHexDigit (c : Char) : Bool := c.isDigit || ('a' ≤ c && c ≤ 'f') || ('A' ≤ c && c ≤ 'F')

def integer? (cs : List Char) : Option Int :=
  match cs with
  | '0' :: 'x' :: ds => do return Int.ofNat (← Text.digitsValue 16 (← ungrouped isHexDigit ds))
  | '0' :: 'o' :: ds => do return Int.ofNat (← Text.digitsValue 8 (← ungrouped Char.isDigit ds))
  | '0' :: 'b' :: ds => do return Int.ofNat (← Text.digitsValue 2 (← ungrouped Char.isDigit ds))
  | _ => do
    let (negative, ds) := unsigned cs
    let n ← Text.digitsValue 10 (← whole? ds)
    return if negative then -Int.ofNat n else Int.ofNat n

def isExponentMark (c : Char) : Bool := c = 'e' || c = 'E'

/-- Whether a spelling is that of a number with a point or an exponent. -/
def isFloat (cs : List Char) : Bool :=
  let (_, body) := unsigned cs
  let mantissa := body.takeWhile (!isExponentMark ·)
  let exponent := body.dropWhile (!isExponentMark ·)
  let whole := mantissa.takeWhile (· ≠ '.')
  let fraction := mantissa.dropWhile (· ≠ '.')
  let isFraction := match fraction with
    | [] => true
    | _ :: ds => (ungrouped Char.isDigit ds).isSome
  let isPower := match exponent with
    | [] => true
    | _ :: ds => (ungrouped Char.isDigit (unsigned ds).2).isSome
  body = "inf".toList || body = "nan".toList
    || ((whole? whole).isSome && isFraction && isPower && !(fraction.isEmpty && exponent.isEmpty))

/-- Whether a number with digits is too large to be told from the infinite. -/
def overflows (cs : List Char) : Bool :=
  (unsigned cs).2 ≠ "inf".toList
    && (Number.read? (String.ofList (cs.filter (· ≠ '_')))).any (·.isInf)

/-- Two digits with a value within bounds. -/
def isTwoDigits (low high : Nat) (cs : List Char) : Bool :=
  cs.length = 2 && cs.all Char.isDigit &&
    (Text.digitsValue 10 cs).any fun n => low ≤ n && n ≤ high

def daysIn (year month : Nat) : Nat :=
  if month = 2 then (if year % 4 = 0 ∧ (year % 100 ≠ 0 ∨ year % 400 = 0) then 29 else 28)
  else if month = 4 ∨ month = 6 ∨ month = 9 ∨ month = 11 then 30
  else 31

def isDate (cs : List Char) : Bool :=
  match Text.splitAt '-' cs with
  | [y, m, d] =>
    y.length = 4 && y.all Char.isDigit && isTwoDigits 1 12 m
      && isTwoDigits 1 (daysIn ((Text.digitsValue 10 y).getD 0) ((Text.digitsValue 10 m).getD 0)) d
  | _ => false

def isTime (cs : List Char) : Bool :=
  match Text.splitAt ':' cs with
  | [h, m] => isTwoDigits 0 23 h && isTwoDigits 0 59 m
  | [h, m, s] =>
    isTwoDigits 0 23 h && isTwoDigits 0 59 m && isTwoDigits 0 60 (s.takeWhile (· ≠ '.'))
      && match s.dropWhile (· ≠ '.') with
        | [] => true
        | _ :: ds => !ds.isEmpty && ds.all Char.isDigit
  | _ => false

def isOffset (cs : List Char) : Bool :=
  match cs with
  | [] => true
  | ['Z'] | ['z'] => true
  | _ :: rest =>
    match Text.splitAt ':' rest with
    | [h, m] => isTwoDigits 0 23 h && isTwoDigits 0 59 m
    | _ => false

def isZoneMark (c : Char) : Bool := c = 'Z' || c = 'z' || c = '+' || c = '-'

/-- Whether a spelling is that of a date, a time or both. -/
def isMoment (cs : List Char) : Bool :=
  isTime cs || isDate cs ||
    match cs.drop 10 with
    | t :: rest =>
      (t = 'T' || t = 't' || t = ' ') && isDate (cs.take 10)
        && isTime (rest.takeWhile (!isZoneMark ·)) && isOffset (rest.dropWhile (!isZoneMark ·))
    | [] => false

/-- The value that a spelling without quotes stands for. -/
def scalarOf? (cs : List Char) : Option Data :=
  if cs = "true".toList then some (.bool true)
  else if cs = "false".toList then some (.bool false)
  else
    match integer? cs with
    | some n => some (if inBounds n then .int n else .broken)
    | none =>
      if isFloat cs then some (if overflows cs then .broken else .decimal (String.ofList cs))
      else if isMoment cs then some (.moment (String.ofList cs))
      else none

def isScalarChar (c : Char) : Bool := c.isAlphanum || c = '+' || c = '-' || c = '_' || c = '.' || c = ':'

/-- A value without quotes. A space may stand between a date and a time. -/
def scalar : Reader Data := do
  let cs ← get
  let front := cs.takeWhile isScalarChar
  match cs.dropWhile isScalarChar with
  | ' ' :: c :: rest =>
    if isDate front ∧ c.isDigit then
      set ((c :: rest).dropWhile isScalarChar)
      scalarOf? (front ++ ' ' :: (c :: rest).takeWhile isScalarChar)
    else
      set (' ' :: c :: rest)
      scalarOf? front
  | rest =>
    set rest
    scalarOf? front

end Schematron.Data.Toml
