import Schematron.XPath.Grammar
import Schematron.Xml.Lexical

/-!
Reading of expressions as the evaluator takes them: the first version of the language only, and parts
of a token that belong together stand together.
-/

namespace Schematron.XPath.Strict

def name? (cs : List Char) : Option (List Char × List Char) :=
  match cs with
  | c :: rest =>
    if Xml.isNameStart c then
      some (c :: rest.takeWhile Xml.isNameChar, rest.dropWhile Xml.isNameChar)
    else none
  | [] => none

/-- A name that a second one may follow behind a colon. -/
def qname? (cs : List Char) : Option (List Char × List Char) :=
  match name? cs with
  | some (first, ':' :: rest) =>
    match name? rest with
    | some (second, after) => some (first ++ ':' :: second, after)
    | none => some (first, ':' :: rest)
  | found => found

/-- Digits, which a point and more digits may follow. -/
def number (cs : List Char) : List Char × List Char :=
  let whole := cs.takeWhile Char.isDigit
  match cs.dropWhile Char.isDigit with
  | '.' :: rest => (whole ++ '.' :: rest.takeWhile Char.isDigit, rest.dropWhile Char.isDigit)
  | rest => (whole, rest)

def literal? (quote : Char) (rest : List Char) : Option (List Token × List Char) :=
  match rest.dropWhile (· ≠ quote) with
  | _ :: after => some ([.literal (String.ofList (rest.takeWhile (· ≠ quote)))], after)
  | [] => none

/-- The step to all nodes of an axis. -/
def nodesOn (axis : Axis) : List Token :=
  [.axisName axis.name, .colonColon, .nodeType "node", .lparen, .rparen]

def signs : List (List Char × List Token) := [
  (['<', '='], [.ltEq]), (['>', '='], [.gtEq]), (['!', '='], [.notEq]),
  (['/', '/'], [.doubleSlash]), (['.', '.'], nodesOn .parent),
  (['('], [.lparen]), ([')'], [.rparen]), (['['], [.lbracket]), ([']'], [.rbracket]),
  (['@'], [.atSign]), (['+'], [.plus]), (['-'], [.minus]), (['|'], [.pipe]), (['='], [.eq]),
  (['<'], [.lt]), (['>'], [.gt]), ([','], [.comma]), (['/'], [.slash])]

/-- What stands between two operands. -/
def operators : List (List Char × List Token) :=
  [(['*'], [.multiply])] ++
    ["and", "or", "div", "mod"].map fun w => (w.toList, [.operatorName w])

def axes : List (List Char × List Token) :=
  Axis.all.map fun a => (a.name.toList ++ [':', ':'], [.axisName a.name, .colonColon])

def nodeTests : List (List Char × List Token) :=
  nodeTypes.map fun n => (n.toList ++ ['(', ')'], [.nodeType n, .lparen, .rparen])

/-- The first entry that the text begins with. -/
def spelled? : List (List Char × List Token) → List Char → Option (List Token × List Char)
  | [], _ => none
  | (spelling, ts) :: more, cs =>
    match spelling.isPrefixOf? cs with
    | some rest => some (ts, rest)
    | none => spelled? more cs

/-- A test for instructions with a target. -/
def targetTest? (cs : List Char) : Option (List Token × List Char) :=
  match "processing-instruction(".toList.isPrefixOf? cs with
  | some (quote :: rest) =>
    if quote = '\'' ∨ quote = '"' then
      match literal? quote rest with
      | some (ts, ')' :: after) =>
        some ([.nodeType "processing-instruction", .lparen] ++ ts ++ [.rparen], after)
      | _ => none
    else none
  | _ => none

/-- A name at which a step or a call begins. -/
def named? (cs : List Char) : Option (List Token × List Char) :=
  match qname? cs with
  | some (n, '(' :: rest) => some ([.functionName (String.ofList n)], '(' :: rest)
  | some (n, ':' :: '*' :: rest) =>
    some ([.nameTest (String.ofList (n ++ [':', '*']))], rest)
  | some (n, rest) => some ([.nameTest (String.ofList n)], rest)
  | none =>
    match cs with
    | '*' :: rest => some ([.nameTest "*"], rest)
    | _ => none

/-- The tokens that the front of a text stands for. -/
def lexeme (operand : Bool) (cs : List Char) : Option (List Token × List Char) :=
  match cs with
  | '$' :: rest => (qname? rest).map fun (n, after) => ([.variableName (String.ofList n)], after)
  | '\'' :: rest => literal? '\'' rest
  | '"' :: rest => literal? '"' rest
  | _ =>
    if beginsNumber cs then
      let (spelling, after) := number cs
      some ([.number (String.ofList spelling)], after)
    else
      spelled? signs cs
      <|> spelled? [(['.'], nodesOn .self)] cs
      <|> (if operand then none else spelled? operators cs)
      <|> spelled? axes cs
      <|> spelled? nodeTests cs
      <|> targetTest? cs
      <|> named? cs

/-- The tokens of a text; `operand` tells that an operand is due at its front. -/
def tokens? (operand : Bool) (text : List Char) : Option (List Token) :=
  let cs := text.dropWhile Xml.isSpace
  if cs.isEmpty then some []
  else
    match lexeme operand cs with
    | none => none
    | some (ts, after) =>
      if _h : after.length < text.length then
        (tokens? ((ts.getLast?.map Token.allowsOperand).getD true) after).map (ts ++ ·)
      else none
termination_by text.length

/-- An expression of the first version of the language; it has no sequences. -/
def parse? (text : String) : Option Expr :=
  match tokens? true text.toList with
  | none => none
  | some ts =>
    match Grammar.expr ts with
    | .ok (e, []) => if e.subterms.any (·.isSequence) then none else some e
    | _ => none

end Schematron.XPath.Strict
