import Schematron.XPath.Expr
import Schematron.XPath.Tokenize

namespace Schematron.XPath

/-- A fault, with the tokens that are left where it was met. -/
structure GrammarError where
  rest : List Token
  cause : SyntaxCause

abbrev Parser := StateT (List Token) (Except GrammarError)

namespace Grammar

variable {α β : Type}

def fail (cause : SyntaxCause) : Parser α := do
  throw ⟨← get, cause⟩

def next? : Parser (Option Token) := return (← get).head?

def expect (wanted : Token) : Parser Unit := do
  match ← get with
  | t :: rest => if t = wanted then set rest else fail (.expected wanted t)
  | [] => fail (.expected wanted none)

/-- An item behind every token that `lead` knows, as long as one is next. -/
def repeated (lead : Token → Option β) (item : β → Parser α) : Parser (List α)
  | [] => .ok ([], [])
  | t :: rest =>
    match lead t with
    | none => .ok ([], t :: rest)
    | some b =>
      match item b rest with
      | .error e => .error e
      | .ok (a, after) =>
        if after.length ≤ rest.length then
          match repeated lead item after with
          | .error e => .error e
          | .ok (as, last) => .ok (a :: as, last)
        else .ok ([a], after)
termination_by ts => ts.length

/-- Operands with operators between them, grouped to the left. -/
def chain (op : Token → Option (Expr → Expr → Expr)) (operand : Parser Expr) : Parser Expr := do
  let first ← operand
  let more ← repeated op fun join => do return (join, ← operand)
  return more.foldl (fun left (join, right) => join left right) first

def orOp : Token → Option (Expr → Expr → Expr)
  | .operatorName n => if n = "or" then some (.binary .or) else none
  | _ => none

def andOp : Token → Option (Expr → Expr → Expr)
  | .operatorName n => if n = "and" then some (.binary .and) else none
  | _ => none

def equalityOp : Token → Option (Expr → Expr → Expr)
  | .eq => some (.binary .eq)
  | .notEq => some (.binary .notEq)
  | .operatorName n =>
    if n = "eq" then some (.binary .eq) else if n = "ne" then some (.binary .notEq) else none
  | _ => none

def relationalOp : Token → Option (Expr → Expr → Expr)
  | .lt => some (.binary .lt)
  | .ltEq => some (.binary .ltEq)
  | .gt => some (.binary .gt)
  | .gtEq => some (.binary .gtEq)
  | .operatorName n =>
    if n = "lt" then some (.binary .lt) else if n = "le" then some (.binary .ltEq)
    else if n = "gt" then some (.binary .gt) else if n = "ge" then some (.binary .gtEq) else none
  | _ => none

def additiveOp : Token → Option (Expr → Expr → Expr)
  | .plus => some (.binary .add)
  | .minus => some (.binary .sub)
  | _ => none

def multiplicativeOp : Token → Option (Expr → Expr → Expr)
  | .multiply => some (.binary .mul)
  | .operatorName n =>
    if n = "div" then some (.binary .div) else if n = "mod" then some (.binary .mod) else none
  | _ => none

def unionOp : Token → Option (Expr → Expr → Expr)
  | .pipe => some .union
  | .operatorName n => if n = "union" then some .union else none
  | _ => none

/-- Minus signs before an operand, the innermost last. -/
def unary (operand : Parser Expr) : Parser Expr
  | .minus :: rest =>
    match unary operand rest with
    | .error e => .error e
    | .ok (e, after) => .ok (.negate e, after)
  | ts => operand ts

def startsStep : Option Token → Bool
  | some .dot | some .dotDot | some .atSign | some (.axisName _) | some (.nameTest _)
  | some (.nodeType _) => true
  | _ => false

/-- The test that a name stands for. -/
def nameTest (name : String) : NodeTest :=
  if name = "*" then .wildcard
  else
    match name.toList.reverse with
    | '*' :: ':' :: nsPrefix => .wildcardIn (String.ofList nsPrefix.reverse)
    | _ => .name name

/-- The target that may stand in the parentheses of a test for processing instructions. -/
def target? : Parser (Option String) := do
  match ← get with
  | .literal value :: rest => set rest; return some value
  | _ => return none

def typeTest (kind : String) : Parser NodeTest := do
  expect .lparen
  let test ←
    if kind = "node" then pure .node
    else if kind = "text" then pure .text
    else if kind = "comment" then pure .comment
    else NodeTest.instruction <$> target?
  expect .rparen
  return test

def nodeTest : Parser NodeTest := do
  match ← get with
  | .nameTest name :: rest => set rest; return nameTest name
  | .nodeType kind :: rest => set rest; typeTest kind
  | t :: _ => fail (.expectedNodeTest t)
  | [] => fail (.expectedNodeTest none)

/-- The axis that a step names, else the child axis. -/
def axis : Parser Axis := do
  match ← get with
  | .atSign :: rest => set rest; return .attributes
  | .axisName name :: rest =>
    match Axis.ofName? name with
    | some a => set rest; expect .colonColon; return a
    | none => fail (.unknownAxis name)
  | _ => return .child

def isBracket : Token → Option Unit
  | .lbracket => some ()
  | _ => none

def isComma : Token → Option Unit
  | .comma => some ()
  | _ => none

/-- `nested` reads what stands between brackets, here and in all below. -/
def predicates (nested : Parser Expr) : Parser (List Expr) :=
  repeated isBracket fun _ => do
    let e ← nested
    expect .rbracket
    return e

def step (nested : Parser Expr) : Parser (Step Expr) := do
  match ← get with
  | .dot :: rest => set rest; return .bare .self .node
  | .dotDot :: rest => set rest; return .bare .parent .node
  | _ => return ⟨← axis, ← nodeTest, ← predicates nested⟩

/-- What a token between two steps adds before the second. -/
def stepOp : Token → Option (List (Step Expr))
  | .slash => some []
  | .doubleSlash => some [.descendantOrSelf]
  | _ => none

def steps (nested : Parser Expr) : Parser (List (Step Expr)) := do
  let first ← step nested
  let more ← repeated stepOp fun between => do return between ++ [← step nested]
  return first :: more.flatten

/-- Expressions with commas between them. -/
def commaList (nested : Parser Expr) : Parser (List Expr) := do
  let first ← nested
  let more ← repeated isComma fun _ => nested
  return first :: more

def arguments (nested : Parser Expr) : Parser (List Expr) := do
  if (← next?) = some .rparen then
    expect .rparen
    return []
  let args ← commaList nested
  expect .rparen
  return args

/-- What follows an open parenthesis: one expression is a group, any other number a sequence. -/
def parenthesized (nested : Parser Expr) : Parser Expr := do
  match ← arguments nested with
  | [e] => return .group e
  | items => return .sequence items

def primary (nested : Parser Expr) : Parser Expr := do
  match ← get with
  | .variableName name :: rest => set rest; return .variableRef name
  | .literal value :: rest => set rest; return .literal value
  | .number spelling :: rest => set rest; return .number spelling
  | .functionName name :: rest =>
    set rest
    expect .lparen
    return .call name (← arguments nested)
  | .lparen :: rest => set rest; parenthesized nested
  | t :: _ => fail (.unexpected t)
  | [] => fail (.unexpected none)

def filter (nested : Parser Expr) : Parser Expr := do
  let e ← primary nested
  match ← predicates nested with
  | [] => return e
  | preds => return .filter e preds

def path (nested : Parser Expr) : Parser Expr := do
  match ← get with
  | .slash :: rest =>
    set rest
    if startsStep rest.head? then return .absolute (← steps nested) else return .absolute []
  | .doubleSlash :: rest =>
    set rest
    return .absolute (.descendantOrSelf :: (← steps nested))
  | ts =>
    if startsStep ts.head? then return .relative (← steps nested)
    let start ← filter nested
    match ← get with
    | .slash :: rest => set rest; return .continued start (← steps nested)
    | .doubleSlash :: rest =>
      set rest
      return .continued start (.descendantOrSelf :: (← steps nested))
    | _ => return start

/-- All levels of the grammar over `nested`. -/
def level (nested : Parser Expr) : Parser Expr :=
  chain orOp <| chain andOp <| chain equalityOp <| chain relationalOp <| chain additiveOp <|
    chain multiplicativeOp <| unary <| chain unionOp <| path nested

/-- An expression. What stands between its brackets has fewer tokens than it. -/
def expr : Parser Expr := fun ts =>
  level (fun inner => if inner.length < ts.length then expr inner else .error ⟨inner, .unexpected none⟩) ts
termination_by ts => ts.length

end Grammar

structure Parsed where
  expr : Expr
  /-- The source has a value comparison, the word `union` or a sequence. -/
  laterSyntax : Bool

/-- The byte offset of the place where `rest` tokens are left. -/
def offsetAt (source : String) (tokens : List Spanned) (rest : Nat) : Nat :=
  match tokens[tokens.length - rest]? with
  | some t => t.offset
  | none => byteLength source.toList

def parseWith (rule : QuoteRule) (source : String) : Except ParseError Parsed := do
  let tokens ← tokenizeWith rule source
  match Grammar.expr (tokens.map (·.token)) with
  | .error e => throw ⟨source, offsetAt source tokens e.rest.length, e.cause⟩
  | .ok (_, t :: rest) => throw ⟨source, offsetAt source tokens (rest.length + 1), .trailing t⟩
  | .ok (e, []) =>
    return ⟨e, tokens.any (·.token.isLaterOperator) || e.subterms.any (·.isSequence)⟩

/-- The tree of an expression; a quote inside a literal may be written twice. -/
def parse (source : String) : Except ParseError Parsed := parseWith .doubled source

end Schematron.XPath
