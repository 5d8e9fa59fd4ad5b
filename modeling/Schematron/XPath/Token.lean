import Schematron.Text.Quoted

namespace Schematron.XPath

inductive Token where
  | lparen | rparen | lbracket | rbracket
  | dot | dotDot | atSign | comma | colonColon | slash | doubleSlash
  | pipe | plus | minus | eq | notEq | lt | ltEq | gt | gtEq | multiply
  /-- A word such as `and` or `le` that stands between operands. -/
  | operatorName (name : String)
  /-- A name, `*` or a name with `:*` that stands where an operand is due. -/
  | nameTest (name : String)
  | nodeType (name : String)
  | functionName (name : String)
  | axisName (name : String)
  /-- A string without its quotes. -/
  | literal (value : String)
  /-- A number as it is spelled. -/
  | number (spelling : String)
  /-- A variable without its dollar sign. -/
  | variableName (name : String)
  deriving DecidableEq, Repr

namespace Token

/-- After such a token a name is an operand and a star selects all names. -/
def allowsOperand : Token → Bool
  | atSign | colonColon | lparen | lbracket | comma | operatorName _ | multiply | slash
  | doubleSlash | pipe | plus | minus | eq | notEq | lt | ltEq | gt | gtEq => true
  | _ => false

def kind : Token → String
  | lparen => "LParen" | rparen => "RParen" | lbracket => "LBracket" | rbracket => "RBracket"
  | dot => "Dot" | dotDot => "DotDot" | atSign => "At" | comma => "Comma"
  | colonColon => "ColonColon" | slash => "Slash" | doubleSlash => "DoubleSlash" | pipe => "Pipe"
  | plus => "Plus" | minus => "Minus" | eq => "Eq" | notEq => "NotEq" | lt => "Lt" | ltEq => "LtEq"
  | gt => "Gt" | gtEq => "GtEq" | multiply => "Multiply"
  | operatorName _ => "OperatorName" | nameTest _ => "NameTest" | nodeType _ => "NodeType"
  | functionName _ => "FunctionName" | axisName _ => "AxisName" | literal _ => "Literal"
  | number _ => "Number" | variableName _ => "Variable"

def value? : Token → Option String
  | operatorName s | nameTest s | nodeType s | functionName s | axisName s | literal s | number s
  | variableName s => some s
  | _ => none

/-- The form a token has in messages. -/
def shown (t : Token) : String :=
  match t.value? with
  | some v => t.kind ++ "(" ++ Text.quoted v ++ ")"
  | none => t.kind

/-- Operator words that the first version of the language does not have. -/
def isLaterOperator : Token → Bool
  | operatorName n => ["union", "eq", "ne", "lt", "le", "gt", "ge"].contains n
  | _ => false

end Token

/-- A token and the byte offset it begins at. -/
structure Spanned where
  token : Token
  offset : Nat
  deriving DecidableEq, Repr

inductive SyntaxCause where
  | unterminatedLiteral
  | missingVariableName
  | unexpectedCharacter (c : Char)
  | expected (wanted : Token) (found : Option Token)
  | expectedNodeTest (found : Option Token)
  | unexpected (found : Option Token)
  | unknownAxis (name : String)
  | trailing (found : Token)
  deriving DecidableEq, Repr

namespace SyntaxCause

def found (t : Option Token) : String := (t.map Token.shown).getD "end of expression"

def message : SyntaxCause → String
  | unterminatedLiteral => "unterminated string literal"
  | missingVariableName => "expected variable name after '$'"
  | unexpectedCharacter c => "unexpected character '" ++ c.toString ++ "'"
  | expected wanted t => "expected " ++ wanted.shown ++ ", found " ++ found t
  | expectedNodeTest t => "expected node test, found " ++ found t
  | unexpected t => "unexpected " ++ found t
  | unknownAxis name => "unknown axis '" ++ name ++ "'"
  | trailing t => "unexpected " ++ t.shown ++ " after complete expression"

end SyntaxCause

/-- What is wrong with an expression, and the byte offset of the fault. -/
structure ParseError where
  expression : String
  offset : Nat
  cause : SyntaxCause
  deriving DecidableEq, Repr

namespace ParseError

def message (e : ParseError) : String :=
  "Syntax error in '" ++ e.expression ++ "' at offset " ++ toString e.offset ++ ": " ++ e.cause.message

end ParseError

end Schematron.XPath
