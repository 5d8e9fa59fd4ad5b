import Schematron.Table
import Schematron.Text.Blank

namespace Schematron.Schema

def isoNamespace : String := "http://purl.oclc.org/dsdl/schematron"

/-- The namespace of the version before the standard. -/
def earlyNamespace : String := "http://www.ascc.net/xml/schematron"

/-- The phase that activates every pattern. -/
def allPhase : String := "#ALL"

/-- A namespace that queries may name by `nsPrefix`. -/
structure Namespace where
  nsPrefix : String
  uri : String
  deriving DecidableEq, Repr

/-- A variable and the query for its value. -/
structure Let where
  name : String
  value : String
  deriving DecidableEq, Repr

inductive MessagePart where
  | text (s : String)
  /-- The string value of a query. -/
  | valueOf (select : String)
  /-- The name of a node, by a query that asks for it. -/
  | name (select : String)
  deriving DecidableEq, Repr

def MessagePart.select? : MessagePart → Option String
  | .text _ => none
  | .valueOf s | .name s => some s

def MessagePart.mapQuery (f : String → String) : MessagePart → MessagePart
  | .text s => .text s
  | .valueOf s => .valueOf (f s)
  | .name s => .name (f s)

abbrev Message := List MessagePart

inductive AssertionKind where
  | assert
  | report
  deriving DecidableEq, Repr

namespace AssertionKind

def name : AssertionKind → String
  | assert => "assert"
  | report => "report"

/-- Whether a diagnostic is due: an assert asks for a true test, a report speaks up at one. -/
def fires : AssertionKind → Bool → Bool
  | assert, test => !test
  | report, test => test

end AssertionKind

structure Assertion where
  id : Option String
  kind : AssertionKind
  test : String
  message : Message
  diagnostics : List String
  role : Option String
  flag : Option String
  subject : Option String
  icon : Option String
  deriving DecidableEq, Repr

structure Rule where
  id : Option String
  /-- The nodes the rule is for; empty in an abstract rule. -/
  context : String
  isAbstract : Bool
  /-- Ids of the rules that this one extends. -/
  bases : List String
  lets : List Let
  assertions : List Assertion
  deriving DecidableEq, Repr

structure Pattern where
  id : Option String
  title : Option String
  isAbstract : Bool
  /-- Id of the abstract pattern that this one instantiates. -/
  base : Option String
  parameters : Table String
  lets : List Let
  rules : List Rule
  deriving DecidableEq, Repr

structure Phase where
  id : String
  /-- Ids of the patterns that the phase activates. -/
  active : List String
  lets : List Let
  deriving DecidableEq, Repr

structure Document where
  id : Option String
  title : Option String
  schemaVersion : Option String
  queryBinding : Option String
  defaultPhase : Option String
  namespaces : List Namespace
  lets : List Let
  phases : Table Phase
  diagnostics : Table Message
  patterns : List Pattern
  deriving DecidableEq, Repr

namespace Let

def mapQuery (f : String → String) (l : Let) : Let := { l with value := f l.value }

end Let

namespace Rule

/-- The name a rule goes by in messages and in the search for cycles. -/
def label (r : Rule) : String := r.id.getD ("rule[@context='" ++ r.context ++ "']")

/-- The context is a variable, as far as its first character tells. -/
def contextIsVariable (r : Rule) : Bool := (Text.skipBlanks r.context.toList).head? = some '$'

def mapQueries (f : String → String) (r : Rule) : Rule :=
  { r with
    context := f r.context
    lets := r.lets.map (·.mapQuery f)
    assertions := r.assertions.map fun a =>
      { a with test := f a.test, message := a.message.map (·.mapQuery f) } }

end Rule

namespace Pattern

def idOrEmpty (p : Pattern) : String := p.id.getD ""

/-- All queries in a pattern. -/
def queries (p : Pattern) : List String :=
  p.lets.map (·.value) ++ p.rules.flatMap fun r =>
    r.context :: r.lets.map (·.value) ++ r.assertions.flatMap fun a =>
      a.test :: a.message.filterMap (·.select?)

end Pattern

namespace Document

def empty : Document := ⟨none, none, none, none, none, [], [], [], [], []⟩

def pattern? (d : Document) (id : String) : Option Pattern := d.patterns.find? (·.id = some id)

end Document

end Schematron.Schema
