import Schematron.Number.Reading
import Schematron.Number.Shortest
import Schematron.Xml.Node

namespace Schematron.Evaluation

open Schematron.Xml

inductive Value where
  | boolean (b : Bool)
  | number (x : Float)
  | text (s : String)
  /-- A set of nodes, in document order. -/
  | nodes (ns : List Node)

/-- The text of a number. -/
def numberText (x : Float) : String := Number.spell "Infinity" x

/-- The number that a text spells; any other text is not a number. -/
def textNumber (s : String) : Float := (Number.readTrimmed? s).getD Number.notANumber

namespace Value

def typeName : Value → String
  | boolean _ => "Boolean"
  | number _ => "Number"
  | text _ => "String"
  | nodes _ => "Nodeset"

/-- A set of nodes has the string value of its first node. -/
def toText (d : Document) : Value → String
  | boolean b => if b then "true" else "false"
  | number x => numberText x
  | text s => s
  | nodes ns => (ns.head?.map d.stringValue).getD ""

def toNumber (d : Document) : Value → Float
  | boolean b => if b then 1.0 else 0.0
  | number x => x
  | v => textNumber (v.toText d)

def toBoolean : Value → Bool
  | boolean b => b
  | number x => !(x == 0.0 || x.isNaN)
  | text s => s ≠ ""
  | nodes ns => !ns.isEmpty

end Value

end Schematron.Evaluation
