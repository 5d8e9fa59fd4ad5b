import Schematron.Evaluation.Value
import Schematron.XPath.Expr

namespace Schematron.Evaluation

open Schematron.Xml
open Schematron.XPath (BinaryOp)

variable (d : Document)

/-- A set of nodes equals a number or a text if one of its nodes does, and another set if they share a
string value. Else the operands are compared as booleans, as numbers or as texts, in this order of
preference. -/
def equal (left right : Value) : Bool :=
  match left, right with
  | .nodes ns, .nodes ms =>
    let texts := ms.map d.stringValue
    ns.any fun n => texts.contains (d.stringValue n)
  | .boolean a, v | v, .boolean a => a == v.toBoolean
  | .nodes ns, .number x | .number x, .nodes ns => ns.any fun n => textNumber (d.stringValue n) == x
  | .nodes ns, .text s | .text s, .nodes ns => ns.any fun n => d.stringValue n == s
  | .number x, v | v, .number x => v.toNumber d == x
  | .text a, .text b => a == b

/-- Comparison by order, of numbers. -/
def inRelation (op : BinaryOp) (left right : Value) : Bool :=
  let x := left.toNumber d
  let y := right.toNumber d
  match op with
  | .lt => x < y
  | .ltEq => x ≤ y
  | .gt => x > y
  | .gtEq => x ≥ y
  | _ => false

/-- An operand of a comparison in the way of later versions of the language. -/
inductive Atom where
  | missing
  | number (x : Float)
  | text (s : String)

namespace Atom

def ofValue : Value → Atom
  | .nodes [] => missing
  | .nodes (n :: _) => text (d.stringValue n)
  | .number x => number x
  | .boolean b => number (if b then 1.0 else 0.0)
  | .text s => text s

def number? : Atom → Option Float
  | missing => none
  | number x => some x
  | text s => Number.readTrimmed? s

def toText : Atom → String
  | missing => ""
  | number x => numberText x
  | text s => s

end Atom

/-- The order of two numbers, if they have one. -/
def numberOrder (x y : Float) : Option Ordering :=
  if x < y then some .lt else if x == y then some .eq else if x > y then some .gt else none

def textOrder (s t : String) : Ordering := if s < t then .lt else if s = t then .eq else .gt

/-- The order of two operands: by number if both spell one, else by code points. -/
def atomOrder : Atom → Atom → Option Ordering
  | .missing, _ | _, .missing => none
  | a, b =>
    match a.number?, b.number? with
    | some x, some y => numberOrder x y
    | _, _ => some (textOrder a.toText b.toText)

/-- The order of two values as -1, 0 or 1; not a number where they have none. -/
def compareValues (left right : Value) : Float :=
  match atomOrder (.ofValue d left) (.ofValue d right) with
  | some .lt => -1.0
  | some .eq => 0.0
  | some .gt => 1.0
  | none => Number.notANumber

end Schematron.Evaluation
