import Schematron.Evaluation.Comparison
import Schematron.Evaluation.NodeTest
import Schematron.Evaluation.Order
import Schematron.Text.Case
import Schematron.Xml.Lexical
import Schematron.XPath.Printer

namespace Schematron.Evaluation

open Schematron.Xml

inductive Function where
  | last | position | count | localName | namespaceUri | name
  | string | concat | startsWith | contains | substringBefore | substringAfter | substring
  | stringLength | normalizeSpace | translate
  | boolean | not | true | false
  | number | sum | floor | ceiling | round
  | current
  | present | absent | distinctValues | lowerCase | upperCase | compare
  deriving DecidableEq, Repr

/-- How many arguments a function takes. -/
structure Arity where
  least : Nat
  most : Option Nat

namespace Arity

def exactly (n : Nat) : Arity := ⟨n, some n⟩

def between (least most : Nat) : Arity := ⟨least, some most⟩

def atLeast (n : Nat) : Arity := ⟨n, none⟩

def check (a : Arity) (actual : Nat) : Except ArgumentFault Unit :=
  if actual < a.least then .error (.tooFew a.least actual)
  else
    match a.most with
    | some most => if actual > most then .error (.tooMany most actual) else .ok ()
    | none => .ok ()

end Arity

namespace Function

def standard : List (String × Function) := [
  ("last", last), ("position", position), ("count", count), ("local-name", localName),
  ("namespace-uri", namespaceUri), ("name", name), ("string", string), ("concat", concat),
  ("starts-with", startsWith), ("contains", contains), ("substring-before", substringBefore),
  ("substring-after", substringAfter), ("substring", substring), ("string-length", stringLength),
  ("normalize-space", normalizeSpace), ("translate", translate), ("boolean", boolean), ("not", not),
  ("true", true), ("false", false), ("number", number), ("sum", sum), ("floor", floor),
  ("ceiling", ceiling), ("round", round)]

/-- Functions that the evaluator lends from later versions of the language. -/
def later : List (String × Function) := [
  ("exists", present), ("empty", absent), ("distinct-values", distinctValues),
  ("lower-case", lowerCase), ("upper-case", upperCase), (XPath.compareFunction, compare)]

/-- The function of a name, if there is one where it is asked for. -/
def find? (s : Setting) (name : String) : Option Function :=
  match standard.lookup name with
  | some f => some f
  | none =>
    if name = "current" then s.current.map fun _ => current
    else if s.language = .xpath2 then later.lookup name
    else none

def arity : Function → Arity
  | last | position | true | false | current => .exactly 0
  | count | boolean | not | sum | floor | ceiling | round => .exactly 1
  | present | absent | distinctValues | lowerCase | upperCase => .exactly 1
  | startsWith | contains | substringBefore | substringAfter | compare => .exactly 2
  | translate => .exactly 3
  | localName | namespaceUri | name | string | stringLength | normalizeSpace | number => .between 0 1
  | concat => .atLeast 2
  | substring => .between 2 3

end Function

/-- The part of a text before the first place where `mark` stands, and the part behind it. -/
def cutAt? (mark : List Char) : List Char → Option (List Char × List Char)
  | [] => if mark.isEmpty then some ([], []) else none
  | c :: rest =>
    match mark.isPrefixOf? (c :: rest) with
    | some after => some ([], after)
    | none => (cutAt? mark rest).map fun (before, after) => (c :: before, after)

/-- The characters whose place, counted from one, is in a range. Both ends of it are rounded. -/
def substringOf (s : String) (start : Float) (size : Option Float) : String :=
  let first := Number.roundHalfUp start
  let span := match size with
    | some n => Number.roundHalfUp n
    | none => Number.infinity
  String.ofList <| (s.toList.zipIdx 1).filterMap fun (c, i) =>
    let place := Float.ofNat i
    if place ≥ first && place < first + span then some c else none

/-- Runs of spaces made one space, and none at the ends. -/
def normalizeSpaces (s : String) : String :=
  let pieces := (s.toList.map fun c => if isSpace c then ' ' else c)
  " ".intercalate ((Text.splitAt ' ' pieces).filter (!·.isEmpty) |>.map String.ofList)

/-- Characters of `source` replaced by those of `target`; one without a partner is left out. -/
def translated (s source target : String) : String :=
  let pairs := source.toList.zipIdx.map fun (c, i) => (c, target.toList[i]?)
  String.ofList (s.toList.filterMap fun c => (pairs.lookup c).getD (some c))

/-- A name with a prefix that the nearest element declares for its namespace; of several the one that
it is written with. -/
def writtenName (d : Document) (n : Node) : String :=
  let write (name : Name) (preferred : Option String) : String :=
    match name.uri.bind (d.prefixOf? n.path preferred) with
    | some p => p ++ ":" ++ name.localPart
    | none => name.localPart
  match d.view? n with
  | some (.element e) => write e.name e.nsPrefix
  | some (.attribute _ a) => write a.name a.nsPrefix
  | some v => ((testedName v).map (·.localPart)).getD ""
  | none => ""

def expandedName? (d : Document) (n : Node) : Option Name := (d.view? n).bind testedName

/-- The first node of each string value, by document order. -/
def distinctNodes (d : Document) (ns : List Node) : List Node :=
  ns.foldl (fun kept n =>
    if kept.any (fun k => d.stringValue k == d.stringValue n) then kept else kept ++ [n]) []

namespace Function

variable (s : Setting) (focus : Focus)

def nodesIn : Value → Except ArgumentFault (List Node)
  | .nodes ns => .ok ns
  | v => .error (.notNodes v.typeName)

/-- The first argument, else the node of the focus. -/
def givenOrNode (args : List Value) : Value := args.head?.getD (.nodes [focus.node])

def textAt (args : List Value) (i : Nat) : String :=
  ((args[i]?).map (Value.toText s.document)).getD ""

def numberAt (args : List Value) (i : Nat) : Float :=
  ((args[i]?).map (Value.toNumber s.document)).getD Number.notANumber

/-- A text made of the first node of an argument, or of the focus. -/
def ofFirst (args : List Value) (f : Node → String) : Except ArgumentFault Value := do
  let ns ← nodesIn (givenOrNode focus args)
  return .text ((ns.head?.map f).getD "")

def charsAt (args : List Value) (i : Nat) : List Char := (textAt s args i).toList

/-- The value of a function for as many arguments as it takes. -/
def call (f : Function) (args : List Value) : Except ArgumentFault Value :=
  let d := s.document
  let first := givenOrNode focus args
  match f with
  | last => .ok (.number (Float.ofNat focus.size))
  | position => .ok (.number (Float.ofNat focus.position))
  | count => return .number (Float.ofNat (← nodesIn first).length)
  | localName => ofFirst focus args fun n => ((expandedName? d n).map (·.localPart)).getD ""
  | namespaceUri => ofFirst focus args fun n => ((expandedName? d n).bind (·.uri)).getD ""
  | name => ofFirst focus args (writtenName d)
  | string => .ok (.text (first.toText d))
  | concat => .ok (.text (String.join (args.map (Value.toText d))))
  | startsWith => .ok (.boolean ((charsAt s args 1).isPrefixOf (charsAt s args 0)))
  | contains => .ok (.boolean (cutAt? (charsAt s args 1) (charsAt s args 0)).isSome)
  | substringBefore =>
    .ok (.text (String.ofList (((cutAt? (charsAt s args 1) (charsAt s args 0)).map (·.1)).getD [])))
  | substringAfter =>
    .ok (.text (String.ofList (((cutAt? (charsAt s args 1) (charsAt s args 0)).map (·.2)).getD [])))
  | substring =>
    .ok (.text (substringOf (textAt s args 0) (numberAt s args 1) ((args[2]?).map (Value.toNumber d))))
  | stringLength => .ok (.number (Float.ofNat (first.toText d).length))
  | normalizeSpace => .ok (.text (normalizeSpaces (first.toText d)))
  | translate => .ok (.text (translated (textAt s args 0) (textAt s args 1) (textAt s args 2)))
  | boolean => .ok (.boolean first.toBoolean)
  | not => .ok (.boolean (!first.toBoolean))
  | true => .ok (.boolean Bool.true)
  | false => .ok (.boolean Bool.false)
  | number => .ok (.number (first.toNumber d))
  | sum => return .number ((← nodesIn first).foldl (fun x n => x + textNumber (d.stringValue n)) 0.0)
  | floor => .ok (.number (first.toNumber d).floor)
  | ceiling => .ok (.number (first.toNumber d).ceil)
  | round => .ok (.number (Number.roundHalfUp (first.toNumber d)))
  | current =>
    match s.current.bind (·.resolveFrom d focus.node) with
    | some n => .ok (.nodes [n])
    | none => .error .elsewhere
  | present =>
    match first with
    | .nodes ns => .ok (.boolean (!ns.isEmpty))
    | _ => .ok (.boolean Bool.true)
  | absent =>
    match first with
    | .nodes ns => .ok (.boolean ns.isEmpty)
    | _ => .ok (.boolean Bool.false)
  | distinctValues =>
    match first with
    | .nodes ns => .ok (.nodes (distinctNodes d ns))
    | v => .ok v
  | lowerCase => .ok (.text (Text.lower (first.toText d)))
  | upperCase => .ok (.text (Text.upper (first.toText d)))
  | compare =>
    match args with
    | [a, b] => .ok (.number (compareValues d a b))
    | _ => .ok (.number Number.notANumber)

/-- The arguments are counted before the function looks at them. -/
def apply (f : Function) (args : List Value) : Except Fault Value :=
  match f.arity.check args.length with
  | .error e => .error (.argument e)
  | .ok () => (call s focus f args).mapError Fault.argument

end Function

end Schematron.Evaluation
