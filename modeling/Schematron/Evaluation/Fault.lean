import Schematron.Evaluation.Value
import Schematron.Text.Quoted

namespace Schematron.Evaluation

open Schematron.Xml (QName)

/-- What is wrong with the arguments of a function, or with the place where it is called. -/
inductive ArgumentFault where
  | tooFew (least actual : Nat)
  | tooMany (most actual : Nat)
  | notNodes (actual : String)
  /-- The document has no node at the address of the current one. -/
  | elsewhere
  deriving DecidableEq, Repr

/-- Why an expression has no value. -/
inductive Fault where
  | notNodes
  | unknownFunction (name : QName)
  | unknownVariable (name : QName)
  | unknownPrefix (nsPrefix : String)
  | argument (fault : ArgumentFault)
  /-- A name test met a node while its prefix means nothing. Evaluation breaks off there and then. -/
  | brokenTest (nsPrefix : String)
  deriving DecidableEq, Repr

def ArgumentFault.message : ArgumentFault → String
  | tooFew least actual =>
    "not enough arguments, expected " ++ toString least ++ " but had " ++ toString actual
  | tooMany most actual =>
    "too many arguments, expected " ++ toString most ++ " but had " ++ toString actual
  | notNodes actual => "argument was expected to be a nodeset but was a " ++ actual
  | elsewhere => "could not evaluate function: current() node is not in this document"

/-- A name with its parts apart. -/
def nameShown (name : QName) : String :=
  let first := match name.nsPrefix with
    | none => "None"
    | some p => "Some(" ++ Text.quoted p ++ ")"
  "OwnedPrefixedName \x7b prefix: " ++ first ++ ", local_part: " ++ Text.quoted name.localPart ++ " \x7d"

def Fault.message : Fault → String
  | notNodes => "NotANodeset"
  | unknownFunction name => "unknown function " ++ nameShown name
  | unknownVariable name => "unknown variable " ++ nameShown name
  | unknownPrefix p => "unknown namespace prefix " ++ p
  | argument fault => "error while evaluating function: " ++ fault.message
  | brokenTest p => "no namespace for prefix " ++ p

end Schematron.Evaluation
