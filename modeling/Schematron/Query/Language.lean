import Schematron.Text.Case
import Schematron.XPath.FirstVersion

namespace Schematron.Query

open Schematron.XPath

inductive Language where
  /-- The first version of the language, with nothing added. -/
  | xpath
  /-- The first version, with the function `current`. -/
  | xslt
  /-- Part of a later version, expressed in the first. -/
  | xpath2
  deriving DecidableEq, Repr

namespace Language

def name : Language → String
  | xpath => "xpath"
  | xslt => "xslt"
  | xpath2 => "xpath2"

/-- The language that a query binding names; a schema that names none uses `xslt`. -/
def ofBinding? : Option String → Option Language
  | none => some xslt
  | some binding =>
    let key := Text.asciiLower (Text.trim binding)
    if ["xpath", "xpath1"].contains key then some xpath
    else if ["", "xslt", "xslt1"].contains key then some xslt
    else if ["xpath2", "xpath3", "xpath31", "xslt2", "xslt3"].contains key then some xpath2
    else none

def hasCurrent : Language → Bool
  | xpath => false
  | _ => true

end Language

/-- An expression ready for the evaluator. -/
structure Compiled where
  source : String
  text : String
  /-- The text says the same in other words. -/
  changed : Bool
  variableNames : List String
  usesCurrent : Bool
  /-- The name, when the whole expression is one variable. -/
  variableRef : Option String
  deriving DecidableEq, Repr

/-- An expression evaluated at a node: a test, the value of a variable, a part of a message. -/
def compile (language : Language) (source : String) : Except ParseError Compiled := do
  let parsed ← parse source
  let result := if language = .xpath2 then parsed.firstVersion source else ⟨Text.trim source, false⟩
  return {
    source
    text := result.text
    changed := result.changed
    variableNames := parsed.expr.variableNames
    usesCurrent := language.hasCurrent && parsed.expr.calls "current" 0
    variableRef := parsed.expr.asVariable }

/-- The context of a rule. One variable stays as it is, all else selects nodes from the root. -/
def compilePattern (language : Language) (source : String) : Except ParseError Compiled := do
  let parsed ← parse source
  match parsed.expr.asVariable with
  | some name =>
    return {
      source, text := Text.trim source, changed := false, variableNames := [name], usesCurrent := false
      variableRef := some name }
  | none =>
    let selection := anchor parsed.expr
    return {
      source
      text := emit (language == .xpath2) selection
      changed := true
      variableNames := selection.variableNames
      usesCurrent := language.hasCurrent && selection.calls "current" 0
      variableRef := none }

/-- What a query is for. -/
inductive Role where
  | expression
  | context
  deriving DecidableEq, Repr

def compileAs (language : Language) : Role → String → Except ParseError Compiled
  | .expression => compile language
  | .context => compilePattern language

end Schematron.Query
