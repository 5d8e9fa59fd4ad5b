import Schematron.Query.Language
import Schematron.Schema.Extension
import Schematron.Schema.Parameters

namespace Schematron.Schema

/-- A schema in executable form: no abstract pattern or rule is left, and nothing to inherit. -/
structure Compiled where
  document : Document
  language : Query.Language
  deriving DecidableEq, Repr

def firstRepeated? : List String → Option String
  | [] => none
  | ids => go [] ids
where
  go (seen : List String) : List String → Option String
    | [] => none
    | id :: rest => if seen.contains id then some id else go (id :: seen) rest

def checkPatternIds (d : Document) : Except SchemaError Unit :=
  match firstRepeated? (d.patterns.filterMap (·.id)) with
  | some id => .error (.duplicatePattern id)
  | none => .ok ()

def checkActive (d : Document) (phase : Phase) (id : String) : Except SchemaError Unit :=
  match d.pattern? id with
  | none => .error (.unknownActive phase.id id)
  | some p => if p.isAbstract then .error (.abstractActive phase.id id) else .ok ()

def checkPhases (d : Document) : Except SchemaError Unit :=
  d.phases.forM fun (_, phase) => phase.active.forM (checkActive d phase)

/-- The patterns to run, with abstract ones instantiated. -/
def concretePatterns (d : Document) : Except SchemaError (List Pattern) :=
  (d.patterns.filter (!·.isAbstract)).mapM fun p =>
    match p.base with
    | some base => instantiate d p base
    | none => .ok p

/-- The pattern at `home` with its rules written out and no trace of how it came to be. -/
def flattenPattern (patterns : List Pattern) (home : Nat) (p : Pattern) : Except SchemaError Pattern :=
  match (p.rules.filter (!·.isAbstract)).mapM (flatten patterns home) with
  | .error e => .error e
  | .ok rules => .ok { p with rules, isAbstract := false, base := none, parameters := [] }

def compile (d : Document) : Except SchemaError Compiled :=
  match Query.Language.ofBinding? d.queryBinding with
  | none => .error (.unsupportedBinding (d.queryBinding.getD ""))
  | some language => do
    checkPatternIds d
    checkPhases d
    let patterns ← concretePatterns d
    let flat ← patterns.zipIdx.mapM fun (p, i) => flattenPattern patterns i p
    return ⟨{ d with patterns := flat }, language⟩

/-- What a run has to do: the patterns, each with its index in the schema, and the variables of the
phase. -/
structure ActivePhase where
  id : String
  patterns : List (Pattern × Nat)
  lets : List Let

/-- The phase asked for, else the schema's default, else all patterns. -/
def resolvePhase (s : Compiled) (requested : Option String) : Except SchemaError ActivePhase :=
  let id := (requested <|> s.document.defaultPhase).getD allPhase
  if id = allPhase then .ok ⟨id, s.document.patterns.zipIdx, []⟩
  else
    match s.document.phases.get? id with
    | none => .error (.unknownPhase id)
    | some phase =>
      .ok ⟨id, s.document.patterns.zipIdx.filter fun (p, _) => p.id.any phase.active.contains, phase.lets⟩

end Schematron.Schema
