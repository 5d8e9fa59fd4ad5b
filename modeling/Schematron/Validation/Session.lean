import Schematron.Validation.Environment

namespace Schematron.Validation

open Schematron.Evaluation
open Schematron.Xml

/-- The evaluation of queries on one document: what is bound and remembered. -/
structure Session where
  basis : Basis
  memory : Memory
  /-- Nodes that contexts without variables select, by the text of the context. -/
  selections : List (String × List Node)

namespace Session

def start (b : Basis) : Session := ⟨b, ⟨[], []⟩, []⟩

/-- The number of open scopes. -/
def depth (s : Session) : Nat := s.memory.scopes.length

def withScopes (s : Session) (scopes : List (List Cell)) : Session :=
  { s with memory := { s.memory with scopes } }

/-- Opens a scope. -/
def push (s : Session) : Session := s.withScopes (s.memory.scopes ++ [[]])

/-- Closes the innermost scope. -/
def pop (s : Session) : Except ScopeError Session :=
  if s.memory.scopes.isEmpty then .error .underflow else .ok (s.withScopes s.memory.scopes.dropLast)

/-- Binds a variable in the innermost scope. -/
def bind (s : Session) (name : String) (query : Query.Compiled) (node : Node) :
    Except ScopeError Session :=
  match s.memory.scopes.getLast? with
  | none => .error .underflow
  | some scope =>
    if scope.any (·.binding.name = name) then .error (.duplicateBinding name)
    else
      let cell : Cell := ⟨⟨name, query, node⟩, .pending⟩
      .ok (s.withScopes (s.memory.scopes.dropLast ++ [scope ++ [cell]]))

/-- Does what needs the memory only, and sees all that is bound. -/
def remember {α : Type} (s : Session) (f : Basis → Horizon → Memory → Result α) :
    Except EvaluationError α × Session :=
  let (r, memory) := f s.basis s.memory.horizon s.memory
  (r, { s with memory })

/-- The value of a query at a node. -/
def evaluate (s : Session) (q : Query.Compiled) (node : Node) : Except EvaluationError Value × Session :=
  s.remember fun b h => queryValue b (variableAt b h) q node

def variableValue (s : Session) (name : String) : Except EvaluationError Value × Session :=
  s.remember fun b h => variableAt b h name

/-- The nodes that the context of a rule selects. -/
def selection (s : Session) (q : Query.Compiled) : Except EvaluationError (List Node) × Session :=
  let known := if q.variableNames.isEmpty then s.selections.lookup q.text else none
  match known with
  | some ns => (.ok ns, s)
  | none =>
    match s.evaluate q Node.root with
    | (.error e, s) => (.error e, s)
    | (.ok (.nodes ns), s) =>
      if q.variableNames.isEmpty then (.ok ns, { s with selections := (q.text, ns) :: s.selections })
      else (.ok ns, s)
    | (.ok _, s) => (.error (.notSelecting q.source), s)

/-- Whether the context of a rule matches a node. A variable matches the nodes it holds. -/
def isMatch (s : Session) (q : Query.Compiled) (node : Node) : Except EvaluationError Bool × Session :=
  match q.variableRef with
  | some name =>
    match s.variableValue name with
    | (.error e, s) => (.error e, s)
    | (.ok (.nodes ns), s) => (.ok (ns.contains node), s)
    | (.ok _, s) => (.ok false, s)
  | none =>
    match s.selection q with
    | (.error e, s) => (.error e, s)
    | (.ok ns, s) => (.ok (ns.contains node), s)

def evaluateText (s : Session) (q : Query.Compiled) (node : Node) :
    Except EvaluationError String × Session :=
  let (r, s) := s.evaluate q node
  (r.map (Value.toText s.basis.document), s)

def evaluateTest (s : Session) (q : Query.Compiled) (node : Node) :
    Except EvaluationError Bool × Session :=
  let (r, s) := s.evaluate q node
  (r.map Value.toBoolean, s)

end Session

end Schematron.Validation
