import Schematron.Validation.Place
import Schematron.Validation.Report
import Schematron.Validation.Session
import Schematron.Xml.Instance
import Schematron.Xml.Location
import Schematron.Xml.Traversal

/-!
A run of a compiled schema over a document. At each node every active pattern fires the first of its
rules that matches; a fired rule evaluates its assertions and makes an event of each that is due.
-/

namespace Schematron.Validation

open Schematron.Evaluation
open Schematron.Xml

/-- A signal to stop, which a run looks for before each node. It may be set while the run is under way. -/
structure Signal where
  isSet : Node → Bool

/-- A signal that is set from the start, or never. -/
instance : Coe Bool Signal := ⟨fun set => ⟨fun _ => set⟩⟩

structure Options where
  phase : Option String
  /-- Evaluation errors are no reason to stop. -/
  lenient : Bool
  cancelled : Signal

inductive Stage where
  | idle
  | phaseSelected
  | traversing
  | nodeEvaluated
  | done
  | failed
  deriving DecidableEq, Repr

structure RunState where
  stage : Stage
  session : Session
  /-- Events so far. -/
  events : List Event

/-- A part of a run: it asks for queries, changes the state and may fail. -/
abbrev Run (α : Type) := ExceptT Failure (StateT RunState Queries) α

namespace Run

variable {α : Type}

def ask (place : Place) : Run (Except XPath.ParseError Query.Compiled) :=
  ExceptT.lift (StateT.lift (Queries.ask place))

def enter (stage : Stage) : Run Unit := modify fun s => { s with stage }

/-- Does something with the query at a place in the session. -/
def withQuery (place : Place)
    (f : Session → Query.Compiled → Except EvaluationError α × Session) :
    Run (Except EvaluationError α) := do
  match ← ask place with
  | .error e => return .error (.parse e)
  | .ok q =>
    let s ← get
    let (r, session) := f s.session q
    set { s with session }
    return r

/-- Goes on with `fallback` after an error that is no reason to stop. -/
def tolerate (o : Options) (fallback : α) : Except EvaluationError α → Run α
  | .ok a => return a
  | .error e =>
    match Failure.ofEvaluation e with
    | .evaluation e => if o.lenient then return fallback else throw (.evaluation e)
    | failure => throw failure

def pushScope : Run Unit := modify fun s => { s with session := s.session.push }

def popScope : Run Unit := do
  let s ← get
  match s.session.pop with
  | .ok session => set { s with session }
  | .error e => throw (.scope e)

def bindQuery (name : String) (node : Node) (q : Query.Compiled) : Run Unit := do
  let s ← get
  match s.session.bind name q node with
  | .ok session => set { s with session }
  | .error e => throw (.scope e)

/-- Binds a variable. One whose query does not compile may stay unbound. -/
def bindLet (o : Options) (place : Place) (name : String) (node : Node) : Run Unit := do
  match ← ask place with
  | .error e => tolerate o () (.error (.parse e))
  | .ok q => bindQuery name node q

def bindAll (o : Options) (place : Nat → Place) (lets : List Schema.Let) (node : Node) : Run Unit :=
  lets.zipIdx.forM fun (l, i) => bindLet o (place i) l.name node

/-- The text of a message, its white space made single spaces. -/
def render (o : Options) (place : Nat → Place) (message : Schema.Message) (node : Node) :
    Run String := do
  let pieces ← message.zipIdx.mapM fun (part, i) =>
    match part with
    | .text s => (return s : Run String)
    | _ => do tolerate o "" (← withQuery (place i) fun s q => s.evaluateText q node)
  return Text.normalizeBlanks (String.join pieces)

/-- The diagnostics that an assertion refers to. An id that the schema does not know is passed over. -/
def renderDiagnostics (o : Options) (schema : Schema.Compiled) (ids : List String) (node : Node) :
    Run (List Diagnostic) := do
  let found ← ids.mapM fun id => do
    match schema.document.diagnostics.get? id with
    | some message => return [⟨id, ← render o (.diagnosticPart id) message node⟩]
    | none => return []
  return found.flatten

def event (o : Options) (schema : Schema.Compiled) (pattern : Schema.Pattern) (rule : Schema.Rule)
    (a : Schema.Assertion) (place : Nat → Place) (node : Node) : Run Event := do
  let message ← render o place a.message node
  let diagnostics ← renderDiagnostics o schema a.diagnostics node
  return {
    patternId := pattern.id
    ruleId := rule.id
    assertionId := a.id
    kind := a.kind
    test := a.test
    message
    location := (← get).session.basis.document.location node
    role := a.role
    flag := a.flag
    diagnosticIds := a.diagnostics
    diagnostics }

/-- Evaluates the assertions of a rule at a node. -/
def fire (o : Options) (schema : Schema.Compiled) (pattern : Schema.Pattern) (p : Nat)
    (rule : Schema.Rule) (r : Nat) (node : Node) : Run Unit := do
  pushScope
  bindAll o (.ruleLet p r) rule.lets node
  rule.assertions.zipIdx.forM fun (a, i) => do
    let outcome ← withQuery (.test p r i) fun s q => s.evaluateTest q node
    if ← tolerate o false (outcome.map a.kind.fires) then
      let e ← event o schema pattern rule a (.messagePart p r i) node
      modify fun s => { s with events := s.events ++ [e] }
  popScope

/-- Fires the first rule that matches a node. -/
def fireFirst (o : Options) (schema : Schema.Compiled) (pattern : Schema.Pattern) (p : Nat)
    (node : Node) : List (Schema.Rule × Nat) → Run Unit
  | [] => return ()
  | (rule, r) :: rules => do
    let matched ← withQuery (.context p r) fun s q => s.isMatch q node
    if ← tolerate o false matched then fire o schema pattern p rule r node
    else fireFirst o schema pattern p node rules

def visit (o : Options) (schema : Schema.Compiled) (pattern : Schema.Pattern) (p : Nat) (node : Node) :
    Run Unit := do
  pushScope
  bindAll o (.patternLet p) pattern.lets Node.root
  fireFirst o schema pattern p node pattern.rules.zipIdx
  popScope

def traverse (o : Options) (schema : Schema.Compiled) : Run Report := do
  let phase ← (Schema.resolvePhase schema o.phase).mapError Failure.schema |> liftExcept
  enter .phaseSelected
  pushScope
  bindAll o .schemaLet schema.document.lets Node.root
  bindAll o (.phaseLet phase.id) phase.lets Node.root
  enter .traversing
  let nodes := (← get).session.basis.document.order
  nodes.forM fun node => do
    if o.cancelled.isSet node then throw .cancelled
    phase.patterns.forM fun (pattern, p) => visit o schema pattern p node
    enter .nodeEvaluated
  popScope
  enter .done
  return ⟨phase.id, (← get).events, nodes.length⟩
where
  liftExcept {α : Type} (r : Except Failure α) : Run α := ExceptT.mk (return r)

/-- The state before a run. -/
def initial (schema : Schema.Compiled) (d : Document) : RunState := {
  stage := .idle
  session := .start {
    document := d
    language := schema.language
    prefixes := schema.document.namespaces.map fun n => (n.nsPrefix, n.uri) }
  events := [] }

/-- A whole run: its result, and the state it ends in. -/
def execute (o : Options) (schema : Schema.Compiled) (d : Document) :
    Queries (Except Failure Report × RunState) := do
  match ← (traverse o schema).run.run (initial schema d) with
  | (.ok report, s) => return (.ok report, s)
  | (.error e, s) => return (.error e, { s with stage := .failed })

end Run

/-- Validates a document with queries compiled on the spot. -/
def validate (o : Options) (schema : Schema.Compiled) (d : Document) : Except Failure Report :=
  ((Run.execute o schema d).runAnew schema).1

/-- Validates a document with the compiled queries that earlier runs left, and leaves its own. -/
def validateShared (o : Options) (schema : Schema.Compiled) (d : Document) (slots : Slots) :
    Except Failure Report × Slots :=
  let ((r, _), slots) := (Run.execute o schema d).runShared schema slots
  (r, slots)

/-- Reads the text of a document and validates it. -/
def validateText (o : Options) (schema : Schema.Compiled) (origin text : String) (slots : Slots) :
    Except Failure Report × Slots :=
  match Xml.Instance.parse text with
  | some d => validateShared o schema d slots
  | none => (.error (.illFormed origin), slots)

/-- Validates texts one after the other; they share the compiled queries. -/
def validateTexts (o : Options) (schema : Schema.Compiled) :
    List String → Slots → List (Except Failure Report) × Slots
  | [], slots => ([], slots)
  | text :: texts, slots =>
    let (r, slots) := validateText o schema "<input>" text slots
    let (rs, slots) := validateTexts o schema texts slots
    (r :: rs, slots)

end Schematron.Validation
