import Schematron.Query.Slot
import Schematron.Schema.Compiled

namespace Schematron.Validation

open Schematron.Query (Role Slot)

/-- Where a query stands in a compiled schema. Patterns, rules and what they hold go by their index. -/
inductive Place where
  | schemaLet (index : Nat)
  | phaseLet (phase : String) (index : Nat)
  | patternLet (pattern index : Nat)
  | context (pattern rule : Nat)
  | ruleLet (pattern rule index : Nat)
  | test (pattern rule assertion : Nat)
  | messagePart (pattern rule assertion part : Nat)
  | diagnosticPart (id : String) (part : Nat)
  deriving DecidableEq, Repr

namespace Place

def role : Place → Role
  | context _ _ => .context
  | _ => .expression

def letSource (lets : List Schema.Let) (index : Nat) : Option String := lets[index]?.map (·.value)

def partSource (message : Schema.Message) (index : Nat) : Option String :=
  message[index]?.bind (·.select?)

def rule? (d : Schema.Document) (pattern rule : Nat) : Option Schema.Rule :=
  d.patterns[pattern]?.bind (·.rules[rule]?)

def assertion? (d : Schema.Document) (pattern rule assertion : Nat) : Option Schema.Assertion :=
  (rule? d pattern rule).bind (·.assertions[assertion]?)

/-- The text of the query at a place. -/
def source? (d : Schema.Document) : Place → Option String
  | schemaLet i => letSource d.lets i
  | phaseLet phase i => (d.phases.get? phase).bind (letSource ·.lets i)
  | patternLet p i => d.patterns[p]?.bind (letSource ·.lets i)
  | context p r => (rule? d p r).map (·.context)
  | ruleLet p r i => (rule? d p r).bind (letSource ·.lets i)
  | test p r a => (assertion? d p r a).map (·.test)
  | messagePart p r a i => (assertion? d p r a).bind (partSource ·.message i)
  | diagnosticPart id i => (d.diagnostics.get? id).bind (partSource · i)

end Place

/-- The compiled form of the query at a place, made on the spot. -/
def compileAt (s : Schema.Compiled) (place : Place) : Except XPath.ParseError Query.Compiled :=
  Query.compileAs s.language place.role ((place.source? s.document).getD "")

/-- What asks for compiled queries on its way to a result. -/
inductive Queries (α : Type) where
  | done (a : α)
  | fetch (place : Place) (next : Except XPath.ParseError Query.Compiled → Queries α)

namespace Queries

variable {α β : Type}

def bind : Queries α → (α → Queries β) → Queries β
  | done a, f => f a
  | fetch place next, f => fetch place fun answer => (next answer).bind f

instance : Monad Queries where
  pure := done
  bind := bind

def ask (place : Place) : Queries (Except XPath.ParseError Query.Compiled) := fetch place done

/-- The result when every query is compiled anew. -/
def runAnew (s : Schema.Compiled) : Queries α → α
  | done a => a
  | fetch place next => (next (compileAt s place)).runAnew s

end Queries

/-- The slots of a schema's queries that have been asked for. -/
abbrev Slots := List (Place × Slot)

namespace Slots

def slotAt (s : Schema.Compiled) (slots : Slots) (place : Place) : Slot :=
  (slots.lookup place).getD (.ofSource ((place.source? s.document).getD ""))

/-- The compiled form from the slot at a place, which keeps it from then on. -/
def fetch (s : Schema.Compiled) (slots : Slots) (place : Place) :
    Except XPath.ParseError Query.Compiled × Slots :=
  let slot := slotAt s slots place
  if slot.isCompiled then ((slot.getOrCompile (Query.compileAs s.language place.role)).1, slots)
  else
    let (answer, slot) := slot.getOrCompile (Query.compileAs s.language place.role)
    (answer, (place, slot) :: slots)

end Slots

/-- The result when every query is compiled once, and the slots after that. -/
def Queries.runShared {α : Type} (s : Schema.Compiled) : Queries α → Slots → α × Slots
  | done a, slots => (a, slots)
  | fetch place next, slots =>
    let (answer, slots) := slots.fetch s place
    (next answer).runShared s slots

end Schematron.Validation
