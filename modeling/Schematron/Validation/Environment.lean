import Schematron.Evaluation.Evaluate
import Schematron.Validation.Error
import Schematron.XPath.Strict

/-!
Variables and their values. A variable stands for its query at its own node, where only what was bound
before it is visible. Its value is found on first use and remembered.
-/

namespace Schematron.Validation

open Schematron.Evaluation
open Schematron.Xml

/-- What the queries of one run have in common. -/
structure Basis where
  document : Document
  language : Query.Language
  prefixes : List (String × String)

structure Binding where
  name : String
  query : Query.Compiled
  node : Node

/-- What is known of the value of a binding. -/
inductive State where
  | pending
  /-- Evaluation has begun and not ended. -/
  | evaluating
  | ready (v : Value)

/-- A binding with what is known of its value. -/
structure Cell where
  binding : Binding
  state : State

/-- A point in the scopes. From there one sees the scopes below `scope`, and the first `index` bindings of
`scope` itself. A binding is at the point from which one sees what was bound before it. -/
structure Horizon where
  scope : Nat
  index : Nat
  deriving DecidableEq, Repr

/-- What is bound, and what has been found out so far. -/
structure Memory where
  /-- The outermost scope first, and the oldest binding of each scope. -/
  scopes : List (List Cell)
  /-- Texts that have been read, with their expressions. -/
  parsed : List (String × XPath.Expr)

abbrev Result (α : Type) := Except EvaluationError α × Memory

namespace Memory

/-- The point from which one sees everything. -/
def horizon (m : Memory) : Horizon :=
  match m.scopes.getLast? with
  | none => ⟨0, 0⟩
  | some scope => ⟨m.scopes.length - 1, scope.length⟩

def setState (m : Memory) (p : Horizon) (s : State) : Memory :=
  { m with scopes := m.scopes.modify p.scope (·.modify p.index fun cell => { cell with state := s }) }

/-- The expression of a text. -/
def read (m : Memory) (text : String) : Result XPath.Expr :=
  match m.parsed.lookup text with
  | some e => (.ok e, m)
  | none =>
    match XPath.Strict.parse? text with
    | some e => (.ok e, { m with parsed := (text, e) :: m.parsed })
    | none => (.error (.compile text), m)

end Memory

/-- The last binding of a name, and its index. -/
def latest? (name : String) (scope : List Cell) : Option (Cell × Nat) :=
  scope.zipIdx.reverse.find? (·.1.binding.name = name)

/-- The newest binding of a name that one sees from `h` in the first scopes, so many of them. -/
def findBelow (scopes : List (List Cell)) (name : String) (h : Horizon) : Nat → Option (Horizon × Cell)
  | 0 => none
  | n + 1 =>
    let scope := scopes[n]?.getD []
    let limit := if n = h.scope then min h.index scope.length else scope.length
    match latest? name (scope.take limit) with
    | some (cell, index) => some (⟨n, index⟩, cell)
    | none => findBelow scopes name h n

/-- The newest binding of a name that one sees from `h`, and where it is. -/
def find? (scopes : List (List Cell)) (name : String) (h : Horizon) : Option (Horizon × Cell) :=
  if scopes.isEmpty then none else findBelow scopes name h (min h.scope (scopes.length - 1) + 1)

/-- The order of points: what one sees from a point is before it. -/
def Horizon.Before (p h : Horizon) : Prop := p.scope < h.scope ∨ p.scope = h.scope ∧ p.index < h.index

theorem getElem?_of_latest? {name : String} {scope : List Cell} {found : Cell × Nat}
    (h : latest? name scope = some found) : scope[found.2]? = some found.1 := by
  have hmem := List.mem_of_find?_eq_some h
  rw [List.mem_reverse, List.mem_zipIdx_iff_getElem?] at hmem
  exact hmem

theorem lt_of_latest? {name : String} {scope : List Cell} {found : Cell × Nat}
    (h : latest? name scope = some found) : found.2 < scope.length :=
  (List.getElem?_eq_some_iff.mp (getElem?_of_latest? h)).1

theorem findBelow_before {scopes : List (List Cell)} {name : String} {h : Horizon} {found : Horizon × Cell} {n : Nat}
    (hn : n ≤ h.scope + 1) (hfound : findBelow scopes name h n = some found) : found.1.Before h := by
  induction n with
  | zero => cases hfound
  | succ n ih =>
    unfold findBelow at hfound
    dsimp only at hfound
    split at hfound
    · rename_i cell index hlatest
      cases hfound
      by_cases heq : n = h.scope
      · rw [if_pos heq] at hlatest
        have hlt := lt_of_latest? hlatest
        rw [List.length_take] at hlt
        exact .inr ⟨heq, Nat.lt_of_lt_of_le hlt (Nat.le_trans (Nat.min_le_left ..) (Nat.min_le_left ..))⟩
      · exact .inl (Nat.lt_of_le_of_ne (Nat.le_of_succ_le_succ hn) heq)
    · exact ih (Nat.le_of_succ_le hn) hfound

theorem find?_before {scopes : List (List Cell)} {name : String} {h : Horizon} {found : Horizon × Cell}
    (hfound : find? scopes name h = some found) : found.1.Before h := by
  unfold find? at hfound
  split at hfound
  · cases hfound
  · exact findBelow_before (by omega) hfound

/-- What a finished evaluation leaves behind. After an error the next use tries again, unless the
evaluation broke off. -/
def State.after : Except EvaluationError Value → State
  | .ok v => ready v
  | .error (.brokenOff _) => evaluating
  | .error _ => pending

/-- The value of an expression, at a node, with variables given. -/
def evaluateExpr (b : Basis) (q : Query.Compiled) (e : XPath.Expr) (node : Node)
    (bindings : List (String × Value)) : Except EvaluationError Value :=
  let setting : Setting := {
    document := b.document, language := b.language, prefixes := b.prefixes
    current := if q.usesCurrent then some (.ofNode b.document node) else none
    bindings }
  match evaluate setting e ⟨node, 1, 1⟩ with
  | .ok v => .ok v
  | .error (.brokenTest p) => .error (.brokenOff p)
  | .error fault => .error (.execution q.source fault)

/-- The values of variables, one after the other. -/
def valuesOf (find : String → Memory → Result Value) :
    List String → Memory → Result (List (String × Value))
  | [], m => (.ok [], m)
  | name :: names, m =>
    match find name m with
    | (.error e, m) => (.error e, m)
    | (.ok v, m) =>
      match valuesOf find names m with
      | (.error e, m) => (.error e, m)
      | (.ok vs, m) => (.ok ((name, v) :: vs), m)

/-- The value of a query: its variables come first, then its text is read, then evaluated. -/
def queryValue (b : Basis) (find : String → Memory → Result Value) (q : Query.Compiled) (node : Node)
    (m : Memory) : Result Value :=
  match valuesOf find q.variableNames m with
  | (.error e, m) => (.error e, m)
  | (.ok bindings, m) =>
    match m.read q.text with
    | (.error e, m) => (.error e, m)
    | (.ok e, m) => (evaluateExpr b q e node bindings, m)

/-- The value of a variable, as one sees it from `h`. A binding is marked while it is evaluated, and itself
sees only what was bound before it. -/
def variableAt (b : Basis) (h : Horizon) (name : String) (m : Memory) : Result Value :=
  match _hfound : find? m.scopes name h with
  | none => (.error (.unknownVariable name), m)
  | some (p, cell) =>
    match cell.state with
    | .ready v => (.ok v, m)
    | .evaluating => (.error (.circularVariable name), m)
    | .pending =>
      let (r, m) := queryValue b (fun name m => variableAt b p name m) cell.binding.query cell.binding.node
        (m.setState p .evaluating)
      (r, m.setState p (.after r))
termination_by (h.scope, h.index)
decreasing_by
  rcases find?_before _hfound with hscope | ⟨hscope, hindex⟩
  · exact .left _ _ hscope
  · exact hscope ▸ .right _ hindex

end Schematron.Validation
