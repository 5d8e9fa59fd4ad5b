import Schematron.Validation.Session

/-!
What variables and queries stand for when nothing is remembered.
-/

namespace Schematron.Validation

open Schematron.Evaluation
open Schematron.Xml

variable {α β : Type}

/-- The values of variables, one after the other. -/
def meanings (find : String → Except EvaluationError Value) :
    List String → Except EvaluationError (List (String × Value))
  | [] => .ok []
  | name :: names => do
    let v ← find name
    let vs ← meanings find names
    return (name, v) :: vs

/-- The expression of a text. -/
def readText (text : String) : Except EvaluationError XPath.Expr :=
  match XPath.Strict.parse? text with
  | some e => .ok e
  | none => .error (.compile text)

/-- The value of a query at a node, where variables stand for what `find` gives. -/
def meaning (b : Basis) (find : String → Except EvaluationError Value) (q : Query.Compiled) (node : Node) :
    Except EvaluationError Value := do
  let bindings ← meanings find q.variableNames
  let e ← readText q.text
  evaluateExpr b q e node bindings

/-- Queries without variables that differ in what they say of themselves only have the same value. -/
theorem meaning_congr {b : Basis} {p q : Query.Compiled} (hp : p.variableNames = [])
    (hq : q.variableNames = []) (htext : p.text = q.text) (hcurrent : p.usesCurrent = q.usesCurrent)
    {find find' : String → Except EvaluationError Value} {node : Node} {v : Value}
    (h : meaning b find q node = .ok v) : meaning b find' p node = .ok v := by
  unfold meaning at h ⊢
  rw [hq] at h
  rw [hp, htext]
  change (readText q.text >>= fun e => evaluateExpr b p e node []) = .ok v
  change (readText q.text >>= fun e => evaluateExpr b q e node []) = .ok v at h
  cases hread : readText q.text with
  | error e =>
    rw [hread] at h
    cases h
  | ok e =>
    rw [hread] at h
    change evaluateExpr b q e node [] = .ok v at h
    change evaluateExpr b p e node [] = .ok v
    unfold evaluateExpr at h ⊢
    rw [hcurrent]
    dsimp only at h ⊢
    split at h
    · assumption
    · cases h
    · cases h

/-- What a name stands for among bindings, the newest first: the newest binding of the name, evaluated
at its own node with the older ones. -/
def denote (b : Basis) : List Binding → String → Except EvaluationError Value
  | [], name => .error (.unknownVariable name)
  | x :: older, name =>
    if x.name = name then meaning b (denote b older) x.query x.node else denote b older name

namespace Plain

variable (b : Basis) (bindings : List Binding)

/-- The value of a query at a node. -/
def value (q : Query.Compiled) (node : Node) : Except EvaluationError Value :=
  meaning b (denote b bindings) q node

/-- The nodes that the context of a rule selects from the root. -/
def selection (q : Query.Compiled) : Except EvaluationError (List Node) :=
  match value b bindings q Node.root with
  | .error e => .error e
  | .ok (.nodes ns) => .ok ns
  | .ok _ => .error (.notSelecting q.source)

/-- Whether the context of a rule matches a node. A variable matches the nodes it holds. -/
def isMatch (q : Query.Compiled) (node : Node) : Except EvaluationError Bool :=
  match q.variableRef with
  | some name =>
    match denote b bindings name with
    | .error e => .error e
    | .ok (.nodes ns) => .ok (ns.contains node)
    | .ok _ => .ok false
  | none =>
    match selection b bindings q with
    | .error e => .error e
    | .ok ns => .ok (ns.contains node)

end Plain

/-- Evaluation ended in the middle, as at a name test whose prefix means nothing. -/
def BreaksOff (r : Except EvaluationError α) : Prop := ∃ p, r = .error (.brokenOff p)

theorem not_breaksOff_ok (a : α) : ¬BreaksOff (.ok a) := by
  intro h
  obtain ⟨p, heq⟩ := h
  cases heq

theorem breaksOff_error {e : EvaluationError} (h : BreaksOff (.error e : Except EvaluationError α)) :
    BreaksOff (.error e : Except EvaluationError β) := by
  obtain ⟨p, ⟨⟩⟩ := h
  exact ⟨p, rfl⟩

theorem BreaksOff.map {r : Except EvaluationError α} (h : BreaksOff r) (f : α → β) :
    BreaksOff (r.map f) := by
  obtain ⟨p, rfl⟩ := h
  exact ⟨p, rfl⟩

/-- A result that does not complain of a variable that depends on itself. -/
def Uncircular (r : Except EvaluationError α) : Prop := ∀ name, r ≠ .error (.circularVariable name)

theorem Uncircular.bind {r : Except EvaluationError α} {k : α → Except EvaluationError β}
    (h : Uncircular r) (hk : ∀ a, Uncircular (k a)) : Uncircular (r >>= k) := by
  intro name
  cases r with
  | error e =>
    intro he
    cases he
    exact h name rfl
  | ok a => exact hk a name

theorem Uncircular.of_error {e : EvaluationError} (h : Uncircular (.error e : Except EvaluationError α)) :
    Uncircular (.error e : Except EvaluationError β) := by
  intro name he
  cases he
  exact h name rfl

theorem Uncircular.map {r : Except EvaluationError α} (h : Uncircular r) (f : α → β) :
    Uncircular (r.map f) := by
  cases r with
  | error e => exact h.of_error
  | ok a =>
    intro name heq
    cases heq

theorem uncircular_ok (a : α) : Uncircular (.ok a : Except EvaluationError α) := by
  intro name heq
  cases heq

theorem uncircular_meanings {find : String → Except EvaluationError Value}
    (h : ∀ name, Uncircular (find name)) (names : List String) : Uncircular (meanings find names) := by
  induction names with
  | nil => exact uncircular_ok []
  | cons name names ih => exact (h name).bind fun v => ih.bind fun vs => uncircular_ok _

theorem uncircular_evaluateExpr (b : Basis) (q : Query.Compiled) (e : XPath.Expr) (node : Node)
    (bindings : List (String × Value)) : Uncircular (evaluateExpr b q e node bindings) := by
  intro name
  unfold evaluateExpr
  dsimp only
  split <;> intro heq <;> cases heq

theorem uncircular_meaning {b : Basis} {find : String → Except EvaluationError Value}
    (h : ∀ name, Uncircular (find name)) (q : Query.Compiled) (node : Node) :
    Uncircular (meaning b find q node) := by
  have hread : Uncircular (readText q.text) := by
    intro name
    unfold readText
    split <;> intro heq <;> cases heq
  exact (uncircular_meanings h q.variableNames).bind fun bindings =>
    hread.bind fun e => uncircular_evaluateExpr b q e node bindings

/-- A variable sees older bindings only. -/
theorem uncircular_denote (b : Basis) (bindings : List Binding) (name : String) :
    Uncircular (denote b bindings name) := by
  induction bindings generalizing name with
  | nil =>
    intro other heq
    cases heq
  | cons x older ih =>
    unfold denote
    split
    · exact uncircular_meaning ih x.query x.node
    · exact ih name

theorem Plain.uncircular_value (b : Basis) (bindings : List Binding) (q : Query.Compiled) (node : Node) :
    Uncircular (Plain.value b bindings q node) :=
  uncircular_meaning (uncircular_denote b bindings) q node

theorem Plain.uncircular_isMatch (b : Basis) (bindings : List Binding) (q : Query.Compiled) (node : Node) :
    Uncircular (Plain.isMatch b bindings q node) := by
  unfold Plain.isMatch Plain.selection
  cases q.variableRef with
  | some x =>
    have hx := uncircular_denote b bindings x
    dsimp only
    cases hv : denote b bindings x with
    | error e => exact (hv ▸ hx).of_error
    | ok v => cases v <;> exact uncircular_ok _
  | none =>
    have hq := Plain.uncircular_value b bindings q Node.root
    dsimp only
    cases hv : Plain.value b bindings q Node.root with
    | error e => exact (hv ▸ hq).of_error
    | ok v => cases v <;> intro name heq <;> cases heq

end Schematron.Validation
