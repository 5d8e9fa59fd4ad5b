import Schematron.Proofs.Validation.Lookup
import Schematron.Proofs.XPath.Anchoring
import Schematron.Validation.Place

/-!
Scopes of bindings, and sessions that stand for them. A session answers as the bindings of its scopes
do, whatever it remembers.
-/

namespace Schematron.Validation

open Schematron.Evaluation
open Schematron.Xml

/-- Bindings by scope, the innermost scope and the newest binding first. -/
abbrev Scopes := List (List Binding)

namespace Scopes

def push (scopes : Scopes) : Scopes := [] :: scopes

def pop : Scopes → Except ScopeError Scopes
  | [] => .error .underflow
  | _ :: outer => .ok outer

/-- Binds a variable in the innermost scope, which may not have one of its name. -/
def bind (x : Binding) : Scopes → Except ScopeError Scopes
  | [] => .error .underflow
  | scope :: outer =>
    if scope.any (·.name = x.name) then .error (.duplicateBinding x.name)
    else .ok ((x :: scope) :: outer)

end Scopes

/-- The bindings of scopes from the outside in, and the oldest first. -/
def Scopes.environment (scopes : Scopes) : Environment := (scopes.map List.reverse).reverse

theorem Scopes.environment_cons (scope : List Binding) (outer : Scopes) :
    Scopes.environment (scope :: outer) = outer.environment ++ [scope.reverse] := by
  rw [environment, List.map_cons, List.reverse_cons, ← environment]

/-- The point from which one sees a whole environment. -/
def top (env : Environment) : Horizon := ⟨env.length - 1, (env.getLast?.getD []).length⟩

theorem Memory.horizon_eq (m : Memory) : m.horizon = top m.environment := by
  rw [Memory.horizon, top, Memory.environment, List.length_map, List.getLast?_map]
  cases hlast : m.scopes.getLast? with
  | none =>
    rw [List.getLast?_eq_none_iff.mp hlast]
    rfl
  | some scope => simp

theorem visible_top (env : Environment) : visible env (top env) = env.flatten.reverse := by
  cases env using List.reverseRecOn with
  | nil => rfl
  | append_singleton outer scope => simp [visible, top]

theorem Scopes.visible_environment (scopes : Scopes) :
    visible scopes.environment (top scopes.environment) = scopes.flatten := by
  rw [visible_top, Scopes.environment, List.reverse_flatten, List.map_reverse, List.reverse_reverse, List.map_map]
  simp

theorem visible_append {env : Environment} {p : Horizon} (h : p.scope < env.length) (inner : Environment) :
    visible (env ++ inner) p = visible env p := by
  rw [visible, visible, List.take_append_of_le_length (Nat.le_of_lt h), List.getElem?_append_left h]

theorem visible_concat (outer : Environment) (scope : List Binding) (i : Nat) :
    visible (outer ++ [scope]) ⟨outer.length, i⟩ = (outer.flatten ++ scope.take i).reverse := by
  simp [visible]

namespace Memory

variable {b : Basis} {env env' : Environment} {m m' : Memory} {p : Horizon} {cell : Cell} {outer : List (List Cell)}

theorem cell?_congr {inner inner' : List (List Cell)} (hm : m.scopes = outer ++ inner) (hm' : m'.scopes = outer ++ inner')
    (h : p.scope < outer.length) : m.cell? p = m'.cell? p := by
  rw [cell?, cell?, hm, hm', List.getElem?_append_left h, List.getElem?_append_left h]

theorem scope_lt_of_cell? (h : m.cell? p = some cell) : p.scope < m.scopes.length := by
  by_contra hscope
  rw [cell?, List.getElem?_eq_none (Nat.not_lt.mp hscope)] at h
  cases h

/-- All bindings that there are can be seen. -/
theorem before_top (h : m.cell? p = some cell) : p.Before (top m.environment) := by
  have hscope := scope_lt_of_cell? h
  obtain ⟨scopes, parsed⟩ := m
  cases scopes using List.reverseRecOn with
  | nil => cases hscope
  | append_singleton outer scope =>
    obtain ⟨n, i⟩ := p
    rw [List.length_append, List.length_singleton] at hscope
    have htop : top (environment ⟨outer ++ [scope], parsed⟩) = ⟨outer.length, scope.length⟩ := by
      simp [top, environment]
    rw [htop]
    rcases Nat.lt_or_eq_of_le (Nat.le_of_lt_succ hscope) with hlt | rfl
    · exact .inl hlt
    · refine .inr ⟨rfl, ?_⟩
      simp only [cell?, List.getElem?_concat_length, Option.getD_some] at h
      exact (List.getElem?_eq_some_iff.mp h).1

/-- Soundness goes over to a memory whose cells are those of the other, as visible from there, or new. -/
theorem Sound.of_cells (hm : m.Sound b env (top env)) (henvironment : m'.environment = env')
    (hparsed : m'.parsed = m.parsed)
    (hcells : ∀ p cell, m'.cell? p = some cell →
      cell.state = .pending ∨ m.cell? p = some cell ∧ visible env' p = visible env p) :
    m'.Sound b env' (top env') where
  environment := henvironment
  cells p cell _ hcell := by
    rcases hcells p cell hcell with hpending | ⟨hcell, hvisible⟩
    · rw [hpending]
      trivial
    · rw [hvisible]
      exact hm.cells p cell (hm.environment ▸ before_top hcell) hcell
  parsed := by
    rw [hparsed]
    exact hm.parsed

/-- A new binding sees what was bound before it, and is seen by none of that. -/
theorem Sound.concat {outer : Environment} {scope : List Binding} {around : List (List Cell)} {cells : List Cell}
    (hm : m.Sound b (outer ++ [scope]) (top (outer ++ [scope]))) (hscopes : m.scopes = around ++ [cells])
    (x : Binding) :
    Memory.Sound b (outer ++ [scope ++ [x]]) (top (outer ++ [scope ++ [x]]))
      { m with scopes := around ++ [cells ++ [⟨x, .pending⟩]] } := by
  have henvironment := hm.environment
  rw [Memory.environment, hscopes, List.map_append] at henvironment
  obtain ⟨rfl, hcells⟩ := List.append_inj' henvironment rfl
  cases hcells
  refine hm.of_cells (by simp [Memory.environment]) rfl fun p cell hcell => ?_
  have hscope := scope_lt_of_cell? hcell
  rw [List.length_append, List.length_singleton] at hscope
  rcases Nat.lt_or_eq_of_le (Nat.le_of_lt_succ hscope) with hlt | heq
  · refine .inr ⟨(cell?_congr hscopes rfl hlt).trans hcell, ?_⟩
    rw [visible_append (by rwa [List.length_map]), visible_append (by rwa [List.length_map])]
  · obtain ⟨n, i⟩ := p
    cases heq
    simp only [cell?, List.getElem?_concat_length, Option.getD_some] at hcell
    have hi := (List.getElem?_eq_some_iff.mp hcell).1
    rw [List.length_append, List.length_singleton] at hi
    rcases Nat.lt_or_eq_of_le (Nat.le_of_lt_succ hi) with hold | rfl
    · have hlength : around.length = (around.map (·.map Cell.binding)).length := (List.length_map _).symm
      rw [List.getElem?_append_left hold] at hcell
      refine .inr ⟨by simpa [cell?, hscopes] using hcell, ?_⟩
      rw [hlength, visible_concat, visible_concat,
        List.take_append_of_le_length (by rw [List.length_map]; exact Nat.le_of_lt hold)]
    · rw [List.getElem?_concat_length] at hcell
      cases hcell
      exact .inl rfl

/-- The bindings of an innermost scope are those of its cells. -/
theorem exists_scopes_concat {outer : Environment} {scope : List Binding} (h : m.environment = outer ++ [scope]) :
    ∃ around cells, m.scopes = around ++ [cells] ∧ around.map (·.map Cell.binding) = outer ∧
      cells.map Cell.binding = scope := by
  obtain ⟨around, inner, hscopes, hout, hin⟩ := List.map_eq_append_iff.mp h
  obtain ⟨cells, rfl, hcells⟩ := List.map_eq_singleton_iff.mp hin
  exact ⟨around, cells, hscopes, hout, hcells⟩

end Memory

/-- A variable has the value that it stands for in the scopes. -/
theorem Scopes.computes_variableAt {b : Basis} (scopes : Scopes) (name : String) :
    Computes b scopes.environment (top scopes.environment) (variableAt b (top scopes.environment) name)
      (denote b scopes.flatten name) :=
  scopes.visible_environment ▸ Validation.computes_variableAt b _ _ name

/-- Remembered selections are what the contexts of that text select. -/
def SelectionsSound (b : Basis) (selections : List (String × List Node)) : Prop :=
  ∀ text ns, selections.lookup text = some ns → ∀ source q,
    Query.compilePattern b.language source = .ok q → q.variableRef = none → q.variableNames = [] →
      q.text = text → ∀ find, meaning b find q Node.root = .ok (.nodes ns)

/-- The bindings of a session from the outside in, and the oldest first. -/
def Session.environment (s : Session) : Environment := s.memory.environment

/-- A session stands for scopes: it has their bindings, and remembers nothing but what they say. -/
structure Session.Represents (s : Session) (b : Basis) (scopes : Scopes) : Prop where
  basis : s.basis = b
  memory : s.memory.Sound b scopes.environment (top scopes.environment)
  selections : SelectionsSound b s.selections

/-- Something done in a session gives `r` and leaves the scopes as they are, unless it breaks off. -/
structure Gives {α : Type} (b : Basis) (scopes : Scopes) (result : Except EvaluationError α × Session)
    (r : Except EvaluationError α) : Prop where
  answer : result.1 = r
  after : ¬BreaksOff r → result.2.Represents b scopes

namespace Gives

variable {α β : Type} {b : Basis} {scopes : Scopes} {s : Session} {r : Except EvaluationError α}

theorem of_ok {a : α} (h : Gives b scopes (.ok a, s) r) : r = .ok a ∧ s.Represents b scopes := by
  obtain ⟨rfl, hafter⟩ := h
  exact ⟨rfl, hafter (not_breaksOff_ok a)⟩

theorem of_error {e : EvaluationError} (h : Gives b scopes (.error e, s) r) :
    r = .error e ∧ Gives b scopes (.error e, s) (.error e : Except EvaluationError β) := by
  obtain ⟨rfl, hafter⟩ := h
  exact ⟨rfl, rfl, fun hbreak => hafter fun h => hbreak (breaksOff_error h)⟩

theorem map {result : Except EvaluationError α × Session} (h : Gives b scopes result r) (f : α → β) :
    Gives b scopes (result.1.map f, result.2) (r.map f) := by
  obtain ⟨answer, s⟩ := result
  cases answer with
  | ok a =>
    obtain ⟨rfl, hs⟩ := h.of_ok
    exact ⟨rfl, fun _ => hs⟩
  | error e =>
    rw [(h.of_error (β := β)).1]
    exact h.of_error.2

end Gives

namespace Session

theorem depth_eq (s : Session) : s.depth = s.environment.length := (List.length_map _).symm

theorem environment_push (s : Session) : s.push.environment = s.environment ++ [[]] := List.map_append

section

variable {s : Session} {around : List (List Cell)} {cells : List Cell}

theorem pop_of_concat (h : s.memory.scopes = around ++ [cells]) : s.pop = .ok (s.withScopes around) := by
  simp [pop, h]

theorem bind_of_concat (h : s.memory.scopes = around ++ [cells]) (x : Binding) :
    s.bind x.name x.query x.node
      = if (cells.map Cell.binding).any (·.name = x.name) then .error (.duplicateBinding x.name)
        else .ok (s.withScopes (around ++ [cells ++ [⟨x, .pending⟩]])) := by
  rw [bind, h, List.getLast?_concat, List.dropLast_concat, List.any_map]
  rfl

variable {scope : List Binding} {outer : Environment} (h : s.environment = outer ++ [scope])

include h

/-- Where a scope is open, closing it leaves what is around it. -/
theorem exists_pop : ∃ s', s.pop = .ok s' ∧ s'.environment = outer := by
  obtain ⟨around, cells, hscopes, hout, -⟩ := Memory.exists_scopes_concat h
  exact ⟨_, pop_of_concat hscopes, hout⟩

/-- Where a scope is open, nothing is wrong with a new binding but a name that the scope has. -/
theorem exists_bind (x : Binding) (hnew : scope.any (·.name = x.name) = false) :
    ∃ s', s.bind x.name x.query x.node = .ok s' ∧ s'.basis = s.basis ∧
      s'.environment = outer ++ [scope ++ [x]] := by
  obtain ⟨around, cells, hscopes, rfl, rfl⟩ := Memory.exists_scopes_concat h
  refine ⟨_, (bind_of_concat hscopes x).trans (if_neg (Bool.not_eq_true _ ▸ hnew)), rfl, ?_⟩
  simp [Session.environment, Memory.environment, withScopes]

theorem bind_eq_error (x : Binding) (hbound : scope.any (·.name = x.name) = true) :
    s.bind x.name x.query x.node = .error (.duplicateBinding x.name) := by
  obtain ⟨around, cells, hscopes, -, rfl⟩ := Memory.exists_scopes_concat h
  exact (bind_of_concat hscopes x).trans (if_pos hbound)

end

theorem start_represents (b : Basis) : (start b).Represents b [] where
  basis := rfl
  memory := ⟨rfl, nofun, nofun⟩
  selections := nofun

namespace Represents

variable {s : Session} {b : Basis} {scopes : Scopes}

theorem length_environment (h : s.Represents b scopes) : scopes.environment.length = s.memory.scopes.length := by
  rw [← h.memory.environment, Memory.environment, List.length_map]

theorem push (h : s.Represents b scopes) : s.push.Represents b scopes.push where
  basis := h.basis
  memory := by
    rw [Scopes.push, Scopes.environment_cons]
    refine h.memory.of_cells ?_ rfl fun p cell hcell => .inr ?_
    · exact s.environment_push.trans (congrArg (· ++ [[]]) h.memory.environment)
    · have hscope : p.scope < s.memory.scopes.length := by
        by_contra hge
        have hlt := Memory.scope_lt_of_cell? hcell
        have heq : p.scope = s.memory.scopes.length := by
          simp only [Session.push, withScopes, List.length_append, List.length_singleton] at hlt
          omega
        simp [Memory.cell?, Session.push, withScopes, heq] at hcell
      rw [visible_append (h.length_environment ▸ hscope)]
      exact ⟨(Memory.cell?_congr (List.append_nil _).symm rfl hscope).trans hcell, rfl⟩
  selections := h.selections

theorem pop (h : s.Represents b scopes) :
    match scopes.pop with
    | .error e => s.pop = .error e
    | .ok outer => ∃ s', s.pop = .ok s' ∧ s'.Represents b outer := by
  cases scopes with
  | nil =>
    have hscopes : s.memory.scopes = [] := List.length_eq_zero_iff.mp h.length_environment.symm
    simp [Scopes.pop, Session.pop, hscopes]
  | cons scope outer =>
    obtain ⟨around, cells, hscopes, hout, -⟩ :=
      Memory.exists_scopes_concat (h.memory.environment.trans (Scopes.environment_cons scope outer))
    refine ⟨_, pop_of_concat hscopes, h.basis, ?_, h.selections⟩
    refine h.memory.of_cells hout rfl fun p cell hcell => .inr ?_
    have hscope : p.scope < around.length := Memory.scope_lt_of_cell? hcell
    have hlength : p.scope < (Scopes.environment outer).length := by
      rwa [← hout, List.length_map]
    rw [Scopes.environment_cons, visible_append hlength]
    exact ⟨(Memory.cell?_congr hscopes (List.append_nil _).symm hscope).trans hcell, rfl⟩

theorem bind (h : s.Represents b scopes) (x : Binding) :
    match scopes.bind x with
    | .error e => s.bind x.name x.query x.node = .error e
    | .ok scopes' => ∃ s', s.bind x.name x.query x.node = .ok s' ∧ s'.Represents b scopes' := by
  cases scopes with
  | nil =>
    have hscopes : s.memory.scopes = [] := List.length_eq_zero_iff.mp h.length_environment.symm
    simp [Scopes.bind, Session.bind, hscopes]
  | cons scope outer =>
    obtain ⟨around, cells, hscopes, hout, hcells⟩ :=
      Memory.exists_scopes_concat (h.memory.environment.trans (Scopes.environment_cons scope outer))
    have hbind := bind_of_concat hscopes x
    rw [hcells, List.any_reverse] at hbind
    have hscopes' : Scopes.bind x (scope :: outer)
        = if scope.any (·.name = x.name) then .error (.duplicateBinding x.name)
          else .ok ((x :: scope) :: outer) := rfl
    rw [hscopes', hbind]
    cases hdup : scope.any (·.name = x.name) with
    | true => rfl
    | false =>
      refine ⟨_, rfl, h.basis, ?_, h.selections⟩
      rw [Scopes.environment_cons, List.reverse_cons]
      exact Memory.Sound.concat (Scopes.environment_cons scope outer ▸ h.memory) hscopes x

theorem remember {α : Type} (h : s.Represents b scopes) {f : Basis → Horizon → Memory → Result α}
    {r : Except EvaluationError α}
    (hf : Computes b scopes.environment (top scopes.environment) (f b (top scopes.environment)) r) :
    Gives b scopes (s.remember f) r := by
  obtain ⟨hr, hsound⟩ := hf s.memory h.memory
  have hresult : s.remember f = ((f b (top scopes.environment) s.memory).1,
      { s with memory := (f b (top scopes.environment) s.memory).2 }) := by
    unfold Session.remember
    rw [h.basis, Memory.horizon_eq, h.memory.environment]
  rw [hresult]
  exact ⟨hr, fun hbreak => ⟨h.basis, hsound hbreak, h.selections⟩⟩

theorem variableValue (h : s.Represents b scopes) (name : String) :
    Gives b scopes (s.variableValue name) (denote b scopes.flatten name) :=
  h.remember (scopes.computes_variableAt name)

theorem evaluate (h : s.Represents b scopes) (q : Query.Compiled) (node : Node) :
    Gives b scopes (s.evaluate q node) (Plain.value b scopes.flatten q node) :=
  h.remember (computes_queryValue scopes.computes_variableAt q node)

/-- A selection that a session remembers is what the scopes say. -/
theorem selection_known (h : s.Represents b scopes) {source : String} {q : Query.Compiled}
    (hq : Query.compilePattern b.language source = .ok q) (href : q.variableRef = none)
    (hvariables : q.variableNames = []) {ns : List Node} (hns : s.selections.lookup q.text = some ns) :
    Plain.selection b scopes.flatten q = .ok ns := by
  have hvalue : Plain.value b scopes.flatten q Node.root = .ok (.nodes ns) :=
    h.selections q.text ns hns source q hq href hvariables rfl (denote b scopes.flatten)
  simp only [Plain.selection, hvalue]

/-- A selection without variables is worth remembering. -/
theorem remember_selection (h : s.Represents b scopes) {source : String} {q : Query.Compiled}
    (hq : Query.compilePattern b.language source = .ok q) (href : q.variableRef = none)
    (hvariables : q.variableNames = []) {ns : List Node}
    (hvalue : Plain.value b scopes.flatten q Node.root = .ok (.nodes ns)) :
    Session.Represents { s with selections := (q.text, ns) :: s.selections } b scopes where
  basis := h.basis
  memory := h.memory
  selections := by
    intro text ns' hlookup source' q' hq' href' hvariables' htext find
    change ((q.text, ns) :: s.selections).lookup text = some ns' at hlookup
    rw [List.lookup_cons] at hlookup
    split at hlookup
    · rename_i heq
      have hsame : q'.text = q.text := htext.trans (eq_of_beq heq)
      cases hlookup
      rw [meaning_congr hvariables' hvariables hsame (Query.usesCurrent_of_text_eq hq' hq href' href hsame)]
      exact hvalue
    · exact h.selections text ns' hlookup source' q' hq' href' hvariables' htext find

/-- The selection of a context that is no variable, from what is remembered or anew. -/
theorem selection (h : s.Represents b scopes) {source : String} {q : Query.Compiled}
    (hq : Query.compilePattern b.language source = .ok q) (href : q.variableRef = none) :
    Gives b scopes (s.selection q) (Plain.selection b scopes.flatten q) := by
  have hgives := h.evaluate q Node.root
  cases hknown : (if q.variableNames.isEmpty then s.selections.lookup q.text else none) with
  | some ns =>
    have hvariables : q.variableNames.isEmpty = true := by
      by_contra hnot
      rw [if_neg hnot] at hknown
      cases hknown
    rw [if_pos hvariables] at hknown
    have hresult : s.selection q = (.ok ns, s) := by
      simp only [Session.selection, hvariables, if_true, hknown]
    rw [hresult, h.selection_known hq href (List.isEmpty_iff.mp hvariables) hknown]
    exact ⟨rfl, fun _ => h⟩
  | none =>
    unfold Session.selection Plain.selection
    rw [hknown]
    rcases hevaluated : s.evaluate q Node.root with ⟨e | v, after⟩
    · rw [hevaluated] at hgives
      obtain ⟨hr, herror⟩ := hgives.of_error
      rw [hr]
      exact herror
    · rw [hevaluated] at hgives
      obtain ⟨hr, hafter⟩ := hgives.of_ok
      rw [hr]
      cases v with
      | nodes ns =>
        cases hvariables : q.variableNames.isEmpty with
        | false => exact ⟨rfl, fun _ => hafter⟩
        | true =>
          exact ⟨rfl, fun _ => hafter.remember_selection hq href (List.isEmpty_iff.mp hvariables) hr⟩
      | _ => exact ⟨rfl, fun _ => hafter⟩

theorem isMatch (h : s.Represents b scopes) {source : String} {q : Query.Compiled}
    (hq : Query.compilePattern b.language source = .ok q) (node : Node) :
    Gives b scopes (s.isMatch q node) (Plain.isMatch b scopes.flatten q node) := by
  unfold Session.isMatch Plain.isMatch
  cases href : q.variableRef with
  | some name =>
    have hgives := h.variableValue name
    dsimp only
    rcases hvalue : s.variableValue name with ⟨e | v, after⟩
    · rw [hvalue] at hgives
      obtain ⟨hr, herror⟩ := hgives.of_error
      rw [hr]
      exact herror
    · rw [hvalue] at hgives
      obtain ⟨hr, hafter⟩ := hgives.of_ok
      rw [hr]
      cases v <;> exact ⟨rfl, fun _ => hafter⟩
  | none =>
    have hgives := h.selection hq href
    dsimp only
    rcases hvalue : s.selection q with ⟨e | ns, after⟩
    · rw [hvalue] at hgives
      obtain ⟨hr, herror⟩ := hgives.of_error
      rw [hr]
      exact herror
    · rw [hvalue] at hgives
      obtain ⟨hr, hafter⟩ := hgives.of_ok
      rw [hr]
      exact ⟨rfl, fun _ => hafter⟩

theorem evaluateText (h : s.Represents b scopes) (q : Query.Compiled) (node : Node) :
    Gives b scopes (s.evaluateText q node)
      ((Plain.value b scopes.flatten q node).map (Value.toText b.document)) := by
  have hbasis : (s.evaluate q node).2.basis = b := h.basis
  rw [← congrArg Basis.document hbasis]
  exact (h.evaluate q node).map (Value.toText (s.evaluate q node).2.basis.document)

theorem evaluateTest (h : s.Represents b scopes) (q : Query.Compiled) (node : Node) :
    Gives b scopes (s.evaluateTest q node)
      ((Plain.value b scopes.flatten q node).map Value.toBoolean) :=
  (h.evaluate q node).map Value.toBoolean

end Represents

end Session

end Schematron.Validation
