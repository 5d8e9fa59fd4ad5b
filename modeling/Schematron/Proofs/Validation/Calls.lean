import Schematron.Proofs.Validation.Run

/-!
The scopes of a run under any sequence of calls: opening and closing scopes, binding variables and asking
for values, in whatever order.
-/

namespace Schematron.Validation

open Schematron.Evaluation
open Schematron.Xml

/-- One use of the scopes of a run. The query of a place is compiled as the role of the place asks. -/
inductive Call where
  | push
  | pop
  | bind (place : Place) (name : String) (node : Node)
  | evaluate (place : Place) (node : Node)
  /-- Whether an assertion is due. -/
  | test (place : Place) (kind : Schema.AssertionKind) (node : Node)
  | isMatch (pattern rule : Nat) (node : Node)

inductive Reply where
  | done
  | value (v : Value)
  | truth (t : Bool)

/-- What a call comes to. -/
abbrev Outcome := Except Failure Reply

/-- No call comes after one with such an outcome. -/
def isBroken : Outcome → Bool
  | .error (.brokenOff _) => true
  | _ => false

namespace Call

variable {α : Type}

/-- Asks in the session for what a query gives. -/
def asking (place : Place) (f : Session → Query.Compiled → Except EvaluationError α × Session)
    (reply : α → Reply) : Run Reply := do
  let r ← Run.withQuery place f
  let a ← Run.traverse.liftExcept (r.mapError Failure.ofEvaluation)
  return reply a

def perform : Call → Run Reply
  | push => do
    Run.pushScope
    return .done
  | pop => do
    Run.popScope
    return .done
  | bind place name node => do
    Run.bindLet ⟨none, false, false⟩ place name node
    return .done
  | evaluate place node => asking place (fun s q => s.evaluate q node) .value
  | test place kind node => asking place (fun s q => s.evaluateTest q node) (.truth ∘ kind.fires)
  | isMatch p r node => asking (.context p r) (fun s q => s.isMatch q node) .truth

/-- The outcomes of calls, each with the state after it. -/
def performAll : List Call → RunState → Queries (List (Outcome × RunState))
  | [], _ => return []
  | call :: calls, st => do
    let step ← call.perform.run.run st
    if isBroken step.1 then return [step] else return step :: (← performAll calls step.2)

/-- The outcomes of calls on a document, with the slots that were asked for before. -/
def outcomes (s : Schema.Compiled) (d : Document) (places : List Place) (calls : List Call) :
    List (Outcome × RunState) :=
  ((performAll calls (Run.initial s d)).runShared s (.fetched s places)).1

variable (s : Schema.Compiled) (d : Document)

/-- What is asked of a query with the bindings of scopes that stay as they are. -/
def plainly (scopes : Scopes) (place : Place) (g : Query.Compiled → Except EvaluationError α)
    (reply : α → Reply) : Except Failure (Reply × Scopes) := do
  let a ← (Plain.answer s place g).mapError Failure.ofEvaluation
  return (reply a, scopes)

/-- The reply to a call and the scopes after it. -/
def plain (scopes : Scopes) : Call → Except Failure (Reply × Scopes)
  | push => return (.done, scopes.push)
  | pop => do
    let outer ← scopes.pop.mapError Failure.scope
    return (.done, outer)
  | bind place name node => do
    let q ← (compileAt s place).mapError (Failure.evaluation ∘ EvaluationError.parse)
    let bound ← (scopes.bind ⟨name, q, node⟩).mapError Failure.scope
    return (.done, bound)
  | evaluate place node =>
    plainly s scopes place (fun q => Plain.value (Plain.basis s d) scopes.flatten q node) .value
  | test place kind node =>
    plainly s scopes place
      (fun q => (Plain.value (Plain.basis s d) scopes.flatten q node).map Value.toBoolean)
      (.truth ∘ kind.fires)
  | isMatch p r node =>
    plainly s scopes (.context p r)
      (fun q => Plain.isMatch (Plain.basis s d) scopes.flatten q node) .truth

/-- An outcome and the scopes after it, which a failure leaves as they were. -/
def outcomeOf (scopes : Scopes) : Except Failure (Reply × Scopes) → Outcome × Scopes
  | .ok (reply, after) => (.ok reply, after)
  | .error e => (.error e, scopes)

def plainStep (scopes : Scopes) (call : Call) : Outcome × Scopes := outcomeOf scopes (call.plain s d scopes)

def plainAll : List Call → Scopes → List Outcome
  | [], _ => []
  | call :: calls, scopes =>
    let (outcome, after) := plainStep s d scopes call
    if isBroken outcome then [outcome] else outcome :: plainAll calls after

/-- The scopes after calls. -/
def scopesAfter (calls : List Call) (scopes : Scopes) : Scopes :=
  calls.foldl (fun scopes call => (plainStep s d scopes call).2) scopes

section

variable {s d} {st : RunState} {scopes : Scopes}

/-- A step of a run gives this outcome, and stands for these scopes after it unless it breaks off. -/
def Steps (s : Schema.Compiled) (d : Document) (x : Run Reply) (st : RunState) (step : Outcome × Scopes) :
    Prop :=
  ∃ st', Run.exec s x st = (step.1, st') ∧
    (isBroken step.1 = false → st'.session.Represents (Plain.basis s d) step.2)

theorem asking_steps (h : st.session.Represents (Plain.basis s d) scopes) (place : Place)
    {f : Session → Query.Compiled → Except EvaluationError α × Session}
    {g : Query.Compiled → Except EvaluationError α} (reply : α → Reply)
    (hf : ∀ q, compileAt s place = .ok q → Gives (Plain.basis s d) scopes (f st.session q) (g q)) :
    Steps s d (asking place f reply) st (outcomeOf scopes (plainly s scopes place g reply)) := by
  have hshows : st.Shows (Plain.basis s d) scopes st.events := ⟨h, rfl⟩
  obtain ⟨st', hexec, hafter⟩ := Run.query_shows hshows place hf
  refine ⟨st', ?_, fun hbroken => ?_⟩
  · unfold asking plainly
    rw [Run.exec_bind_ok s st hexec]
    cases Plain.answer s place g <;> rfl
  · unfold plainly at hbroken ⊢
    cases hanswer : Plain.answer s place g with
    | ok a =>
      rw [hanswer] at hafter
      exact (hafter (not_breaksOff_ok a)).session
    | error e =>
      rw [hanswer] at hafter hbroken
      refine (hafter ?_).session
      intro h
      obtain ⟨p, heq⟩ := h
      cases heq
      cases hbroken

theorem pop_steps (h : st.session.Represents (Plain.basis s d) scopes) :
    Steps s d pop.perform st (plainStep s d scopes pop) := by
  have hpop := h.pop
  have hexec := Run.exec_popScope s st
  unfold plainStep plain
  cases hscopes : scopes.pop with
  | error e =>
    rw [hscopes] at hpop
    change st.session.pop = .error e at hpop
    rw [hpop] at hexec
    exact ⟨st, Run.exec_bind_error s st hexec _, fun _ => h⟩
  | ok outer =>
    rw [hscopes] at hpop
    obtain ⟨session, hpop, hsession⟩ := hpop
    rw [hpop] at hexec
    exact ⟨_, Run.exec_bind_ok s st hexec _, fun _ => hsession⟩

theorem bind_steps (h : st.session.Represents (Plain.basis s d) scopes) (place : Place) (name : String)
    (node : Node) :
    Steps s d (bind place name node).perform st (plainStep s d scopes (bind place name node)) := by
  have hexec := Run.exec_bindLet s st ⟨none, false, false⟩ place name node
  unfold plainStep plain
  dsimp only
  cases hq : compileAt s place with
  | error e =>
    rw [hq] at hexec
    exact ⟨st, Run.exec_bind_error s st hexec _, fun _ => h⟩
  | ok q =>
    have hbind := h.bind ⟨name, q, node⟩
    rw [hq] at hexec
    dsimp only at hexec
    rw [Run.exec_bindQuery] at hexec
    show Steps s d _ st (outcomeOf scopes ((scopes.bind ⟨name, q, node⟩).mapError Failure.scope >>= fun bound =>
      .ok (Reply.done, bound)))
    cases hscopes : scopes.bind ⟨name, q, node⟩ with
    | error e =>
      rw [hscopes] at hbind
      change st.session.bind name q node = .error e at hbind
      rw [hbind] at hexec
      exact ⟨st, Run.exec_bind_error s st hexec _, fun _ => h⟩
    | ok bound =>
      rw [hscopes] at hbind
      obtain ⟨session, hbind, hsession⟩ := hbind
      change st.session.bind name q node = .ok session at hbind
      rw [hbind] at hexec
      exact ⟨_, Run.exec_bind_ok s st hexec _, fun _ => hsession⟩

theorem perform_steps (h : st.session.Represents (Plain.basis s d) scopes) (call : Call) :
    Steps s d call.perform st (plainStep s d scopes call) := by
  cases call with
  | push => exact ⟨_, Run.exec_bind_ok s st (Run.exec_pushScope s st) _, fun _ => h.push⟩
  | pop => exact pop_steps h
  | bind place name node => exact bind_steps h place name node
  | evaluate place node => exact asking_steps h place .value fun q _ => h.evaluate q node
  | test place kind node =>
    exact asking_steps h place (.truth ∘ kind.fires) fun q _ => h.evaluateTest q node
  | isMatch p r node => exact asking_steps h (.context p r) .truth fun q hq => h.isMatch hq node

theorem runAnew_performAll_cons (call : Call) (calls : List Call) (st : RunState) :
    (performAll (call :: calls) st).runAnew s
      = if isBroken (Run.exec s call.perform st).1 then [Run.exec s call.perform st]
        else Run.exec s call.perform st
          :: (performAll calls (Run.exec s call.perform st).2).runAnew s := by
  have hexec : (call.perform.run.run st).runAnew s = Run.exec s call.perform st := rfl
  rw [performAll, Queries.runAnew_bind, hexec]
  split
  · rfl
  · rw [Queries.runAnew_bind]
    rfl

/-- Calls in a session are answered as calls on its scopes, and what it remembers stays sound. -/
theorem performAll_steps (h : st.session.Represents (Plain.basis s d) scopes) (calls : List Call) :
    ((performAll calls st).runAnew s).map Prod.fst = plainAll s d calls scopes ∧
      ∀ step ∈ (performAll calls st).runAnew s, isBroken step.1 = false →
        ∃ after, step.2.session.Represents (Plain.basis s d) after := by
  induction calls generalizing st scopes with
  | nil => exact ⟨rfl, by intro step hx; cases hx⟩
  | cons call calls ih =>
    obtain ⟨st', hexec, hafter⟩ := perform_steps h call
    rw [runAnew_performAll_cons, hexec, plainAll]
    dsimp only
    cases hbroken : isBroken (plainStep s d scopes call).1 with
    | true =>
      refine ⟨rfl, fun step hstep hnot => ?_⟩
      rw [List.mem_singleton.mp hstep, hbroken] at hnot
      cases hnot
    | false =>
      obtain ⟨houtcomes, hstates⟩ := ih (hafter hbroken)
      refine ⟨congrArg ((plainStep s d scopes call).1 :: ·) houtcomes, fun step hstep hnot => ?_⟩
      rcases List.mem_cons.mp hstep with rfl | hstep
      · exact ⟨_, hafter hbroken⟩
      · exact hstates step hstep hnot

end

section

variable {s d} {scopes : Scopes}

theorem uncircular_plainly {place : Place} {g : Query.Compiled → Except EvaluationError α}
    (hg : ∀ q, Uncircular (g q)) (reply : α → Reply) (name : String) :
    (outcomeOf scopes (plainly s scopes place g reply)).1
      ≠ .error (.evaluation (.circularVariable name)) := by
  have hanswer : Uncircular (Plain.answer s place g) := by
    unfold Plain.answer
    split
    · intro other heq
      cases heq
    · exact hg _
  unfold plainly
  cases h : Plain.answer s place g with
  | ok a =>
    intro heq
    cases heq
  | error e =>
    intro he
    have hne := (h ▸ hanswer) name
    cases e <;> cases he
    exact hne rfl

theorem uncircular_plainStep (call : Call) (name : String) :
    (plainStep s d scopes call).1 ≠ .error (.evaluation (.circularVariable name)) := by
  cases call with
  | push =>
    intro heq
    cases heq
  | pop =>
    show (outcomeOf scopes (scopes.pop.mapError Failure.scope >>= fun outer => .ok (Reply.done, outer))).1 ≠ _
    cases scopes.pop <;> intro heq <;> cases heq
  | bind place x node =>
    unfold plainStep plain
    dsimp only
    cases compileAt s place with
    | error e =>
      intro heq
      cases heq
    | ok q =>
      show (outcomeOf scopes ((scopes.bind ⟨x, q, node⟩).mapError Failure.scope >>= fun bound =>
        .ok (Reply.done, bound))).1 ≠ _
      cases scopes.bind ⟨x, q, node⟩ <;> intro heq <;> cases heq
  | evaluate place node =>
    exact uncircular_plainly (fun q => Plain.uncircular_value _ _ q node) .value name
  | test place kind node =>
    exact uncircular_plainly (fun q => (Plain.uncircular_value _ _ q node).map Value.toBoolean)
      (.truth ∘ kind.fires) name
  | isMatch p r node => exact uncircular_plainly (fun q => Plain.uncircular_isMatch _ _ q node) .truth name

theorem uncircular_plainAll (calls : List Call) (scopes : Scopes) {outcome : Outcome}
    (h : outcome ∈ plainAll s d calls scopes) (name : String) :
    outcome ≠ .error (.evaluation (.circularVariable name)) := by
  induction calls generalizing scopes with
  | nil => cases h
  | cons call calls ih =>
    rw [plainAll] at h
    dsimp only at h
    split at h
    · rw [List.mem_singleton.mp h]
      exact uncircular_plainStep call name
    · rcases List.mem_cons.mp h with rfl | h
      · exact uncircular_plainStep call name
      · exact ih _ h

/-- Calls that all go through, or fail without breaking off. -/
def Unbroken (s : Schema.Compiled) (d : Document) (calls : List Call) (scopes : Scopes) : Prop :=
  ∀ outcome ∈ plainAll s d calls scopes, isBroken outcome = false

theorem plainAll_cons {call : Call} (h : isBroken (plainStep s d scopes call).1 = false)
    (calls : List Call) :
    plainAll s d (call :: calls) scopes
      = (plainStep s d scopes call).1 :: plainAll s d calls (plainStep s d scopes call).2 := by
  rw [plainAll]
  dsimp only
  rw [h]
  rfl

theorem unbroken_cons {call : Call} {calls : List Call} :
    Unbroken s d (call :: calls) scopes ↔
      isBroken (plainStep s d scopes call).1 = false ∧
        Unbroken s d calls (plainStep s d scopes call).2 := by
  unfold Unbroken
  cases hbroken : isBroken (plainStep s d scopes call).1 with
  | true =>
    have hall : plainAll s d (call :: calls) scopes = [(plainStep s d scopes call).1] := by
      rw [plainAll]
      dsimp only
      rw [hbroken]
      rfl
    rw [hall]
    simp [hbroken]
  | false =>
    rw [plainAll_cons hbroken]
    simp [hbroken]

theorem Unbroken.length {calls : List Call} (h : Unbroken s d calls scopes) :
    (plainAll s d calls scopes).length = calls.length := by
  induction calls generalizing scopes with
  | nil => rfl
  | cons call calls ih =>
    obtain ⟨hcall, hmore⟩ := unbroken_cons.mp h
    rw [plainAll_cons hcall, List.length_cons, ih hmore, List.length_cons]

theorem Unbroken.append {before : List Call} (h : Unbroken s d before scopes) (after : List Call) :
    plainAll s d (before ++ after) scopes
      = plainAll s d before scopes ++ plainAll s d after (scopesAfter s d before scopes) := by
  induction before generalizing scopes with
  | nil => rfl
  | cons call before ih =>
    obtain ⟨hcall, hmore⟩ := unbroken_cons.mp h
    rw [List.cons_append, plainAll_cons hcall, plainAll_cons hcall, ih hmore]
    rfl

theorem Unbroken.of_append {before after : List Call} (h : Unbroken s d (before ++ after) scopes) :
    Unbroken s d before scopes := by
  induction before generalizing scopes with
  | nil =>
    intro outcome heq
    cases heq
  | cons call before ih =>
    obtain ⟨hcall, hmore⟩ := unbroken_cons.mp h
    exact unbroken_cons.mpr ⟨hcall, ih hmore⟩

/-- What comes after calls depends on the scopes that they leave. -/
theorem Unbroken.drop {before : List Call} (h : Unbroken s d before scopes) (after : List Call) :
    (plainAll s d (before ++ after) scopes).drop before.length
      = plainAll s d after (scopesAfter s d before scopes) := by
  rw [h.append, ← h.length, List.drop_left]

theorem scopesAfter_append (before after : List Call) (scopes : Scopes) :
    scopesAfter s d (before ++ after) scopes
      = scopesAfter s d after (scopesAfter s d before scopes) :=
  List.foldl_append

/-- A call that fails leaves the scopes as they were. -/
theorem scopesAfter_of_fails {before : List Call} {call : Call}
    (h : Unbroken s d (before ++ [call]) scopes) {e : Failure}
    (hfails : (plainAll s d (before ++ [call]) scopes).getLast? = some (.error e)) :
    scopesAfter s d (before ++ [call]) scopes = scopesAfter s d before scopes := by
  have hcall : Unbroken s d [call] (scopesAfter s d before scopes) := by
    intro outcome houtcome
    refine h outcome ?_
    rw [h.of_append.append]
    exact List.mem_append_right _ houtcome
  rw [h.of_append.append, plainAll_cons (unbroken_cons.mp hcall).1] at hfails
  have hstep : (plainStep s d (scopesAfter s d before scopes) call).1 = .error e := by
    simpa [plainAll] using hfails
  rw [scopesAfter_append]
  show (plainStep s d (scopesAfter s d before scopes) call).2 = _
  unfold plainStep at hstep ⊢
  cases hplain : call.plain s d (scopesAfter s d before scopes) with
  | error e => rfl
  | ok result =>
    rw [hplain] at hstep
    cases hstep

end

/-- Calls that close all the scopes they open, and no others. -/
inductive Nested : List Call → Prop where
  | nil : Nested []
  | other {call : Call} {calls : List Call} (hpush : call ≠ .push) (hpop : call ≠ .pop)
      (h : Nested calls) : Nested (call :: calls)
  | block {inside after : List Call} (hinside : Nested inside) (h : Nested after) :
      Nested (.push :: (inside ++ .pop :: after))

section

variable {s d}

theorem scopes_plainly {scopes : Scopes} (place : Place)
    (g : Query.Compiled → Except EvaluationError α) (reply : α → Reply) :
    (outcomeOf scopes (plainly s scopes place g reply)).2 = scopes := by
  unfold plainly
  cases Plain.answer s place g <;> rfl

theorem plainStep_other {call : Call} (hpush : call ≠ .push) (hpop : call ≠ .pop) (scope : List Binding)
    (outer : Scopes) : ∃ scope', (plainStep s d (scope :: outer) call).2 = scope' :: outer := by
  cases call with
  | push => exact absurd rfl hpush
  | pop => exact absurd rfl hpop
  | bind place name node =>
    unfold plainStep plain
    dsimp only
    cases compileAt s place with
    | error e => exact ⟨scope, rfl⟩
    | ok q =>
      show ∃ scope', (outcomeOf (scope :: outer)
        ((Scopes.bind ⟨name, q, node⟩ (scope :: outer)).mapError Failure.scope >>= fun bound =>
          .ok (Reply.done, bound))).2 = scope' :: outer
      unfold Scopes.bind
      dsimp only
      split
      · exact ⟨scope, rfl⟩
      · exact ⟨⟨name, q, node⟩ :: scope, rfl⟩
  | evaluate place node => exact ⟨scope, scopes_plainly place _ .value⟩
  | test place kind node => exact ⟨scope, scopes_plainly place _ (.truth ∘ kind.fires)⟩
  | isMatch p r node => exact ⟨scope, scopes_plainly (.context p r) _ .truth⟩

theorem Nested.scopesAfter {calls : List Call} (h : Nested calls) (scope : List Binding) (outer : Scopes) :
    ∃ scope', Call.scopesAfter s d calls (scope :: outer) = scope' :: outer := by
  induction h generalizing scope outer with
  | nil => exact ⟨scope, rfl⟩
  | @other call calls hpush hpop _ ih =>
    obtain ⟨scope', hscope⟩ := plainStep_other (s := s) (d := d) hpush hpop scope outer
    show ∃ scope', Call.scopesAfter s d calls (plainStep s d (scope :: outer) call).2 = scope' :: outer
    rw [hscope]
    exact ih scope' outer
  | @block inside after _ _ ihinside ih =>
    obtain ⟨own, hown⟩ := ihinside [] (scope :: outer)
    show ∃ scope', Call.scopesAfter s d (inside ++ .pop :: after) ([] :: scope :: outer) = scope' :: outer
    rw [scopesAfter_append, hown]
    exact ih scope outer

/-- A scope that was opened and closed again leaves nothing behind. -/
theorem Nested.closed {inside : List Call} (h : Nested inside) (scopes : Scopes) :
    Call.scopesAfter s d (.push :: (inside ++ [.pop])) scopes = scopes := by
  obtain ⟨own, hown⟩ := h.scopesAfter (s := s) (d := d) [] scopes
  show Call.scopesAfter s d (inside ++ [.pop]) ([] :: scopes) = scopes
  rw [scopesAfter_append, hown]
  rfl

end

end Call

open Call

/-- A session remembers nothing that evaluation would not find again, and no evaluation is under way. The value
of a binding is found from where the binding is. -/
structure Session.Faithful (b : Basis) (session : Session) : Prop where
  settled : ∀ p x, session.memory.cell? p ≠ some ⟨x, .evaluating⟩
  values : ∀ p x v, session.memory.cell? p = some ⟨x, .ready v⟩ →
    meaning b (denote b (visible session.environment p)) x.query x.node = .ok v
  selections : SelectionsSound b session.selections

theorem Session.Represents.faithful {b : Basis} {session : Session} {scopes : Scopes}
    (h : session.Represents b scopes) : session.Faithful b := by
  have hagrees (p : Horizon) (cell : Cell) (hcell : session.memory.cell? p = some cell) :
      cell.state.Agrees
        (meaning b (denote b (visible session.environment p)) cell.binding.query cell.binding.node) := by
    have hbefore := Memory.before_top hcell
    rw [h.memory.environment] at hbefore
    rw [Session.environment, h.memory.environment]
    exact h.memory.cells p cell hbefore hcell
  exact ⟨fun p x hcell => hagrees p _ hcell, fun p x v hcell => hagrees p _ hcell, h.selections⟩

/-- Calls are answered by what variables stand for in the scopes as they are. None complains of a variable
that depends on itself; what a session remembers is what it would find again; a call that fails changes no
later outcome, and neither does a scope that was opened and closed again. -/
theorem calls_answered_plainly (s : Schema.Compiled) (d : Document) (places : List Place) :
    (∀ calls, (outcomes s d places calls).map Prod.fst = plainAll s d calls []) ∧
    (∀ calls, (∀ step ∈ outcomes s d places calls, isBroken step.1 = false) →
      (outcomes s d places calls).length = calls.length) ∧
    (∀ calls, ∀ step ∈ outcomes s d places calls, ∀ name,
      step.1 ≠ .error (.evaluation (.circularVariable name))) ∧
    (∀ calls, ∀ step ∈ outcomes s d places calls, isBroken step.1 = false →
      step.2.session.Faithful (Plain.basis s d)) ∧
    (∀ before call after e, (∀ step ∈ outcomes s d places (before ++ [call]), isBroken step.1 = false) →
      ((outcomes s d places (before ++ [call])).map Prod.fst).getLast? = some (.error e) →
      ((outcomes s d places (before ++ call :: after)).map Prod.fst).drop (before.length + 1)
        = ((outcomes s d places (before ++ after)).map Prod.fst).drop before.length) ∧
    ∀ before inside after, Nested inside →
      (∀ step ∈ outcomes s d places (before ++ .push :: (inside ++ [.pop])), isBroken step.1 = false) →
      ((outcomes s d places (before ++ .push :: (inside ++ .pop :: after))).map Prod.fst).drop
          (before.length + inside.length + 2)
        = ((outcomes s d places (before ++ after)).map Prod.fst).drop before.length := by
  have hsteps := fun calls => performAll_steps (Run.initial_shows s d).session calls
  have hshared : ∀ calls, outcomes s d places calls = (performAll calls (Run.initial s d)).runAnew s :=
    fun calls => ((performAll calls (Run.initial s d)).runShared_fetched s places).1
  have hplain : ∀ calls, (outcomes s d places calls).map Prod.fst = plainAll s d calls [] :=
    fun calls => hshared calls ▸ (hsteps calls).1
  have hunbroken : ∀ calls, (∀ step ∈ outcomes s d places calls, isBroken step.1 = false) →
      Unbroken s d calls [] := by
    intro calls h outcome houtcome
    rw [← hplain] at houtcome
    obtain ⟨step, hstep, rfl⟩ := List.mem_map.mp houtcome
    exact h step hstep
  refine ⟨hplain, ?_, ?_, ?_, ?_, ?_⟩
  · intro calls h
    rw [← (hunbroken calls h).length, ← hplain, List.length_map]
  · intro calls step hstep
    exact uncircular_plainAll _ _ (hplain calls ▸ List.mem_map_of_mem hstep)
  · intro calls step hstep hbroken
    rw [hshared] at hstep
    obtain ⟨scopes, hscopes⟩ := (hsteps calls).2 step hstep hbroken
    exact hscopes.faithful
  · intro before call after e h hfails
    have hcalls := hunbroken _ h
    rw [hplain] at hfails
    have hlength : before.length + 1 = (before ++ [call]).length := by
      rw [List.length_append, List.length_singleton]
    rw [hplain, hplain, List.append_cons, hlength, hcalls.drop, hcalls.of_append.drop,
      scopesAfter_of_fails hcalls hfails]
  · intro before inside after hinside h
    have hcalls := hunbroken _ h
    have hlength : before.length + inside.length + 2
        = (before ++ Call.push :: (inside ++ [Call.pop])).length := by
      simp
      omega
    have hshape : before ++ Call.push :: (inside ++ Call.pop :: after)
        = (before ++ Call.push :: (inside ++ [Call.pop])) ++ after := by
      simp
    rw [hplain, hplain, hshape, hlength, hcalls.drop, hcalls.of_append.drop, scopesAfter_append,
      hinside.closed]

end Schematron.Validation
