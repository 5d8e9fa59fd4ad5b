import Schematron.Proofs.Validation.Steps

/-!
A run of a schema gives what its phase, patterns, rules and assertions say of the nodes of the document,
with nothing in scope but the bindings at hand.
-/

namespace Schematron.Validation

open Schematron.Evaluation
open Schematron.Xml

namespace Plain

variable {α : Type} (o : Options) (s : Schema.Compiled) (d : Document)

/-- What the queries of the runs of a schema over a document have in common. -/
def basis : Basis where
  document := d
  language := s.language
  prefixes := s.document.namespaces.map fun n => (n.nsPrefix, n.uri)

/-- An error ends the run, unless it is one to put up with. -/
def settle (fallback : α) : Except EvaluationError α → Except Failure α
  | .ok a => .ok a
  | .error e =>
    match Failure.ofEvaluation e with
    | .evaluation e => if o.lenient then .ok fallback else .error (.evaluation e)
    | failure => .error failure

/-- What the query at a place gives. -/
def answer (place : Place) (f : Query.Compiled → Except EvaluationError α) : Except EvaluationError α :=
  match compileAt s place with
  | .error e => .error (.parse e)
  | .ok q => f q

/-- The bindings of one scope after one more, the newest first. No two have the same name. -/
def bindLet (place : Place) (name : String) (node : Node) (scope : List Binding) :
    Except Failure (List Binding) :=
  match compileAt s place with
  | .error e => settle o scope (.error (.parse e))
  | .ok q =>
    if scope.any (·.name = name) then .error (.scope (.duplicateBinding name))
    else .ok (⟨name, q, node⟩ :: scope)

def bindAll (place : Nat → Place) (lets : List Schema.Let) (node : Node) (scope : List Binding) :
    Except Failure (List Binding) :=
  lets.zipIdx.foldlM (fun scope (l, i) => bindLet o s (place i) l.name node scope) scope

variable (bindings : List Binding)

/-- The text of a message at a node. -/
def render (place : Nat → Place) (message : Schema.Message) (node : Node) : Except Failure String := do
  let pieces ← message.zipIdx.mapM fun (part, i) =>
    match part with
    | .text t => .ok t
    | _ => settle o "" (answer s (place i) fun q =>
        (value (basis s d) bindings q node).map (Value.toText d))
  return Text.normalizeBlanks (String.join pieces)

/-- The diagnostics with these ids, without those that the schema does not know. -/
def diagnostics (ids : List String) (node : Node) : Except Failure (List Diagnostic) := do
  let found ← ids.mapM fun id => do
    match s.document.diagnostics.get? id with
    | some message => return [⟨id, ← render o s d bindings (.diagnosticPart id) message node⟩]
    | none => return []
  return found.flatten

/-- The event of an assertion that is due at a node. -/
def event (pattern : Schema.Pattern) (rule : Schema.Rule) (a : Schema.Assertion) (place : Nat → Place)
    (node : Node) : Except Failure Event := do
  let message ← render o s d bindings place a.message node
  let diagnostics ← diagnostics o s d bindings a.diagnostics node
  return {
    patternId := pattern.id
    ruleId := rule.id
    assertionId := a.id
    kind := a.kind
    test := a.test
    message
    location := d.location node
    role := a.role
    flag := a.flag
    diagnosticIds := a.diagnostics
    diagnostics }

/-- The events of a rule at a node it matches, in the order of its assertions. -/
def fire (pattern : Schema.Pattern) (p : Nat) (rule : Schema.Rule) (r : Nat) (node : Node) :
    Except Failure (List Event) := do
  let own ← bindAll o s (.ruleLet p r) rule.lets node []
  let events ← rule.assertions.zipIdx.mapM fun (a, i) => do
    let outcome := answer s (.test p r i) fun q =>
      (value (basis s d) (own ++ bindings) q node).map Value.toBoolean
    if ← settle o false (outcome.map a.kind.fires) then
      return [← event o s d (own ++ bindings) pattern rule a (.messagePart p r i) node]
    else return []
  return events.flatten

/-- The first of the rules that matches a node. -/
def firstMatch (p : Nat) (node : Node) :
    List (Schema.Rule × Nat) → Except Failure (Option (Schema.Rule × Nat))
  | [] => .ok none
  | (rule, r) :: rules => do
    let matched := answer s (.context p r) fun q => isMatch (basis s d) bindings q node
    if ← settle o false matched then return some (rule, r)
    else firstMatch p node rules

/-- The events of a pattern at a node: those of its first rule that matches. -/
def visit (pattern : Schema.Pattern) (p : Nat) (node : Node) : Except Failure (List Event) := do
  let own ← bindAll o s (.patternLet p) pattern.lets Node.root []
  match ← firstMatch o s d (own ++ bindings) p node pattern.rules.zipIdx with
  | some (rule, r) => fire o s d (own ++ bindings) pattern p rule r node
  | none => return []

/-- The report of a run: the events of every node, pattern after pattern. -/
def report : Except Failure Report := do
  let phase ← (Schema.resolvePhase s o.phase).mapError Failure.schema
  let outer ← bindAll o s .schemaLet s.document.lets Node.root []
  let bindings ← bindAll o s (.phaseLet phase.id) phase.lets Node.root outer
  let events ← d.order.mapM fun node => do
    if o.cancelled.isSet node then throw .cancelled
    let events ← phase.patterns.mapM fun (pattern, p) => visit o s d bindings pattern p node
    return events.flatten
  return ⟨phase.id, events.flatten, d.order.length⟩

end Plain

/-- A run stands where these scopes are open and these events have been made. -/
structure RunState.Shows (st : RunState) (b : Basis) (scopes : Scopes) (events : List Event) : Prop where
  session : st.session.Represents b scopes
  events : st.events = events

namespace Run

variable {α β γ δ : Type}

/-- A part of a run ends as `r` does. Where that is not a failure, `post` holds of what `r` gives, of what
the part gives and of the state after it. -/
def Yields (s : Schema.Compiled) (x : Run α) (st : RunState) (r : Except Failure β)
    (post : β → α → RunState → Prop) : Prop :=
  match r with
  | .error e => (exec s x st).1 = .error e
  | .ok c => ∃ a after, exec s x st = (.ok a, after) ∧ post c a after

namespace Yields

variable {s : Schema.Compiled} {st : RunState} {x : Run α} {r : Except Failure β}
  {post : β → α → RunState → Prop}

theorem pure {a : α} {c : β} (h : post c a st) : Yields s (pure a) st (.ok c) post :=
  ⟨a, st, rfl, h⟩

theorem bind {f : α → Run γ} {k : β → Except Failure δ} {after : δ → γ → RunState → Prop}
    (hx : Yields s x st r post) (hf : ∀ c a st', post c a st' → Yields s (f a) st' (k c) after) :
    Yields s (x >>= f) st (r >>= k) after := by
  cases r with
  | error e =>
    have he : (exec s x st).1 = .error e := hx
    show (exec s (x >>= f) st).1 = .error e
    rw [exec_bind_error s st (Prod.ext he rfl : exec s x st = (.error e, (exec s x st).2))]
  | ok c =>
    obtain ⟨a, st', hexec, hpost⟩ := hx
    have hnext := hf c a st' hpost
    unfold Yields at hnext ⊢
    rw [exec_bind_ok s st hexec]
    exact hnext

/-- The same part, where less is asked of what it gives. -/
theorem map {g : β → δ} {after : δ → α → RunState → Prop}
    (hx : Yields s x st r fun c a st' => after (g c) a st') :
    Yields s x st (r >>= fun c => .ok (g c)) after := by
  cases r with
  | error e => exact hx
  | ok c => exact hx

/-- Before a part that always goes through. -/
theorem last {f : α → Run γ} {after : β → γ → RunState → Prop} (hx : Yields s x st r post)
    (hf : ∀ c a st', post c a st' → ∃ b st'', exec s (f a) st' = (.ok b, st'') ∧ after c b st'') :
    Yields s (x >>= f) st r after := by
  rw [← bind_pure r]
  exact hx.bind hf

/-- After a part that always goes through. -/
theorem step {a : α} {st' : RunState} (hexec : exec s x st = (.ok a, st')) {f : α → Run γ}
    {r : Except Failure δ} {post : δ → γ → RunState → Prop} (hf : Yields s (f a) st' r post) :
    Yields s (x >>= f) st r post := by
  unfold Yields at hf ⊢
  rw [exec_bind_ok s st hexec]
  exact hf

theorem mapM {l : List γ} {f : γ → Run α} {g : γ → Except Failure α} {I : RunState → Prop}
    (h : ∀ a st, I st → Yields s (f a) st (g a) fun c b st' => b = c ∧ I st') (hst : I st) :
    Yields s (l.mapM f) st (l.mapM g) fun cs bs st' => bs = cs ∧ I st' := by
  induction l generalizing st with
  | nil => exact .pure ⟨rfl, hst⟩
  | cons a l ih =>
    rw [List.mapM_cons, List.mapM_cons]
    refine (h a st hst).bind ?_
    intro c _ st' hst'
    obtain ⟨rfl, hst'⟩ := hst'
    refine (ih hst').bind ?_
    intro cs _ st'' hst''
    obtain ⟨rfl, hst''⟩ := hst''
    exact .pure ⟨rfl, hst''⟩

end Yields

section

variable {o : Options} {s : Schema.Compiled} {d : Document} {st : RunState} {scopes : Scopes}
  {events : List Event}

theorem exec_tolerate (fallback : α) (r : Except EvaluationError α) :
    exec s (tolerate o fallback r) st = (Plain.settle o fallback r, st) := by
  cases r with
  | ok a => rfl
  | error e =>
    unfold tolerate Plain.settle
    dsimp only
    cases Failure.ofEvaluation e with
    | evaluation e => by_cases h : o.lenient <;> simp only [h, if_true] <;> rfl
    | _ => rfl

theorem not_breaksOff_of_settle {fallback a : α} {r : Except EvaluationError α}
    (h : Plain.settle o fallback r = .ok a) : ¬BreaksOff r := by
  intro h
  obtain ⟨p, rfl⟩ := h
  cases h

theorem yields_tolerate {fallback : α} {r : Except EvaluationError α}
    (h : ¬BreaksOff r → st.Shows (Plain.basis s d) scopes events) :
    Yields s (tolerate o fallback r) st (Plain.settle o fallback r)
      fun c a st' => a = c ∧ st'.Shows (Plain.basis s d) scopes events := by
  unfold Yields
  rw [exec_tolerate]
  cases hr : Plain.settle o fallback r with
  | error e => rfl
  | ok a => exact ⟨a, st, rfl, rfl, h (not_breaksOff_of_settle hr)⟩

/-- A query in a session gives what it gives with the bindings of the scopes. -/
theorem query_shows (h : st.Shows (Plain.basis s d) scopes events) (place : Place)
    {f : Session → Query.Compiled → Except EvaluationError α × Session}
    {g : Query.Compiled → Except EvaluationError α}
    (hf : ∀ q, compileAt s place = .ok q → Gives (Plain.basis s d) scopes (f st.session q) (g q)) :
    ∃ st', exec s (withQuery place f) st = (.ok (Plain.answer s place g), st') ∧
      (¬BreaksOff (Plain.answer s place g) → st'.Shows (Plain.basis s d) scopes events) := by
  unfold Plain.answer
  rw [exec_withQuery]
  cases hq : compileAt s place with
  | error e => exact ⟨st, rfl, fun _ => h⟩
  | ok q =>
    obtain ⟨hanswer, hafter⟩ := hf q hq
    refine ⟨{ st with session := (f st.session q).2 }, ?_, fun hbreak => ⟨hafter hbreak, h.events⟩⟩
    dsimp only
    rw [hanswer]

theorem enter_shows (h : st.Shows (Plain.basis s d) scopes events) (stage : Stage) :
    ∃ st', exec s (enter stage) st = (.ok ⟨⟩, st') ∧ st'.Shows (Plain.basis s d) scopes events :=
  ⟨_, exec_modify s st _, h.session, h.events⟩

theorem push_shows (h : st.Shows (Plain.basis s d) scopes events) :
    ∃ st', exec s pushScope st = (.ok ⟨⟩, st') ∧ st'.Shows (Plain.basis s d) scopes.push events :=
  ⟨_, exec_pushScope s st, h.session.push, h.events⟩

theorem pop_shows {scope : List Binding} (h : st.Shows (Plain.basis s d) (scope :: scopes) events) :
    ∃ st', exec s popScope st = (.ok ⟨⟩, st') ∧ st'.Shows (Plain.basis s d) scopes events := by
  obtain ⟨session, hpop, hsession⟩ := h.session.pop
  rw [exec_popScope, hpop]
  exact ⟨_, rfl, hsession, h.events⟩

theorem yields_bindLet {scope : List Binding} (h : st.Shows (Plain.basis s d) (scope :: scopes) events)
    (place : Place) (name : String) (node : Node) :
    Yields s (bindLet o place name node) st (Plain.bindLet o s place name node scope)
      fun own _ st' => st'.Shows (Plain.basis s d) (own :: scopes) events := by
  have hexec := exec_bindLet s st o place name node
  unfold Plain.bindLet
  cases hq : compileAt s place with
  | error e =>
    unfold Yields
    rw [hexec, hq]
    dsimp only
    rw [exec_tolerate]
    unfold Plain.settle Failure.ofEvaluation
    by_cases hlenient : o.lenient
    · simp only [hlenient, if_true]
      exact ⟨_, st, rfl, h⟩
    · simp only [hlenient]
      rfl
  | ok q =>
    have hbind := h.session.bind ⟨name, q, node⟩
    unfold Yields
    rw [hexec, hq]
    dsimp only
    rw [exec_bindQuery]
    unfold Scopes.bind at hbind
    dsimp only at hbind ⊢
    by_cases hdup : (scope.any (·.name = name)) = true
    · rw [if_pos hdup] at hbind ⊢
      rw [hbind]
    · rw [if_neg hdup] at hbind ⊢
      obtain ⟨session, hsession, hrepresents⟩ := hbind
      rw [hsession]
      exact ⟨_, _, rfl, hrepresents, h.events⟩

theorem yields_bindAll {scope : List Binding} (h : st.Shows (Plain.basis s d) (scope :: scopes) events)
    (place : Nat → Place) (lets : List Schema.Let) (node : Node) :
    Yields s (bindAll o place lets node) st (Plain.bindAll o s place lets node scope)
      fun own _ st' => st'.Shows (Plain.basis s d) (own :: scopes) events := by
  unfold bindAll Plain.bindAll
  induction lets.zipIdx generalizing scope st with
  | nil => exact .pure h
  | cons item lets ih =>
    refine (yields_bindLet h (place item.2) item.1.name node).bind fun own _ st' h' => ?_
    exact ih h'

variable {bindings : List Binding}

theorem yields_render (h : st.Shows (Plain.basis s d) scopes events) (place : Nat → Place)
    (message : Schema.Message) (node : Node) :
    Yields s (render o place message node) st (Plain.render o s d scopes.flatten place message node)
      fun c a st' => a = c ∧ st'.Shows (Plain.basis s d) scopes events := by
  refine (Yields.mapM (I := (·.Shows (Plain.basis s d) scopes events)) ?_ h).bind ?_
  · intro item st h
    obtain ⟨part, i⟩ := item
    cases part with
    | text t => exact .pure ⟨rfl, h⟩
    | _ =>
      obtain ⟨st', hexec, hafter⟩ := query_shows h (place i)
        (f := fun session q => session.evaluateText q node) fun q _ => h.session.evaluateText q node
      exact .step hexec (yields_tolerate hafter)
  · intro pieces _ st' h'
    obtain ⟨rfl, h'⟩ := h'
    exact .pure ⟨rfl, h'⟩

theorem yields_renderDiagnostics (h : st.Shows (Plain.basis s d) scopes events) (ids : List String)
    (node : Node) :
    Yields s (renderDiagnostics o s ids node) st (Plain.diagnostics o s d scopes.flatten ids node)
      fun c a st' => a = c ∧ st'.Shows (Plain.basis s d) scopes events := by
  refine (Yields.mapM (I := (·.Shows (Plain.basis s d) scopes events)) ?_ h).bind ?_
  · intro id st h
    cases s.document.diagnostics.get? id with
    | none => exact .pure ⟨rfl, h⟩
    | some message =>
      refine (yields_render h (.diagnosticPart id) message node).bind ?_
      intro text _ st' h'
      obtain ⟨rfl, h'⟩ := h'
      exact .pure ⟨rfl, h'⟩
  · intro found _ st' h'
    obtain ⟨rfl, h'⟩ := h'
    exact .pure ⟨rfl, h'⟩

theorem yields_event (h : st.Shows (Plain.basis s d) scopes events) (pattern : Schema.Pattern)
    (rule : Schema.Rule) (a : Schema.Assertion) (place : Nat → Place) (node : Node) :
    Yields s (event o s pattern rule a place node) st
      (Plain.event o s d scopes.flatten pattern rule a place node)
      fun c a st' => a = c ∧ st'.Shows (Plain.basis s d) scopes events := by
  refine (yields_render h place a.message node).bind ?_
  intro message _ st' h'
  obtain ⟨rfl, h'⟩ := h'
  refine (yields_renderDiagnostics h' a.diagnostics node).bind ?_
  intro diagnostics _ st'' h''
  obtain ⟨rfl, h''⟩ := h''
  refine .step (exec_get s st'') (.pure ⟨?_, h''⟩)
  rw [h''.session.basis]
  rfl

/-- Events made one after the other. -/
theorem Yields.forM {l : List γ} {f : γ → Run Unit} {g : γ → Except Failure (List Event)}
    (h : ∀ a st events, st.Shows (Plain.basis s d) scopes events →
      Yields s (f a) st (g a) fun es _ st' => st'.Shows (Plain.basis s d) scopes (events ++ es))
    (hst : st.Shows (Plain.basis s d) scopes events) :
    Yields s (l.forM f) st (l.mapM g)
      fun es _ st' => st'.Shows (Plain.basis s d) scopes (events ++ es.flatten) := by
  induction l generalizing st events with
  | nil =>
    rw [List.mapM_nil]
    refine .pure ?_
    rw [List.flatten_nil, List.append_nil]
    exact hst
  | cons a l ih =>
    rw [List.mapM_cons]
    refine (h a st events hst).bind fun es _ st' h' => Yields.map ?_
    have hmore := ih h'
    simp only [List.append_assoc] at hmore
    exact hmore

theorem yields_assertion (h : st.Shows (Plain.basis s d) scopes events) (pattern : Schema.Pattern)
    (p : Nat) (rule : Schema.Rule) (r : Nat) (a : Schema.Assertion) (i : Nat) (node : Node) :
    Yields s (do
        let outcome ← withQuery (.test p r i) fun s q => s.evaluateTest q node
        if ← tolerate o false (outcome.map a.kind.fires) then
          let e ← event o s pattern rule a (.messagePart p r i) node
          modify fun s => { s with events := s.events ++ [e] }) st
      (do
        let outcome := Plain.answer s (.test p r i) fun q =>
          (Plain.value (Plain.basis s d) scopes.flatten q node).map Value.toBoolean
        if ← Plain.settle o false (outcome.map a.kind.fires) then
          return [← Plain.event o s d scopes.flatten pattern rule a (.messagePart p r i) node]
        else return [])
      fun es _ st' => st'.Shows (Plain.basis s d) scopes (events ++ es) := by
  obtain ⟨st', hexec, hafter⟩ := query_shows h (.test p r i)
    (f := fun session q => session.evaluateTest q node) fun q _ => h.session.evaluateTest q node
  refine .step hexec ?_
  refine (yields_tolerate fun hbreak => hafter fun hr => hbreak (hr.map a.kind.fires)).bind ?_
  intro _ due st'' h''
  obtain ⟨rfl, h''⟩ := h''
  cases due with
  | false =>
    refine .pure ?_
    rw [List.append_nil]
    exact h''
  | true =>
    refine (yields_event h'' pattern rule a (.messagePart p r i) node).bind ?_
    intro e _ after hafter
    obtain ⟨rfl, hafter⟩ := hafter
    refine ⟨⟨⟩, _, exec_modify s after _, hafter.session, ?_⟩
    rw [hafter.events]

theorem yields_fire (h : st.Shows (Plain.basis s d) scopes events) (pattern : Schema.Pattern) (p : Nat)
    (rule : Schema.Rule) (r : Nat) (node : Node) :
    Yields s (fire o s pattern p rule r node) st
      (Plain.fire o s d scopes.flatten pattern p rule r node)
      fun es _ st' => st'.Shows (Plain.basis s d) scopes (events ++ es) := by
  obtain ⟨st', hpush, h'⟩ := push_shows h
  refine .step hpush ?_
  refine (yields_bindAll h' (.ruleLet p r) rule.lets node).bind fun own _ st' h' => ?_
  refine (Yields.forM ?_ h').bind fun es _ st' h' => ?_
  · intro item st events h
    obtain ⟨a, i⟩ := item
    exact yields_assertion h pattern p rule r a i node
  · obtain ⟨st'', hpop, h''⟩ := pop_shows h'
    exact ⟨⟨⟩, st'', hpop, h''⟩

theorem yields_fireFirst (h : st.Shows (Plain.basis s d) scopes events) (pattern : Schema.Pattern)
    (p : Nat) (node : Node) (rules : List (Schema.Rule × Nat)) :
    Yields s (fireFirst o s pattern p node rules) st
      (do
        match ← Plain.firstMatch o s d scopes.flatten p node rules with
        | some (rule, r) => Plain.fire o s d scopes.flatten pattern p rule r node
        | none => return [])
      fun es _ st' => st'.Shows (Plain.basis s d) scopes (events ++ es) := by
  induction rules generalizing st with
  | nil =>
    refine .pure ?_
    rw [List.append_nil]
    exact h
  | cons item rules ih =>
    obtain ⟨rule, r⟩ := item
    obtain ⟨st', hexec, hafter⟩ := query_shows h (.context p r)
      (f := fun session q => session.isMatch q node) fun q hq => h.session.isMatch hq node
    refine .step hexec ?_
    unfold Plain.firstMatch
    dsimp only
    rw [bind_assoc]
    refine (yields_tolerate hafter).bind ?_
    intro _ matched st'' h''
    obtain ⟨rfl, h''⟩ := h''
    cases matched with
    | false => exact ih h''
    | true => exact yields_fire h'' pattern p rule r node

theorem yields_visit (h : st.Shows (Plain.basis s d) scopes events) (pattern : Schema.Pattern) (p : Nat)
    (node : Node) :
    Yields s (visit o s pattern p node) st (Plain.visit o s d scopes.flatten pattern p node)
      fun es _ st' => st'.Shows (Plain.basis s d) scopes (events ++ es) := by
  obtain ⟨st', hpush, h'⟩ := push_shows h
  refine .step hpush ?_
  refine (yields_bindAll h' (.patternLet p) pattern.lets Node.root).bind fun own _ st' h' => ?_
  refine (yields_fireFirst h' pattern p node pattern.rules.zipIdx).last fun es _ st' h' => ?_
  obtain ⟨st'', hpop, h''⟩ := pop_shows h'
  exact ⟨⟨⟩, st'', hpop, h''⟩

theorem initial_shows (s : Schema.Compiled) (d : Document) :
    (initial s d).Shows (Plain.basis s d) [] [] :=
  ⟨Session.start_represents _, rfl⟩

theorem yields_node (hbindings : scopes.flatten = bindings)
    (h : st.Shows (Plain.basis s d) scopes events) (patterns : List (Schema.Pattern × Nat)) (node : Node) :
    Yields s (do
        if o.cancelled.isSet node then throw .cancelled
        patterns.forM fun (pattern, p) => visit o s pattern p node
        enter .nodeEvaluated) st
      (do
        if o.cancelled.isSet node then throw .cancelled
        let events ← patterns.mapM fun (pattern, p) => Plain.visit o s d bindings pattern p node
        return events.flatten)
      fun es _ st' => st'.Shows (Plain.basis s d) scopes (events ++ es) := by
  subst hbindings
  cases o.cancelled.isSet node with
  | true => rfl
  | false =>
    show Yields s ((patterns.forM fun (pattern, p) => visit o s pattern p node) >>= fun _ =>
        enter .nodeEvaluated) st
      ((patterns.mapM fun (pattern, p) => Plain.visit o s d scopes.flatten pattern p node) >>= fun events =>
        .ok events.flatten) _
    refine (Yields.forM ?_ h).bind fun es _ st' h' => ?_
    · intro item st events h
      obtain ⟨pattern, p⟩ := item
      exact yields_visit h pattern p node
    · obtain ⟨st'', henter, h''⟩ := enter_shows h' .nodeEvaluated
      exact ⟨⟨⟩, st'', henter, h''⟩

/-- A run ends as its report says, whatever it remembers on its way. -/
theorem yields_traverse (o : Options) (s : Schema.Compiled) (d : Document) :
    Yields s (traverse o s) (initial s d) (Plain.report o s d) fun report a _ => a = report := by
  unfold traverse Plain.report
  cases Schema.resolvePhase s o.phase with
  | error e => rfl
  | ok phase =>
    refine .step (exec_pure s _ phase) ?_
    obtain ⟨st, henter, h⟩ := enter_shows (initial_shows s d) .phaseSelected
    refine .step henter ?_
    obtain ⟨st, hpush, h⟩ := push_shows h
    refine .step hpush ?_
    refine (yields_bindAll h .schemaLet s.document.lets Node.root).bind fun outer _ st h => ?_
    refine (yields_bindAll h (.phaseLet phase.id) phase.lets Node.root).bind fun bindings _ st h => ?_
    obtain ⟨st, henter, h⟩ := enter_shows h .traversing
    refine .step henter ?_
    refine .step (exec_get s st) ?_
    have horder : st.session.basis.document.order = d.order := by
      rw [h.session.basis]
      rfl
    rw [horder]
    have hbindings : [bindings].flatten = bindings := List.append_nil bindings
    refine (Yields.forM (fun node st events h => yields_node hbindings h phase.patterns node) h).bind ?_
    intro events _ st h
    obtain ⟨st, hpop, h⟩ := pop_shows h
    refine .step hpop ?_
    obtain ⟨st, henter, h⟩ := enter_shows h .done
    refine .step henter (.step (exec_get s st) (.pure ?_))
    rw [h.events]
    rfl

end

end Run

/-- A run with queries compiled on the spot. -/
theorem Run.runAnew_execute (o : Options) (s : Schema.Compiled) (d : Document) :
    (execute o s d).runAnew s = match exec s (traverse o s) (initial s d) with
      | (.ok report, st) => (.ok report, st)
      | (.error e, st) => (.error e, { st with stage := .failed }) := by
  unfold execute
  rw [Queries.runAnew_bind]
  have hrun : ((traverse o s).run.run (initial s d)).runAnew s = exec s (traverse o s) (initial s d) := rfl
  rw [hrun]
  rcases exec s (traverse o s) (initial s d) with ⟨e | report, st⟩ <;> rfl

theorem validate_eq_report (o : Options) (s : Schema.Compiled) (d : Document) :
    validate o s d = Plain.report o s d := by
  have htraverse := Run.yields_traverse o s d
  unfold validate
  rw [Run.runAnew_execute]
  cases hreport : Plain.report o s d with
  | error e =>
    rw [hreport] at htraverse
    have he : (Run.exec s (Run.traverse o s) (Run.initial s d)).1 = .error e := htraverse
    rw [(Prod.ext he rfl : Run.exec s (Run.traverse o s) (Run.initial s d) = (.error e, _))]
  | ok report =>
    rw [hreport] at htraverse
    obtain ⟨_, st, hexec, rfl⟩ := htraverse
    rw [hexec]

theorem validateShared_fetched (o : Options) (s : Schema.Compiled) (d : Document) (places : List Place) :
    (validateShared o s d (.fetched s places)).1 = validate o s d :=
  congrArg Prod.fst ((Run.execute o s d).runShared_fetched s places).1

/-- A run gives the report of its schema and its document, whatever slots earlier runs have filled. -/
theorem validateShared_eq_report (o : Options) (s : Schema.Compiled) (d : Document) (places : List Place) :
    (validateShared o s d (.fetched s places)).1 = Plain.report o s d := by
  rw [validateShared_fetched, validate_eq_report]

end Schematron.Validation
