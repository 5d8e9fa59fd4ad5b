import Schematron.Proofs.Schema.Activation
import Schematron.Proofs.Validation.Run

/-!
The scopes of a run. A pattern or a rule closes the scope that it opens, so that a run stands in one scope
before and after each node, and in none when it is done. Nothing is ever wrong with scopes but a name that
the schema and its phase bind twice, or that a pattern does.
-/

namespace Schematron.Validation

open Schematron.Evaluation
open Schematron.Xml

namespace Session

variable (s : Session) (q : Query.Compiled) (node : Node)

theorem environment_evaluate : (s.evaluate q node).2.environment = s.environment :=
  (stays_queryValue (stays_variableAt s.basis s.memory.horizon) s.basis q node s.memory).environment

theorem environment_evaluateText : (s.evaluateText q node).2.environment = s.environment :=
  environment_evaluate s q node

theorem environment_evaluateTest : (s.evaluateTest q node).2.environment = s.environment :=
  environment_evaluate s q node

theorem environment_variableValue (name : String) : (s.variableValue name).2.environment = s.environment :=
  (stays_variableAt s.basis s.memory.horizon name s.memory).environment

theorem environment_selection : (s.selection q).2.environment = s.environment := by
  have hevaluate := environment_evaluate s q Node.root
  unfold selection
  dsimp only
  split
  · rfl
  · rcases hresult : s.evaluate q Node.root with ⟨e | v, after⟩
    · rw [hresult] at hevaluate
      exact hevaluate
    · rw [hresult] at hevaluate
      cases v with
      | nodes ns =>
        dsimp only
        split <;> exact hevaluate
      | _ => exact hevaluate

theorem environment_isMatch : (s.isMatch q node).2.environment = s.environment := by
  unfold isMatch
  cases q.variableRef with
  | some name =>
    have hvariable := environment_variableValue s name
    dsimp only
    rcases hresult : s.variableValue name with ⟨e | v, after⟩
    · rw [hresult] at hvariable
      exact hvariable
    · rw [hresult] at hvariable
      cases v <;> exact hvariable
  | none =>
    have hselection := environment_selection s q
    dsimp only
    rcases hresult : s.selection q with ⟨e | ns, after⟩ <;> rw [hresult] at hselection <;> exact hselection

end Session

/-- No error of an evaluation is one of scopes. -/
theorem Plain.settle_ne_scope {α : Type} (o : Options) (fallback : α) (r : Except EvaluationError α)
    (e : ScopeError) : settle o fallback r ≠ .error (.scope e) := by
  cases r with
  | ok a => simp [settle]
  | error failure =>
    cases failure with
    | brokenOff p => simp [settle, Failure.ofEvaluation]
    | _ => by_cases hlenient : o.lenient = true <;> simp [settle, Failure.ofEvaluation, hlenient]

namespace Run

variable {α β γ : Type}

/-- A part of a run gets to where `post` holds, or it fails. Where scopes are what it fails for, `wrong`
holds of what is wrong with them. -/
def Ends (s : Schema.Compiled) (x : Run α) (st : RunState) (wrong : ScopeError → Prop)
    (post : α → RunState → Prop) : Prop :=
  match exec s x st with
  | (.ok a, after) => post a after
  | (.error failure, _) => ∀ e, failure = .scope e → wrong e

/-- A part of a run that goes through leaves all scopes as they were. -/
def Keeps (s : Schema.Compiled) (x : Run α) (wrong : ScopeError → Prop) : Prop :=
  ∀ st, Ends s x st wrong fun _ after => after.session.environment = st.session.environment

variable {s : Schema.Compiled} {st : RunState} {wrong : ScopeError → Prop} {x : Run α}

namespace Ends

variable {post : α → RunState → Prop}

theorem of_ok {a : α} {after : RunState} (h : exec s x st = (.ok a, after)) (hpost : post a after) :
    Ends s x st wrong post := by
  unfold Ends
  rw [h]
  exact hpost

theorem ok {a : α} {after : RunState} (h : Ends s x st wrong post) (hx : exec s x st = (.ok a, after)) :
    post a after := by
  unfold Ends at h
  rw [hx] at h
  exact h

theorem scope {e : ScopeError} {after : RunState} (h : Ends s x st wrong post)
    (hx : exec s x st = (.error (.scope e), after)) : wrong e := by
  unfold Ends at h
  rw [hx] at h
  exact h e rfl

theorem bind {f : α → Run β} {last : β → RunState → Prop} (hx : Ends s x st wrong post)
    (hf : ∀ a after, post a after → Ends s (f a) after wrong last) : Ends s (x >>= f) st wrong last := by
  unfold Ends at hx ⊢
  rw [exec_bind]
  rcases hresult : exec s x st with ⟨failure | a, after⟩ <;> rw [hresult] at hx
  · exact hx
  · exact hf a after hx

/-- After a part that always goes through. -/
theorem step {a : α} {after : RunState} (h : exec s x st = (.ok a, after)) {f : α → Run β}
    {last : β → RunState → Prop} (hf : Ends s (f a) after wrong last) : Ends s (x >>= f) st wrong last := by
  unfold Ends at hf ⊢
  rw [exec_bind_ok s st h]
  exact hf

theorem mono {wrong' : ScopeError → Prop} {post' : α → RunState → Prop} (h : Ends s x st wrong post)
    (hwrong : ∀ e, wrong e → wrong' e) (hpost : ∀ a after, post a after → post' a after) :
    Ends s x st wrong' post' := by
  unfold Ends at h ⊢
  rcases hresult : exec s x st with ⟨failure | a, after⟩ <;> rw [hresult] at h
  · intro e he
    exact hwrong e (h e he)
  · exact hpost a after h

end Ends

namespace Keeps

theorem pure (a : α) : Keeps s (pure a) wrong := fun st => .of_ok (exec_pure s st a) rfl

theorem bind {f : α → Run β} (hx : Keeps s x wrong) (hf : ∀ a, Keeps s (f a) wrong) :
    Keeps s (x >>= f) wrong := by
  intro st
  apply (hx st).bind
  intro a after hafter
  apply (hf a after).mono (fun _ h => h)
  intro _ last hlast
  rw [hlast, hafter]

theorem mapM {l : List γ} {f : γ → Run α} (hf : ∀ c, Keeps s (f c) wrong) : Keeps s (l.mapM f) wrong := by
  induction l with
  | nil => exact pure []
  | cons c l ih =>
    rw [List.mapM_cons]
    apply (hf c).bind
    intro a
    apply ih.bind
    intro as
    exact pure (a :: as)

theorem forM {l : List γ} {f : γ → Run Unit} (hf : ∀ c ∈ l, Keeps s (f c) wrong) :
    Keeps s (l.forM f) wrong := by
  induction l with
  | nil => exact pure ()
  | cons c l ih =>
    have hrest : Keeps s (l.forM f) wrong := ih fun c hc => hf c (List.mem_cons_of_mem _ hc)
    exact (hf c List.mem_cons_self).bind fun _ => hrest

/-- What is asked of a session leaves its scopes alone. -/
theorem withQuery (place : Place) {f : Session → Query.Compiled → Except EvaluationError α × Session}
    (hf : ∀ session q, (f session q).2.environment = session.environment) :
    Keeps s (withQuery place f) wrong := by
  intro st
  unfold Ends
  rw [exec_withQuery]
  cases compileAt s place with
  | error e => rfl
  | ok q => exact hf st.session q

theorem tolerate (o : Options) (fallback : α) (r : Except EvaluationError α) :
    Keeps s (tolerate o fallback r) wrong := by
  intro st
  unfold Ends
  rw [exec_tolerate]
  cases hsettle : Plain.settle o fallback r with
  | ok a => rfl
  | error failure =>
    intro e he
    subst he
    exact absurd hsettle (Plain.settle_ne_scope o fallback r e)

end Keeps

section

variable {o : Options}

theorem keeps_render (place : Nat → Place) (message : Schema.Message) (node : Node) :
    Keeps s (render o place message node) wrong := by
  refine (Keeps.mapM fun item => ?_).bind fun pieces => .pure _
  obtain ⟨part, i⟩ := item
  cases part with
  | text t => exact .pure t
  | _ => exact (Keeps.withQuery (place i) fun session q => session.environment_evaluateText q node).bind fun r => .tolerate o "" r

theorem keeps_renderDiagnostics (ids : List String) (node : Node) :
    Keeps s (renderDiagnostics o s ids node) wrong := by
  refine (Keeps.mapM fun id => ?_).bind fun found => .pure _
  cases s.document.diagnostics.get? id with
  | none => exact .pure []
  | some message => exact (keeps_render _ message node).bind fun text => .pure _

theorem keeps_event (pattern : Schema.Pattern) (rule : Schema.Rule) (a : Schema.Assertion)
    (place : Nat → Place) (node : Node) : Keeps s (event o s pattern rule a place node) wrong := by
  apply (keeps_render place a.message node).bind
  intro message
  apply (keeps_renderDiagnostics a.diagnostics node).bind
  intro diagnostics st
  exact .of_ok rfl rfl

/-- A variable is bound in the innermost scope or, where that is put up with, not at all. -/
theorem bindLet_ends {own : List Binding} {outer : Environment} (h : st.session.environment = outer ++ [own])
    (place : Place) (name : String) (node : Node) :
    Ends s (bindLet o place name node) st
      (fun e => e = .duplicateBinding name ∧ name ∈ own.map (·.name))
      fun _ after => after.session.basis = st.session.basis ∧
        ∃ more, after.session.environment = outer ++ [more] ∧
          (more.map (·.name) = own.map (·.name) ∨ more.map (·.name) = own.map (·.name) ++ [name]) := by
  unfold Ends
  rw [exec_bindLet]
  cases compileAt s place with
  | error e =>
    dsimp only
    rw [exec_tolerate]
    cases hsettle : Plain.settle o () (.error (.parse e) : Except EvaluationError Unit) with
    | ok _ => exact ⟨rfl, own, h, .inl rfl⟩
    | error failure =>
      intro e' he'
      subst he'
      exact absurd hsettle (Plain.settle_ne_scope o () _ e')
  | ok q =>
    dsimp only
    rw [exec_bindQuery]
    cases hbound : own.any (·.name = name) with
    | true =>
      rw [Session.bind_eq_error h ⟨name, q, node⟩ hbound]
      intro e he
      cases he
      exact ⟨rfl, by simpa [List.any_eq_true] using hbound⟩
    | false =>
      obtain ⟨session, hbind, hbasis, henvironment⟩ := Session.exists_bind h ⟨name, q, node⟩ hbound
      rw [hbind]
      exact ⟨hbasis, own ++ [⟨name, q, node⟩], henvironment, .inr (by simp)⟩

/-- No name gets into a scope more often than it is there to be bound. Only one that is there twice, what
the scope has at first included, can be in the way. -/
theorem bindAll_ends {own : List Binding} {outer : Environment} (h : st.session.environment = outer ++ [own])
    (place : Nat → Place) (lets : List Schema.Let) (node : Node) :
    Ends s (bindAll o place lets node) st
      (fun e => ∃ name, e = .duplicateBinding name ∧
        2 ≤ (own.map (·.name)).count name + (lets.map (·.name)).count name)
      fun _ after => after.session.basis = st.session.basis ∧
        ∃ more, after.session.environment = outer ++ [more] ∧ ∀ name,
          (more.map (·.name)).count name ≤ (own.map (·.name)).count name + (lets.map (·.name)).count name := by
  have hnames : lets.map (·.name) = lets.zipIdx.map (·.1.name) := by
    rw [← List.zipIdx_map_fst 0 lets, List.map_map, List.zipIdx_map_fst]
    rfl
  rw [hnames]
  unfold bindAll
  induction lets.zipIdx generalizing own st with
  | nil => exact .of_ok (exec_pure s st ()) ⟨rfl, own, h, fun name => by simp⟩
  | cons item items ih =>
    obtain ⟨l, i⟩ := item
    have hfirst := bindLet_ends (o := o) (s := s) h (place i) l.name node
    refine (hfirst.mono ?_ fun _ _ hpost => hpost).bind ?_
    · intro e he
      obtain ⟨rfl, hmem⟩ := he
      have hown := List.count_pos_iff.mpr hmem
      refine ⟨l.name, rfl, ?_⟩
      rw [List.map_cons, List.count_cons_self]
      omega
    · intro _ after hafter
      obtain ⟨hbasis, more, henvironment, hmore⟩ := hafter
      have hcount : ∀ name, (more.map (·.name)).count name + (items.map (·.1.name)).count name
          ≤ (own.map (·.name)).count name + (((l, i) :: items).map (·.1.name)).count name := by
        intro name
        have hitem : (((l, i) :: items).map (·.1.name)).count name
            = (items.map (·.1.name)).count name + if l.name == name then 1 else 0 := List.count_cons
        rcases hmore with hmore | hmore <;> rw [hmore, hitem]
        · omega
        · rw [List.count_append, List.count_singleton]
          omega
      apply (ih henvironment).mono
      · intro e he
        obtain ⟨name, rfl, htwice⟩ := he
        exact ⟨name, rfl, htwice.trans (hcount name)⟩
      · intro _ last hlast
        obtain ⟨hbasis', all, henvironment', hall⟩ := hlast
        refine ⟨hbasis'.trans hbasis, all, henvironment', fun name => ?_⟩
        exact (hall name).trans (hcount name)

/-- What is done in a scope of its own leaves nothing behind. The scope is sound but for names that it
binds twice. -/
theorem Keeps.inScope {place : Nat → Place} {lets : List Schema.Let} {node : Node} {body : Run Unit}
    (hbody : Keeps s body wrong)
    (hwrong : ∀ name, 2 ≤ (lets.map (·.name)).count name → wrong (.duplicateBinding name)) :
    Keeps s (do pushScope; bindAll o place lets node; body; popScope) wrong := by
  intro st
  have hpushed := Session.environment_push st.session
  refine .step (exec_pushScope s st) ?_
  refine ((bindAll_ends hpushed place lets node).mono ?_ fun _ _ hpost => hpost).bind ?_
  · intro e he
    obtain ⟨name, rfl, htwice⟩ := he
    apply hwrong
    simpa using htwice
  · intro _ bound hbound
    obtain ⟨-, own, hbound, -⟩ := hbound
    refine (hbody bound).bind fun _ last hlast => ?_
    obtain ⟨session, hpop, hclosed⟩ := Session.exists_pop (hlast.trans hbound)
    unfold Ends
    rw [exec_popScope, hpop]
    exact hclosed

/-- Firing a rule never goes wrong for its scope, as long as the rule binds no name twice. -/
theorem keeps_fire (pattern : Schema.Pattern) (p : Nat) {rule : Schema.Rule}
    (hnames : (rule.lets.map (·.name)).Nodup) (r : Nat) (node : Node) :
    Keeps s (fire o s pattern p rule r node) wrong := by
  refine Keeps.inScope (Keeps.forM fun item _ => ?_) ?_
  · obtain ⟨a, i⟩ := item
    apply (Keeps.withQuery (.test p r i) fun session q => session.environment_evaluateTest q node).bind
    intro outcome
    apply (Keeps.tolerate o false (outcome.map a.kind.fires)).bind
    intro due
    cases due with
    | false => exact .pure ()
    | true =>
      apply (keeps_event pattern rule a (.messagePart p r i) node).bind
      intro e st
      exact .of_ok (exec_modify s st _) rfl
  · intro name htwice
    have honce := List.nodup_iff_count.mp hnames name
    omega

theorem keeps_fireFirst (pattern : Schema.Pattern) (p : Nat) (node : Node) {rules : List (Schema.Rule × Nat)}
    (hnames : ∀ item ∈ rules, (item.1.lets.map (·.name)).Nodup) :
    Keeps s (fireFirst o s pattern p node rules) wrong := by
  induction rules with
  | nil => exact .pure ()
  | cons item rules ih =>
    obtain ⟨rule, r⟩ := item
    rw [List.forall_mem_cons] at hnames
    apply (Keeps.withQuery (.context p r) fun session q => session.environment_isMatch q node).bind
    intro matched
    apply (Keeps.tolerate o false matched).bind
    intro matches'
    cases matches' with
    | false => exact ih hnames.2
    | true => exact keeps_fire pattern p hnames.1 r node

/-- At a node a pattern goes wrong for its scope only where it binds a name twice. -/
theorem keeps_visit {pattern : Schema.Pattern} (hpattern : ∀ r ∈ pattern.rules, (r.lets.map (·.name)).Nodup)
    (hwrong : ∀ name, 2 ≤ (pattern.lets.map (·.name)).count name → wrong (.duplicateBinding name)) (p : Nat)
    (node : Node) : Keeps s (visit o s pattern p node) wrong := by
  refine Keeps.inScope (keeps_fireFirst pattern p node fun item hitem => ?_) hwrong
  exact hpattern item.1 (List.fst_mem_of_mem_zipIdx hitem)

end

/-- A run before its first node. -/
def opening (o : Options) (s : Schema.Compiled) : Run Schema.ActivePhase := do
  let phase ← (Schema.resolvePhase s o.phase).mapError Failure.schema |> traverse.liftExcept
  enter .phaseSelected
  pushScope
  bindAll o .schemaLet s.document.lets Node.root
  bindAll o (.phaseLet phase.id) phase.lets Node.root
  enter .traversing
  return phase

def atNode (o : Options) (s : Schema.Compiled) (phase : Schema.ActivePhase) (node : Node) : Run Unit := do
  if o.cancelled.isSet node then throw .cancelled
  phase.patterns.forM fun (pattern, p) => visit o s pattern p node
  enter .nodeEvaluated

/-- A run up to and with these nodes. -/
def through (o : Options) (s : Schema.Compiled) (nodes : List Node) : Run Schema.ActivePhase := do
  let phase ← opening o s
  nodes.forM (atNode o s phase)
  return phase

/-- A run behind its last node. -/
def closing (phase : Schema.ActivePhase) (nodesVisited : Nat) : Run Report := do
  popScope
  enter .done
  return ⟨phase.id, (← get).events, nodesVisited⟩

theorem traverse_eq (o : Options) (s : Schema.Compiled) : traverse o s = (do
    let phase ← opening o s
    let nodes := (← get).session.basis.document.order
    nodes.forM (atNode o s phase)
    closing phase nodes.length) := by
  unfold traverse opening closing
  simp only [bind_assoc, pure_bind]
  rfl

/-- A name that a run binds twice in one scope: the schema and the phase of the run do so together, or an
active pattern does. -/
def BoundTwice (o : Options) (s : Schema.Compiled) (e : ScopeError) : Prop :=
  ∃ name phase, e = .duplicateBinding name ∧ Schema.resolvePhase s o.phase = .ok phase ∧
    (2 ≤ ((s.document.lets ++ phase.lets).map (·.name)).count name ∨
      ∃ p ∈ phase.patterns, 2 ≤ (p.1.lets.map (·.name)).count name)

variable {o : Options}

/-- Before its first node a run stands in the scope of the schema and the phase. -/
theorem opening_ends (h : st.session.environment = []) :
    Ends s (opening o s) st (BoundTwice o s) fun phase after =>
      Schema.resolvePhase s o.phase = .ok phase ∧ after.session.basis = st.session.basis ∧
        ∃ own, after.session.environment = [own] := by
  unfold opening
  cases hphase : Schema.resolvePhase s o.phase with
  | error e =>
    intro e' he'
    cases he'
  | ok phase =>
    refine .step (exec_pure s st phase) (.step (exec_modify s st _) (.step (exec_pushScope s _) ?_))
    have hpushed : st.session.push.environment = [] ++ [[]] := h ▸ Session.environment_push st.session
    refine ((bindAll_ends hpushed .schemaLet s.document.lets Node.root).mono ?_ fun _ _ hpost => hpost).bind ?_
    · intro e he
      obtain ⟨name, rfl, htwice⟩ := he
      refine ⟨name, phase, rfl, hphase, .inl ?_⟩
      rw [List.map_append, List.count_append]
      simp only [List.map_nil, List.count_nil] at htwice
      omega
    · intro _ outer houter
      obtain ⟨hbasis, scope, hscope, hcount⟩ := houter
      refine ((bindAll_ends hscope (.phaseLet phase.id) phase.lets Node.root).mono ?_
        fun _ _ hpost => hpost).bind ?_
      · intro e he
        obtain ⟨name, rfl, htwice⟩ := he
        refine ⟨name, phase, rfl, hphase, .inl ?_⟩
        have hname := hcount name
        rw [List.map_append, List.count_append]
        simp only [List.map_nil, List.count_nil] at hname
        omega
      · intro _ inner hinner
        obtain ⟨hbasis', own, hown, -⟩ := hinner
        exact .step (exec_modify s inner _)
          (.of_ok (exec_pure s _ phase) ⟨rfl, hbasis'.trans hbasis, own, hown⟩)

/-- At a node a run leaves all scopes as they were. -/
theorem keeps_atNode (hs : ∀ p ∈ s.document.patterns, ∀ r ∈ p.rules, (r.lets.map (·.name)).Nodup)
    {phase : Schema.ActivePhase} (hphase : Schema.resolvePhase s o.phase = .ok phase) (node : Node) :
    Keeps s (atNode o s phase node) (BoundTwice o s) := by
  have hvisits : Keeps s (phase.patterns.forM fun (pattern, p) => visit o s pattern p node) (BoundTwice o s) := by
    apply Keeps.forM
    intro item hitem
    have hmem := Schema.mem_of_resolvePhase hphase item hitem
    apply keeps_visit (hs item.1 hmem)
    intro name htwice
    exact ⟨name, phase, rfl, hphase, .inr ⟨item, hitem, htwice⟩⟩
  have henter : Keeps s (enter .nodeEvaluated) (BoundTwice o s) := fun st => .of_ok (exec_modify s st _) rfl
  unfold atNode
  cases o.cancelled.isSet node with
  | true =>
    intro st e he
    cases he
  | false => exact hvisits.bind fun _ => henter

/-- Up to any node, and behind it, a run stands in the one scope of the schema and the phase. -/
theorem through_ends (hs : ∀ p ∈ s.document.patterns, ∀ r ∈ p.rules, (r.lets.map (·.name)).Nodup)
    (h : st.session.environment = []) (nodes : List Node) :
    Ends s (through o s nodes) st (BoundTwice o s) fun phase after =>
      Schema.resolvePhase s o.phase = .ok phase ∧ ∃ own, after.session.environment = [own] := by
  apply (opening_ends h).bind
  intro phase opened hopened
  obtain ⟨hphase, -, own, hown⟩ := hopened
  have hnodes : Keeps s (nodes.forM (atNode o s phase)) (BoundTwice o s) :=
    Keeps.forM fun node _ => keeps_atNode hs hphase node
  apply (hnodes opened).bind
  intro _ after hafter
  exact .of_ok (exec_pure s after phase) ⟨hphase, own, hafter.trans hown⟩

/-- A run is what it does up to a node, what it does at the nodes left, and its end. -/
theorem exec_traverse (d : Document) {visited left : List Node} (h : d.order = visited ++ left) :
    exec s (traverse o s) (initial s d) = exec s (do
      let phase ← through o s visited
      left.forM (atNode o s phase)
      closing phase d.order.length) (initial s d) := by
  have hinitial : (initial s d).session.environment = [] := rfl
  rw [traverse_eq]
  unfold through
  simp only [bind_assoc, pure_bind]
  rcases hresult : exec s (opening o s) (initial s d) with ⟨failure | phase, st⟩
  · rw [exec_bind_error s _ hresult, exec_bind_error s _ hresult]
  · obtain ⟨-, hbasis, -⟩ := (opening_ends hinitial).ok hresult
    have horder : st.session.basis.document.order = d.order := by
      rw [hbasis]
      rfl
    have happend : (visited ++ left).forM (atNode o s phase)
        = visited.forM (atNode o s phase) >>= fun _ => left.forM (atNode o s phase) := List.forM_append
    rw [exec_bind_ok s _ hresult, exec_bind_ok s _ hresult, exec_bind_ok s st (exec_get s st), horder, h,
      happend, bind_assoc]

/-- A run that gets to its end has left all scopes. -/
theorem traverse_ends (hs : ∀ p ∈ s.document.patterns, ∀ r ∈ p.rules, (r.lets.map (·.name)).Nodup)
    (d : Document) :
    Ends s (traverse o s) (initial s d) (BoundTwice o s) fun _ after =>
      after.stage = .done ∧ after.session.environment = [] := by
  have hexec := exec_traverse (o := o) (s := s) d (List.append_nil d.order).symm
  have hparts : Ends s (do
      let phase ← through o s d.order
      [].forM (atNode o s phase)
      closing phase d.order.length) (initial s d) (BoundTwice o s) fun _ after =>
        after.stage = .done ∧ after.session.environment = [] := by
    apply (through_ends hs rfl d.order).bind
    intro phase after hafter
    obtain ⟨-, own, hown⟩ := hafter
    refine .step (exec_pure s after ()) ?_
    have hexec := exec_popScope s after
    have hinside : after.session.environment = [] ++ [own] := hown
    obtain ⟨session, hpop, hclosed⟩ := Session.exists_pop hinside
    rw [hpop] at hexec
    exact .step hexec (.step (exec_modify s _ _) (.step (exec_get s _) (.of_ok (exec_pure s _ _) ⟨rfl, hclosed⟩)))
  unfold Ends at hparts ⊢
  rw [hexec]
  exact hparts

/-- With a report a run is done and has left every scope, and otherwise it has failed. -/
theorem runAnew_execute_ends (hs : ∀ p ∈ s.document.patterns, ∀ r ∈ p.rules, (r.lets.map (·.name)).Nodup)
    (d : Document) :
    let ended := (execute o s d).runAnew s
    (∀ report, ended.1 = .ok report → ended.2.stage = .done ∧ ended.2.session.depth = 0) ∧
    (∀ failure, ended.1 = .error failure → ended.2.stage = .failed) ∧
    ∀ e, ended.1 = .error (.scope e) → BoundTwice o s e := by
  have htraverse := traverse_ends (o := o) hs d
  rw [runAnew_execute]
  rcases hresult : exec s (traverse o s) (initial s d) with ⟨failure | report, st⟩
  · refine ⟨fun _ h => ?_, fun _ _ => rfl, fun e he => ?_⟩
    · cases h
    · cases he
      exact htraverse.scope hresult
  · refine ⟨fun _ _ => ?_, fun _ h => ?_, fun _ h => ?_⟩
    · obtain ⟨hstage, henvironment⟩ := htraverse.ok hresult
      exact ⟨hstage, by rw [Session.depth_eq, henvironment, List.length_nil]⟩
    · cases h
    · cases h

/-- What a part of a run comes to with the compiled queries that earlier runs left. -/
def execFetched (s : Schema.Compiled) (places : List Place) (x : Run α) (st : RunState) :
    Except Failure α × RunState :=
  ((x.run.run st).runShared s (.fetched s places)).1

theorem execFetched_eq (places : List Place) (x : Run α) (st : RunState) :
    execFetched s places x st = exec s x st :=
  ((x.run.run st).runShared_fetched s places).1

end Run

/-- The rules of a compiled schema bind no name twice. -/
theorem nodup_lets_of_compile {source : Schema.Document} {s : Schema.Compiled}
    (h : Schema.compile source = .ok s) :
    ∀ p ∈ s.document.patterns, ∀ r ∈ p.rules, (r.lets.map (·.name)).Nodup := by
  intro p hp r hr
  exact (((Schema.patterns_of_compile h).1 p hp).rules r hr).names

/-- A run over a compiled schema minds its scopes. With a report it is done and has left every scope, and
otherwise it has failed. Nothing is wrong with its scopes, which it never closes too often, but a name that
it binds twice: the schema and the phase do, or an active pattern does. Wherever its nodes are split, the
run goes through those before and then those behind, and it stands in one scope in between. Firing a rule
never goes wrong for scopes, and leaves them as they were. -/
theorem execute_scopes {source : Schema.Document} {s : Schema.Compiled} (h : Schema.compile source = .ok s)
    (o : Options) (d : Document) (places : List Place) :
    let ended := ((Run.execute o s d).runShared s (.fetched s places)).1
    (∀ report, ended.1 = .ok report → ended.2.stage = .done ∧ ended.2.session.depth = 0) ∧
    (∀ failure, ended.1 = .error failure → ended.2.stage = .failed) ∧
    (∀ e, ended.1 = .error (.scope e) → Run.BoundTwice o s e) ∧
    (∀ visited left, d.order = visited ++ left →
      Run.execFetched s places (Run.traverse o s) (Run.initial s d) = Run.execFetched s places (do
        let phase ← Run.through o s visited
        left.forM (Run.atNode o s phase)
        Run.closing phase d.order.length) (Run.initial s d) ∧
      ∀ phase st, Run.execFetched s places (Run.through o s visited) (Run.initial s d) = (.ok phase, st) →
        st.session.depth = 1) ∧
    ∀ pattern ∈ s.document.patterns, ∀ rule ∈ pattern.rules, ∀ p r node st,
      match Run.execFetched s places (Run.fire o s pattern p rule r node) st with
      | (.ok _, after) => after.session.environment = st.session.environment
      | (.error failure, _) => ∀ e, failure ≠ .scope e := by
  have hs := nodup_lets_of_compile h
  have hended := ((Run.execute o s d).runShared_fetched s places).1
  obtain ⟨hdone, hfailed, hscope⟩ := Run.runAnew_execute_ends (o := o) hs d
  rw [hended]
  refine ⟨hdone, hfailed, hscope, ?_, ?_⟩
  · intro visited left hsplit
    rw [Run.execFetched_eq, Run.execFetched_eq, Run.execFetched_eq]
    refine ⟨Run.exec_traverse d hsplit, fun phase st hst => ?_⟩
    have hinitial : (Run.initial s d).session.environment = [] := rfl
    obtain ⟨-, own, hown⟩ := (Run.through_ends hs hinitial visited).ok hst
    rw [Session.depth_eq, hown, List.length_singleton]
  · intro pattern hpattern rule hrule p r node st
    have hkeeps : Run.Keeps s (Run.fire o s pattern p rule r node) (fun _ => False) :=
      Run.keeps_fire pattern p (hs pattern hpattern rule hrule) r node
    rw [Run.execFetched_eq]
    rcases hresult : Run.exec s (Run.fire o s pattern p rule r node) st with ⟨failure | _, after⟩
    · rintro e rfl
      exact (hkeeps st).scope hresult
    · exact (hkeeps st).ok hresult

/-- A schema that binds a name at every level, each time in a scope of its own; only the phase binds it
where the schema has. -/
private def everyLevel : Schema.Document :=
  { Schema.Document.empty with
    lets := [⟨"x", "1"⟩]
    phases := [("late", ⟨"late", ["p"], [⟨"x", "2"⟩]⟩)]
    patterns := [⟨some "p", none, false, none, [], [⟨"x", "3"⟩],
      [⟨none, "/", false, [], [⟨"x", "4"⟩], [⟨none, .report, "$x = 4", [], [], none, none, none, none⟩]⟩]⟩] }

private def everyLevelCompiled : Schema.Compiled := ⟨everyLevel, .xslt⟩

private def emptyElement : Document := ⟨[.element ⟨⟨none, "a"⟩, none, [], [], []⟩]⟩

private def everyLevelRun (phase : Option String) : Except Failure Report × RunState :=
  ((Run.execute ⟨phase, false, false⟩ everyLevelCompiled emptyElement).runShared everyLevelCompiled
    (.fetched everyLevelCompiled [])).1

private theorem everyLevelRun_eq (phase : Option String) :
    (everyLevelRun phase).1 = Plain.report ⟨phase, false, false⟩ everyLevelCompiled emptyElement :=
  (validateShared_fetched _ _ _ []).trans (validate_eq_report _ _ _)

theorem execute_scopes_everyLevel :
    Schema.compile everyLevel = .ok everyLevelCompiled ∧
      (everyLevelRun none).1 = .ok ⟨"#ALL",
        [⟨some "p", none, none, .report, "$x = 4", "", "/", none, none, [], []⟩], 2⟩ ∧
      ((everyLevelRun none).2.stage = .done ∧ (everyLevelRun none).2.session.depth = 0) ∧
      (everyLevelRun (some "late")).1 = .error (.scope (.duplicateBinding "x")) ∧
      (everyLevelRun (some "late")).2.stage = .failed ∧
      Run.BoundTwice ⟨some "late", false, false⟩ everyLevelCompiled (.duplicateBinding "x") := by
  have hexecutable : ∀ p ∈ everyLevelCompiled.document.patterns, p.Executable := by
    intro p hp
    cases List.mem_singleton.mp hp
    refine ⟨rfl, rfl, rfl, fun r hr => ?_⟩
    cases List.mem_singleton.mp hr
    exact ⟨rfl, rfl, by decide⟩
  have hcompile : Schema.compile everyLevel = .ok everyLevelCompiled :=
    Schema.compile_of_executable hexecutable (by decide) (by decide) (by decide)
  have hall : (everyLevelRun none).1 = .ok ⟨"#ALL",
      [⟨some "p", none, none, .report, "$x = 4", "", "/", none, none, [], []⟩], 2⟩ := by
    rw [everyLevelRun_eq]
    decide +kernel
  have hlate : (everyLevelRun (some "late")).1 = .error (.scope (.duplicateBinding "x")) := by
    rw [everyLevelRun_eq]
    decide +kernel
  obtain ⟨hdone, -⟩ := execute_scopes hcompile ⟨none, false, false⟩ emptyElement []
  obtain ⟨-, hfailed, hscope, -⟩ := execute_scopes hcompile ⟨some "late", false, false⟩ emptyElement []
  exact ⟨hcompile, hall, hdone _ hall, hlate, hfailed _ hlate, hscope _ hlate⟩

end Schematron.Validation
