import Schematron.Proofs.Success
import Schematron.Proofs.Validation.Run

/-!
A run that puts up with evaluation errors. It ends with none, and it reports what a run reports that stops
at the first of them, where that one gets to a report.
-/

namespace Schematron.Validation

open Schematron.Evaluation
open Schematron.Xml

variable {α β : Type}

/-- The second of two computations puts up with evaluation errors: it ends with none, and where the first
gives a result it gives the same. -/
structure Tolerates (x y : Except Failure α) : Prop where
  same : ∀ a, x = .ok a → y = .ok a
  never : ∀ e, y ≠ .error (.evaluation e)

namespace Tolerates

theorem ok (a : α) : Tolerates (.ok a) (.ok a) where
  same := fun _ h => h
  never := by simp

/-- A failure of another kind is the same in both. -/
theorem error {failure : Failure} (h : ∀ e, failure ≠ .evaluation e) :
    Tolerates (.error failure : Except Failure α) (.error failure) where
  same := fun _ h => h
  never := by
    intro e heq
    cases heq
    exact h e rfl

variable {x y : Except Failure α}

theorem bind {f g : α → Except Failure β} (h : Tolerates x y) (hf : ∀ a, Tolerates (f a) (g a)) :
    Tolerates (x >>= f) (y >>= g) where
  same := by
    intro b hb
    obtain ⟨a, ha, hfa⟩ := bind_eq_ok_iff.mp hb
    rw [h.same a ha]
    exact (hf a).same b hfa
  never := by
    intro e heq
    -- the second goes its own way where the first has stopped, so all of its continuations count
    cases hy : y with
    | error failure =>
      rw [hy] at heq
      cases heq
      exact h.never e hy
    | ok a =>
      rw [hy] at heq
      exact (hf a).never e heq

theorem mapM {l : List α} {f g : α → Except Failure β} (h : ∀ a, Tolerates (f a) (g a)) :
    Tolerates (l.mapM f) (l.mapM g) := by
  induction l with
  | nil => exact ok []
  | cons a l ih =>
    rw [List.mapM_cons, List.mapM_cons]
    apply (h a).bind
    intro b
    apply ih.bind
    intro bs
    exact ok (b :: bs)

theorem foldlM {l : List α} {f g : β → α → Except Failure β} (h : ∀ b a, Tolerates (f b a) (g b a)) (b : β) :
    Tolerates (l.foldlM f b) (l.foldlM g b) := by
  induction l generalizing b with
  | nil => exact ok b
  | cons a l ih =>
    rw [List.foldlM_cons, List.foldlM_cons]
    exact (h b a).bind ih

end Tolerates

namespace Plain

section

variable {o o' : Options} (ho : o'.lenient = true) {s : Schema.Compiled} {d : Document}
  {bindings : List Binding}

include ho

/-- The one place where errors are put up with. -/
theorem settle_tolerates (fallback : α) (r : Except EvaluationError α) :
    Tolerates (settle o fallback r) (settle o' fallback r) := by
  cases r with
  | ok a => exact .ok a
  | error e =>
    unfold settle
    dsimp only
    cases Failure.ofEvaluation e with
    | evaluation e =>
      dsimp only
      rw [if_pos ho]
      by_cases hlenient : o.lenient = true
      · rw [if_pos hlenient]
        exact .ok fallback
      · rw [if_neg hlenient]
        exact ⟨by simp, by simp⟩
    | _ =>
      apply Tolerates.error
      simp

theorem bindLet_tolerates (place : Place) (name : String) (node : Node) (scope : List Binding) :
    Tolerates (bindLet o s place name node scope) (bindLet o' s place name node scope) := by
  unfold bindLet
  cases compileAt s place with
  | error e => exact settle_tolerates ho scope _
  | ok q =>
    dsimp only
    by_cases hbound : scope.any (·.name = name) = true
    · rw [if_pos hbound]
      exact .error (by simp)
    · rw [if_neg hbound]
      exact .ok _

theorem bindAll_tolerates (place : Nat → Place) (lets : List Schema.Let) (node : Node)
    (scope : List Binding) :
    Tolerates (bindAll o s place lets node scope) (bindAll o' s place lets node scope) := by
  unfold bindAll
  apply Tolerates.foldlM
  intro scope item
  exact bindLet_tolerates ho (place item.2) item.1.name node scope

theorem render_tolerates (place : Nat → Place) (message : Schema.Message) (node : Node) :
    Tolerates (render o s d bindings place message node) (render o' s d bindings place message node) := by
  unfold render
  refine (Tolerates.mapM fun item => ?_).bind fun pieces => .ok _
  obtain ⟨part, i⟩ := item
  cases part with
  | text t => exact .ok t
  | _ => exact settle_tolerates ho _ _

theorem diagnostics_tolerates (ids : List String) (node : Node) :
    Tolerates (diagnostics o s d bindings ids node) (diagnostics o' s d bindings ids node) := by
  unfold diagnostics
  refine (Tolerates.mapM fun id => ?_).bind fun found => .ok _
  cases s.document.diagnostics.get? id with
  | none => exact .ok []
  | some message => exact (render_tolerates ho _ message node).bind fun text => .ok _

theorem event_tolerates (pattern : Schema.Pattern) (rule : Schema.Rule) (a : Schema.Assertion)
    (place : Nat → Place) (node : Node) :
    Tolerates (event o s d bindings pattern rule a place node)
      (event o' s d bindings pattern rule a place node) := by
  unfold event
  apply (render_tolerates ho place a.message node).bind
  intro message
  apply (diagnostics_tolerates ho a.diagnostics node).bind
  intro diagnostics
  exact .ok _

theorem fire_tolerates (pattern : Schema.Pattern) (p : Nat) (rule : Schema.Rule) (r : Nat) (node : Node) :
    Tolerates (fire o s d bindings pattern p rule r node) (fire o' s d bindings pattern p rule r node) := by
  unfold fire
  apply (bindAll_tolerates ho (.ruleLet p r) rule.lets node []).bind
  intro own
  refine (Tolerates.mapM fun item => ?_).bind fun events => .ok _
  obtain ⟨a, i⟩ := item
  apply (settle_tolerates ho false _).bind
  intro due
  cases due with
  | false => exact .ok []
  | true => exact (event_tolerates ho pattern rule a _ node).bind fun e => .ok [e]

theorem firstMatch_tolerates (p : Nat) (node : Node) (rules : List (Schema.Rule × Nat)) :
    Tolerates (firstMatch o s d bindings p node rules) (firstMatch o' s d bindings p node rules) := by
  induction rules with
  | nil => exact .ok none
  | cons item rules ih =>
    unfold firstMatch
    apply (settle_tolerates ho false _).bind
    intro matched
    cases matched with
    | false => exact ih
    | true => exact .ok _

theorem visit_tolerates (pattern : Schema.Pattern) (p : Nat) (node : Node) :
    Tolerates (visit o s d bindings pattern p node) (visit o' s d bindings pattern p node) := by
  unfold visit
  apply (bindAll_tolerates ho (.patternLet p) pattern.lets Node.root []).bind
  intro own
  apply (firstMatch_tolerates ho p node pattern.rules.zipIdx).bind
  intro first
  cases first with
  | none => exact .ok []
  | some item => exact fire_tolerates ho pattern p item.1 item.2 node

/-- What is put up with changes no report that is made without. -/
theorem report_tolerates (hphase : o'.phase = o.phase) (hcancelled : o'.cancelled = o.cancelled) :
    Tolerates (report o s d) (report o' s d) := by
  unfold report
  rw [hphase, hcancelled]
  have hresolved : Tolerates ((Schema.resolvePhase s o.phase).mapError Failure.schema)
      ((Schema.resolvePhase s o.phase).mapError Failure.schema) := by
    cases Schema.resolvePhase s o.phase with
    | error e => exact .error (by simp)
    | ok phase => exact .ok phase
  apply hresolved.bind
  intro phase
  apply (bindAll_tolerates ho .schemaLet s.document.lets Node.root []).bind
  intro outer
  apply (bindAll_tolerates ho (.phaseLet phase.id) phase.lets Node.root outer).bind
  intro bindings
  refine (Tolerates.mapM fun node => ?_).bind fun events => .ok _
  have hvisits : Tolerates (phase.patterns.mapM fun item => visit o s d bindings item.1 item.2 node)
      (phase.patterns.mapM fun item => visit o' s d bindings item.1 item.2 node) := by
    apply Tolerates.mapM
    intro item
    exact visit_tolerates ho item.1 item.2 node
  cases o.cancelled.isSet node with
  | true => exact .error (by simp)
  | false => exact hvisits.bind fun events => .ok events.flatten

end

end Plain

/-- Leniency adds to what a run does and changes nothing else: a lenient run never ends with an evaluation
error, and where the run with the same options that is not lenient gives a report, the lenient run gives
that report. -/
theorem validateShared_lenient (o : Options) (s : Schema.Compiled) (d : Document) (places places' : List Place) :
    (∀ e, (validateShared { o with lenient := true } s d (.fetched s places)).1 ≠ .error (.evaluation e)) ∧
    ∀ report, (validateShared { o with lenient := false } s d (.fetched s places')).1 = .ok report →
      (validateShared { o with lenient := true } s d (.fetched s places)).1 = .ok report := by
  have htolerates : Tolerates (Plain.report { o with lenient := false } s d)
      (Plain.report { o with lenient := true } s d) := Plain.report_tolerates rfl rfl rfl
  simp only [validateShared_fetched, validate_eq_report]
  exact ⟨htolerates.never, htolerates.same⟩

/-- A schema that reports the root for each test that holds there. -/
private def reporting (tests : List String) : Schema.Compiled :=
  let report (test : String) : Schema.Assertion :=
    ⟨none, .report, test, [.text test], [], none, none, none, none⟩
  ⟨{ Schema.Document.empty with
      patterns := [⟨some "p", none, false, none, [], [], [⟨none, "/", false, [], [], tests.map report⟩]⟩] },
    .xpath⟩

private def oneTest : Schema.Compiled := reporting ["1"]

/-- Its first test speaks of a variable that is not there. -/
private def twoTests : Schema.Compiled := reporting ["$x", "1"]

private def childless : Document := ⟨[.element ⟨⟨none, "a"⟩, none, [], [], []⟩]⟩

private def rootReport : Report :=
  ⟨"#ALL", [⟨some "p", none, none, .report, "1", "1", "/", none, none, [], []⟩], 2⟩

theorem validateShared_lenient_unknownVariable :
    (validateShared ⟨none, false, false⟩ twoTests childless (.fetched twoTests [])).1
        = .error (.evaluation (.unknownVariable "x")) ∧
      (validateShared ⟨none, true, false⟩ twoTests childless (.fetched twoTests [])).1 = .ok rootReport ∧
      (validateShared ⟨none, false, false⟩ oneTest childless (.fetched oneTest [])).1 = .ok rootReport ∧
      (validateShared ⟨none, true, false⟩ oneTest childless (.fetched oneTest [.test 0 0 0])).1
        = .ok rootReport := by
  have hfails : (validateShared ⟨none, false, false⟩ twoTests childless (.fetched twoTests [])).1
      = .error (.evaluation (.unknownVariable "x")) := by
    rw [validateShared_fetched, validate_eq_report]
    decide +kernel
  have hgoesOn : (validateShared ⟨none, true, false⟩ twoTests childless (.fetched twoTests [])).1
      = .ok rootReport := by
    rw [validateShared_fetched, validate_eq_report]
    decide +kernel
  have hstrict : (validateShared ⟨none, false, false⟩ oneTest childless (.fetched oneTest [])).1
      = .ok rootReport := by decide +kernel
  obtain ⟨-, hsame⟩ := validateShared_lenient ⟨none, false, false⟩ oneTest childless [.test 0 0 0] []
  exact ⟨hfails, hgoesOn, hstrict, hsame _ hstrict⟩

end Schematron.Validation
