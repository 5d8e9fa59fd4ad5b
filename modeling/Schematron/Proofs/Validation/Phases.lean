import Schematron.Proofs.Schema.Activation
import Schematron.Proofs.Validation.Run

/-!
Patterns do not touch each other: a phase without variables of its own reports what a run of all patterns
reports for the patterns that it activates.
-/

namespace Schematron.Validation

open Schematron.Evaluation
open Schematron.Xml

namespace Plain

variable {o o' : Options} {s : Schema.Compiled} {d : Document} {bindings : List Binding}
  {pattern : Schema.Pattern} {p : Nat} {node : Node}

theorem patternId_event {rule : Schema.Rule} {a : Schema.Assertion} {place : Nat → Place} {e : Event}
    (h : event o s d bindings pattern rule a place node = .ok e) : e.patternId = pattern.id := by
  unfold event at h
  obtain ⟨message, -, h⟩ := bind_eq_ok_iff.mp h
  obtain ⟨diagnostics, -, h⟩ := bind_eq_ok_iff.mp h
  cases h
  rfl

theorem patternId_fire {rule : Schema.Rule} {r : Nat} {es : List Event}
    (h : fire o s d bindings pattern p rule r node = .ok es) : ∀ e ∈ es, e.patternId = pattern.id := by
  unfold fire at h
  obtain ⟨own, -, h⟩ := bind_eq_ok_iff.mp h
  obtain ⟨found, hfound, h⟩ := bind_eq_ok_iff.mp h
  cases h
  intro e he
  obtain ⟨es, hes, he⟩ := List.mem_flatten.mp he
  obtain ⟨item, -, hitem⟩ := exists_of_forall₂_of_mem (mapM_eq_ok_iff.mp hfound).flip hes
  obtain ⟨due, -, hitem⟩ := bind_eq_ok_iff.mp hitem
  cases due with
  | false =>
    cases hitem
    cases he
  | true =>
    obtain ⟨made, hmade, hitem⟩ := bind_eq_ok_iff.mp hitem
    cases hitem
    cases List.mem_singleton.mp he
    exact patternId_event hmade

theorem patternId_visit {es : List Event} (h : visit o s d bindings pattern p node = .ok es) :
    ∀ e ∈ es, e.patternId = pattern.id := by
  unfold visit at h
  obtain ⟨own, -, h⟩ := bind_eq_ok_iff.mp h
  obtain ⟨first, -, h⟩ := bind_eq_ok_iff.mp h
  cases first with
  | some item => exact patternId_fire h
  | none =>
    cases h
    intro e he
    cases he

section

variable (ho : o.lenient = o'.lenient)

include ho

theorem settle_congr {α : Type} : settle (α := α) o = settle o' := by
  unfold settle
  rw [ho]

theorem bindAll_congr : bindAll o = bindAll o' := by
  unfold bindAll bindLet
  rw [settle_congr ho]

theorem firstMatch_congr (rules : List (Schema.Rule × Nat)) :
    firstMatch o s d bindings p node rules = firstMatch o' s d bindings p node rules := by
  induction rules with
  | nil => rfl
  | cons item rules ih =>
    unfold firstMatch
    rw [settle_congr ho, ih]

theorem fire_congr : fire o = fire o' := by
  unfold fire event diagnostics render
  rw [settle_congr ho, settle_congr ho, bindAll_congr ho]

theorem visit_congr : visit o = visit o' := by
  funext s d bindings pattern p node
  unfold visit
  simp only [bindAll_congr ho, firstMatch_congr ho, fire_congr ho]

end

/-- The events of patterns at a node, pattern after pattern. -/
def eventsAt (o : Options) (s : Schema.Compiled) (d : Document) (bindings : List Binding)
    (patterns : List (Schema.Pattern × Nat)) (node : Node) : Except Failure (List Event) := do
  let events ← patterns.mapM fun (pattern, p) => visit o s d bindings pattern p node
  return events.flatten

theorem eventsAt_congr (ho : o.lenient = o'.lenient) : eventsAt o = eventsAt o' := by
  unfold eventsAt
  rw [visit_congr ho]

/-- Without the patterns that a property of ids rules out, the events of the others are as before. -/
theorem eventsAt_filter (q : Option String → Bool) {patterns : List (Schema.Pattern × Nat)}
    {es : List Event} (h : eventsAt o s d bindings patterns node = .ok es) :
    eventsAt o s d bindings (patterns.filter fun (pattern, _) => q pattern.id) node
      = .ok (es.filter fun e => q e.patternId) := by
  obtain ⟨found, hfound, h⟩ := bind_eq_ok_iff.mp h
  cases h
  have hids : ∀ (item : Schema.Pattern × Nat) es, visit o s d bindings item.1 item.2 node = .ok es →
      ∀ e ∈ es, q e.patternId = q item.1.id := by
    intro item es hvisit e he
    rw [patternId_visit hvisit e he]
  obtain ⟨kept, hkept, hflatten⟩ := mapM_filter_eq_ok hids hfound
  unfold eventsAt
  rw [hkept, ← hflatten]
  rfl

/-- The stages of a run that is not cancelled. -/
theorem report_eq_ok_iff (ho : ∀ node, o.cancelled.isSet node = false) {r : Report} :
    report o s d = .ok r ↔ ∃ phase outer bindings found,
      Schema.resolvePhase s o.phase = .ok phase ∧
        bindAll o s .schemaLet s.document.lets Node.root [] = .ok outer ∧
        bindAll o s (.phaseLet phase.id) phase.lets Node.root outer = .ok bindings ∧
        d.order.mapM (eventsAt o s d bindings phase.patterns) = .ok found ∧
        r = ⟨phase.id, found.flatten, d.order.length⟩ := by
  have hnode : ∀ bindings (phase : Schema.ActivePhase), (fun node => do
      if o.cancelled.isSet node then throw .cancelled
      let events ← phase.patterns.mapM fun (pattern, p) => visit o s d bindings pattern p node
      return events.flatten) = eventsAt o s d bindings phase.patterns := by
    intro bindings phase
    funext node
    rw [ho]
    rfl
  unfold report
  simp only [hnode, bind_eq_ok_iff, mapError_eq_ok_iff]
  constructor
  · rintro ⟨phase, hphase, outer, houter, bindings, hbindings, found, hfound, ⟨⟩⟩
    exact ⟨phase, outer, bindings, found, hphase, houter, hbindings, hfound, rfl⟩
  · rintro ⟨phase, outer, bindings, found, hphase, houter, hbindings, hfound, rfl⟩
    exact ⟨phase, hphase, outer, houter, bindings, hbindings, found, hfound, rfl⟩

end Plain

/-- An event of a pattern that a phase activates. -/
def Event.inPhase (phase : Schema.Phase) (e : Event) : Bool := e.patternId.any phase.active.contains

theorem report_declared {s : Schema.Compiled} {d : Document} {lenient : Bool} {id : String}
    {phase : Schema.Phase} {all : Report} (hid : id ≠ Schema.allPhase)
    (hphase : s.document.phases.get? id = some phase) (hlets : phase.lets = [])
    (h : Plain.report ⟨some Schema.allPhase, lenient, false⟩ s d = .ok all) :
    Plain.report ⟨some id, lenient, false⟩ s d
      = .ok ⟨id, all.events.filter (·.inPhase phase), all.nodesVisited⟩ := by
  have hbind : Plain.bindAll ⟨some id, lenient, false⟩
      = Plain.bindAll ⟨some Schema.allPhase, lenient, false⟩ := Plain.bindAll_congr rfl
  have hevents : Plain.eventsAt ⟨some id, lenient, false⟩
      = Plain.eventsAt ⟨some Schema.allPhase, lenient, false⟩ := Plain.eventsAt_congr rfl
  obtain ⟨whole, outer, bindings, found, hwhole, houter, hbindings, hfound, rfl⟩ :=
    (Plain.report_eq_ok_iff fun _ => rfl).mp h
  cases hwhole
  cases hbindings
  have hkept := mapM_eq_ok_map (fun node es hnode =>
    Plain.eventsAt_filter (·.any phase.active.contains) hnode) hfound
  refine (Plain.report_eq_ok_iff fun _ => rfl).mpr
    ⟨_, outer, outer, _, Schema.resolvePhase_declared hid hphase, hbind ▸ houter, ?_, hevents ▸ hkept, ?_⟩
  · rw [hlets]
    rfl
  · rw [List.filter_flatten]
    rfl

/-- Patterns are independent: where a run of all patterns goes through, a run of a declared phase without
variables of its own does too. It visits as many nodes, and its events are those of the whole run that are
of patterns the phase activates, in the same order. -/
theorem validateShared_phase_eq_filter {s : Schema.Compiled} {d : Document} {lenient : Bool} {id : String}
    {phase : Schema.Phase} {all : Report} {places : List Place} (places' : List Place)
    (hid : id ≠ Schema.allPhase) (hphase : s.document.phases.get? id = some phase)
    (hlets : phase.lets = [])
    (h : (validateShared ⟨some Schema.allPhase, lenient, false⟩ s d (.fetched s places)).1 = .ok all) :
    (validateShared ⟨some id, lenient, false⟩ s d (.fetched s places')).1
      = .ok ⟨id, all.events.filter (·.inPhase phase), all.nodesVisited⟩ := by
  rw [validateShared_fetched, validate_eq_report] at h ⊢
  exact report_declared hid hphase hlets h

/-- Two patterns that each report the root, and a phase for the second of them. -/
private def twoPatterns : Schema.Compiled :=
  let reporting (id : String) : Schema.Pattern :=
    ⟨some id, none, false, none, [], [⟨"own", "'x'"⟩],
      [⟨none, "/", false, [], [], [⟨none, .report, "$own", [.text id], [], none, none, none, none⟩]⟩]⟩
  ⟨{ Schema.Document.empty with
      phases := [("late", ⟨"late", ["q"], []⟩)]
      patterns := [reporting "p", reporting "q"] }, .xpath⟩

private def oneElement : Document := ⟨[.element ⟨⟨none, "a"⟩, none, [], [], []⟩]⟩

private def reportOf (id : String) : Event :=
  ⟨some id, none, none, .report, "$own", id, "/", none, none, [], []⟩

theorem validateShared_phase_eq_filter_second :
    (validateShared ⟨some "#ALL", false, false⟩ twoPatterns oneElement (.fetched twoPatterns [])).1
        = .ok ⟨"#ALL", [reportOf "p", reportOf "q"], 2⟩ ∧
      (validateShared ⟨some "late", false, false⟩ twoPatterns oneElement
        (.fetched twoPatterns [.context 0 0])).1 = .ok ⟨"late", [reportOf "q"], 2⟩ := by
  have hall : (validateShared ⟨some "#ALL", false, false⟩ twoPatterns oneElement
      (.fetched twoPatterns [])).1 = .ok ⟨"#ALL", [reportOf "p", reportOf "q"], 2⟩ := by
    rw [validateShared_fetched, validate_eq_report]
    decide +kernel
  have hid : "late" ≠ Schema.allPhase := by decide
  have hphase : twoPatterns.document.phases.get? "late" = some ⟨"late", ["q"], []⟩ := rfl
  have hlate := validateShared_phase_eq_filter [.context 0 0] hid hphase rfl hall
  exact ⟨hall, hlate.trans rfl⟩

end Schematron.Validation
