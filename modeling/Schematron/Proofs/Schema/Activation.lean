import Mathlib.Data.List.Pairwise
import Schematron.Proofs.Schema.FixedPoint

/-!
What a phase of a compiled schema runs: the patterns that it activates, each once and in order. Only an
id that no phase has is not found.
-/

namespace Schematron

/-- Where no key stands twice, every entry is found. -/
theorem Table.get?_of_mem {α : Type} {table : Table α} {key : String} {value : α}
    (hkeys : (table.map (·.1)).Nodup) (h : (key, value) ∈ table) : table.get? key = some value := by
  induction table with
  | nil => cases h
  | cons entry rest ih =>
    obtain ⟨k, v⟩ := entry
    rw [List.map_cons, List.nodup_cons] at hkeys
    rw [get?_cons]
    rcases List.mem_cons.mp h with heq | hrest
    · cases heq
      rw [if_pos rfl]
    · have hne : key ≠ k := by
        intro heq
        apply hkeys.1
        exact List.mem_map.mpr ⟨(key, value), hrest, heq⟩
      rw [if_neg hne]
      exact ih hkeys.2 hrest

theorem Table.get?_eq_none {α : Type} {table : Table α} {key : String} (h : ∀ entry ∈ table, entry.1 ≠ key) :
    table.get? key = none := by
  induction table with
  | nil => rfl
  | cons entry rest ih =>
    rw [List.forall_mem_cons] at h
    rw [get?_cons, if_neg (Ne.symm h.1)]
    exact ih h.2

namespace Schema

/-- Phases stand under their own ids, and no id has two. -/
structure Document.PhasesKeyed (d : Document) : Prop where
  own : ∀ entry ∈ d.phases, entry.2.id = entry.1
  once : (d.phases.map (·.1)).Nodup

/-- What a run has to do is what a phase of a schema asks for: of the patterns that are there to run, those
with the ids that the phase activates. Each of these ids is there once, and they are in the order of the
schema; no pattern with such an id is abstract. -/
structure ActivePhase.Follows (active : ActivePhase) (d : Document) (c : Compiled) (phase : Phase) : Prop where
  id : active.id = phase.id
  lets : active.lets = phase.lets
  patterns : active.patterns.Sublist c.document.patterns.zipIdx
  ids : ∃ ids : List String, active.patterns.map (·.1.id) = ids.map some ∧ ids.Nodup ∧
    (∀ id, id ∈ ids ↔ id ∈ phase.active) ∧ ids.Sublist (d.patterns.filterMap (·.id))
  concrete : ∀ p ∈ active.patterns, p.1.isAbstract = false
  source : ∀ p ∈ d.patterns, ∀ id ∈ phase.active, p.id = some id → p.isAbstract = false

/-- A phase that is not the phase of all patterns has the variables it declares and the patterns it
activates. -/
theorem resolvePhase_declared {s : Compiled} {id : String} {phase : Phase} (hid : id ≠ allPhase)
    (hphase : s.document.phases.get? id = some phase) :
    resolvePhase s (some id) = .ok ⟨id,
      s.document.patterns.zipIdx.filter fun (p, _) => p.id.any phase.active.contains, phase.lets⟩ := by
  have hname : (some id <|> s.document.defaultPhase).getD allPhase = id := rfl
  unfold resolvePhase
  simp only [hname, if_neg hid, hphase]

theorem resolvePhase_unknown {s : Compiled} {id : String} (hid : id ≠ allPhase)
    (hphase : s.document.phases.get? id = none) :
    resolvePhase s (some id) = .error (.unknownPhase id) := by
  have hname : (some id <|> s.document.defaultPhase).getD allPhase = id := rfl
  unfold resolvePhase
  simp only [hname, if_neg hid, hphase]

/-- A phase has patterns of its schema only. -/
theorem mem_of_resolvePhase {s : Compiled} {requested : Option String} {active : ActivePhase}
    (h : resolvePhase s requested = .ok active) : ∀ p ∈ active.patterns, p.1 ∈ s.document.patterns := by
  have hsub : active.patterns.Sublist s.document.patterns.zipIdx := by
    unfold resolvePhase at h
    dsimp only at h
    split at h
    · cases h
      exact List.Sublist.refl _
    · split at h
      · cases h
      · cases h
        exact List.filter_sublist
  intro p hp
  exact List.fst_mem_of_mem_zipIdx (hsub.subset hp)

theorem phases_of_compile {d : Document} {c : Compiled} (h : compile d = .ok c) :
    c.document.phases = d.phases := by
  obtain ⟨-, -, -, patterns, flat, -, -, hdocument⟩ := compile_eq_ok_iff.mp h
  rw [hdocument]

/-- Of all ids, only those of no phase are unknown. -/
theorem resolvePhase_eq_error_iff {d : Document} {c : Compiled} (h : compile d = .ok c)
    (hkeyed : d.PhasesKeyed) {id : String} {e : SchemaError} :
    resolvePhase c (some id) = .error e ↔
      e = .unknownPhase id ∧ id ≠ allPhase ∧ ∀ entry ∈ d.phases, entry.2.id ≠ id := by
  by_cases hid : id = allPhase
  · subst hid
    simp [resolvePhase]
  by_cases hdeclared : ∃ entry ∈ d.phases, entry.2.id = id
  · obtain ⟨entry, hentry, rfl⟩ := hdeclared
    have hfound : c.document.phases.get? entry.2.id = some entry.2 := by
      rw [phases_of_compile h, hkeyed.own entry hentry]
      exact Table.get?_of_mem hkeyed.once hentry
    rw [resolvePhase_declared hid hfound]
    constructor
    · intro heq
      cases heq
    · intro hunknown
      exact absurd rfl (hunknown.2.2 entry hentry)
  · have hother : ∀ entry ∈ d.phases, entry.2.id ≠ id := by
      intro entry hentry heq
      exact hdeclared ⟨entry, hentry, heq⟩
    have hnone : c.document.phases.get? id = none := by
      rw [phases_of_compile h]
      apply Table.get?_eq_none
      intro entry hentry
      rw [← hkeyed.own entry hentry]
      exact hother entry hentry
    rw [resolvePhase_unknown hid hnone]
    constructor
    · intro heq
      cases heq
      exact ⟨rfl, hid, hother⟩
    · intro hunknown
      rw [hunknown.1]

theorem filter_any_eq_map_some (p : String → Bool) (ids : List (Option String)) :
    ids.filter (·.any p) = ((ids.filterMap id).filter p).map some := by
  induction ids with
  | nil => rfl
  | cons id rest ih =>
    cases id with
    | none => simpa using ih
    | some id => by_cases hp : p id <;> simp [hp, ih]

/-- The patterns with an index, without those that a property of ids rules out. -/
theorem ids_filter_zipIdx (p : String → Bool) (patterns : List Pattern) :
    (patterns.zipIdx.filter fun (q, _) => q.id.any p).map (·.1.id) =
      ((patterns.filterMap (·.id)).filter p).map some := by
  have hids : patterns.zipIdx.map (·.1.id) = patterns.map (·.id) := by
    rw [← List.zipIdx_map_fst 0 patterns, List.map_map, List.zipIdx_map_fst]
    rfl
  rw [filterMap_id_eq, ← filter_any_eq_map_some, ← hids, List.filter_map]
  rfl

/-- An id that a phase activates is that of a pattern, and not of an abstract one. -/
theorem concrete_of_active {d : Document} {c : Compiled} (h : compile d = .ok c) {entry : String × Phase}
    (hentry : entry ∈ d.phases) {id : String} (hid : id ∈ entry.2.active) :
    ∃ p ∈ d.patterns, p.id = some id ∧ p.isAbstract = false := by
  obtain ⟨-, -, hphases, -⟩ := compile_eq_ok_iff.mp h
  obtain ⟨p, hp, hconcrete⟩ := checkPhases_eq_ok_iff.mp hphases entry hentry id hid
  have hpid : p.id = some id := by simpa using List.find?_some hp
  exact ⟨p, List.mem_of_find?_eq_some hp, hpid, hconcrete⟩

/-- Two patterns of one id are one pattern. -/
theorem eq_of_id_eq {patterns : List Pattern} (h : (patterns.filterMap (·.id)).Nodup) {p q : Pattern}
    (hp : p ∈ patterns) (hq : q ∈ patterns) {id : String} (hpid : p.id = some id) (hqid : q.id = some id) :
    p = q := by
  let Apart (p q : Pattern) : Prop := ∀ id, p.id = some id → ∀ other, q.id = some other → id ≠ other
  have hsymm : Std.Symm Apart := by
    constructor
    intro p q hapart id hid other hother
    exact (hapart other hother id hid).symm
  have hapart : patterns.Pairwise Apart := List.pairwise_filterMap.mp h
  by_contra hne
  exact hapart.forall hp hq hne id hpid id hqid rfl

/-- A phase of a compiled schema is found, and what it asks for is there to run. -/
theorem resolvePhase_follows {d : Document} {c : Compiled} (h : compile d = .ok c) (hkeyed : d.PhasesKeyed)
    {entry : String × Phase} (hentry : entry ∈ d.phases) (hid : entry.2.id ≠ allPhase) :
    ∃ active, resolvePhase c (some entry.2.id) = .ok active ∧ active.Follows d c entry.2 := by
  obtain ⟨key, phase⟩ := entry
  have hkey : phase.id = key := hkeyed.own (key, phase) hentry
  have hfound : c.document.phases.get? phase.id = some phase := by
    rw [phases_of_compile h, hkey]
    exact Table.get?_of_mem hkeyed.once hentry
  have hunique : (d.patterns.filterMap (·.id)).Nodup := by
    obtain ⟨-, hids, -⟩ := compile_eq_ok_iff.mp h
    exact checkPatternIds_eq_ok_iff.mp hids
  have hpart : ((d.patterns.filter (!·.isAbstract)).filterMap (·.id)).Sublist (d.patterns.filterMap (·.id)) :=
    List.filter_sublist.filterMap _
  refine ⟨_, resolvePhase_declared hid hfound, ⟨rfl, rfl, List.filter_sublist, ?_, ?_, ?_⟩⟩
  · -- the ids of the compiled patterns are those of the concrete ones in the source
    let ids := ((d.patterns.filter (!·.isAbstract)).filterMap (·.id)).filter phase.active.contains
    have hsame : (c.document.patterns.filterMap (·.id)).filter phase.active.contains = ids := by
      rw [filterMap_id_eq, ids_of_compile h, ← filterMap_id_eq]
    have hsub : ids.Sublist (d.patterns.filterMap (·.id)) := List.filter_sublist.trans hpart
    refine ⟨ids, ?_, hunique.sublist hsub, ?_, hsub⟩
    · rw [← hsame]
      exact ids_filter_zipIdx _ _
    · intro id
      constructor
      · intro hmem
        simpa using (List.mem_filter.mp hmem).2
      · intro hactive
        obtain ⟨p, hp, hpid, hconcrete⟩ := concrete_of_active h hentry hactive
        have hkept : p ∈ d.patterns.filter (!·.isAbstract) := List.mem_filter.mpr ⟨hp, by simp [hconcrete]⟩
        apply List.mem_filter.mpr
        exact ⟨List.mem_filterMap.mpr ⟨p, hkept, hpid⟩, by simpa using hactive⟩
  · intro p hp
    have hmem := List.fst_mem_of_mem_zipIdx (List.mem_filter.mp hp).1
    exact ((patterns_of_compile h).1 p.1 hmem).concrete
  · intro p hp id hactive hpid
    obtain ⟨q, hq, hqid, hconcrete⟩ := concrete_of_active h hentry hactive
    rw [eq_of_id_eq hunique hp hq hpid hqid]
    exact hconcrete

/-- No active pattern is lost or repeated. Where phases stand under their ids, every phase of a schema that
compiles is found, and has just the patterns that it activates, each once, in order and none abstract. What
is not found is an id of no phase, and it is named. -/
theorem compile_ok_activates {d : Document} {c : Compiled} (h : compile d = .ok c) (hkeyed : d.PhasesKeyed) :
    (∀ entry ∈ d.phases, entry.2.id ≠ allPhase →
      ∃ active, resolvePhase c (some entry.2.id) = .ok active ∧ active.Follows d c entry.2) ∧
    ∀ id e, resolvePhase c (some id) = .error e ↔
      e = .unknownPhase id ∧ id ≠ allPhase ∧ ∀ entry ∈ d.phases, entry.2.id ≠ id := by
  constructor
  · intro entry hentry hid
    exact resolvePhase_follows h hkeyed hentry hid
  · intro id e
    exact resolvePhase_eq_error_iff h hkeyed

private def patternNamed (id : String) (isAbstract : Bool) (base : Option String) : Pattern :=
  ⟨some id, none, isAbstract, base, [], [], [⟨none, "a", false, [], [], []⟩]⟩

private def early : Phase := ⟨"early", ["r", "p", "r"], [⟨"x", "1"⟩]⟩

/-- Four patterns, one of them abstract and one an instance of it. The phase activates two of them, and
names one of these twice. -/
private def twoOfFour : Document :=
  { Document.empty with
    phases := [("early", early)]
    patterns := [patternNamed "p" false none, patternNamed "base" true none, patternNamed "q" false none,
      patternNamed "r" false (some "base")] }

private def threePatterns : List Pattern :=
  [patternNamed "p" false none, patternNamed "q" false none, patternNamed "r" false none]

theorem compile_ok_activates_twoOfFour :
    ∃ c active, compile twoOfFour = .ok c ∧ twoOfFour.PhasesKeyed ∧
      resolvePhase c (some "early") = .ok active ∧ active.Follows twoOfFour c early ∧
      active.patterns = [(patternNamed "p" false none, 0), (patternNamed "r" false none, 2)] ∧
      resolvePhase c (some "late") = .error (.unknownPhase "late") := by
  have hpatterns : concretePatterns twoOfFour = .ok threePatterns := by decide +kernel
  have hcompile : compile twoOfFour = .ok ⟨{ twoOfFour with patterns := threePatterns }, .xslt⟩ := by
    unfold compile
    rw [hpatterns]
    cbv
  have hkeyed : twoOfFour.PhasesKeyed := ⟨by decide, by decide⟩
  obtain ⟨hfound, hunknown⟩ := compile_ok_activates hcompile hkeyed
  obtain ⟨active, hactive, hfollows⟩ := hfound ("early", early) List.mem_cons_self (by decide)
  have hlate := (hunknown "late" (.unknownPhase "late")).mpr ⟨rfl, by decide, by decide⟩
  have hpair : active.patterns = [(patternNamed "p" false none, 0), (patternNamed "r" false none, 2)] := by
    cases hactive
    rfl
  exact ⟨_, active, hcompile, hkeyed, hactive, hfollows, hpair, hlate⟩

end Schema

end Schematron
