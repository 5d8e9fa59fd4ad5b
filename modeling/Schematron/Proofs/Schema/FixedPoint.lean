import Schematron.Proofs.Schema.Inheritance

/-!
A compiled schema is in executable form, and a schema in that form compiles to itself.
-/

namespace Schematron.Schema

/-- A rule that inherits nothing and binds no name twice. -/
structure Rule.Executable (r : Rule) : Prop where
  concrete : r.isAbstract = false
  bases : r.bases = []
  names : (r.lets.map (·.name)).Nodup

/-- A pattern with executable rules that owes nothing to another pattern. -/
structure Pattern.Executable (p : Pattern) : Prop where
  concrete : p.isAbstract = false
  base : p.base = none
  parameters : p.parameters = []
  rules : ∀ r ∈ p.rules, r.Executable

theorem keepLast_of_nodup {ls : List Let} (h : (ls.map (·.name)).Nodup) : keepLast ls = ls := by
  induction ls with
  | nil => rfl
  | cons l rest ih =>
    rw [List.map_cons, List.nodup_cons] at h
    have hlast : ¬rest.any (·.name = l.name) = true := by
      simpa [List.any_eq_true, List.mem_map] using h.1
    rw [keepLast, if_neg hlast, ih h.2]

theorem Rule.Executable.resolve {r : Rule} (h : r.Executable) (patterns : List Pattern) (home : Nat)
    (visiting : List String) : resolve patterns home r visiting = .ok (.own r) := by
  have hlets : mergeLets [] r.lets = r.lets := (mergeLets_keepLast [] r.lets).trans (keepLast_of_nodup h.names)
  rw [Schema.resolve, h.bases, resolveAll]
  simp [Content.merge, Content.own, Content.empty, hlets]

theorem Rule.Executable.flatten {r : Rule} (h : r.Executable) (patterns : List Pattern) (home : Nat) :
    flatten patterns home r = .ok r := by
  rw [Schema.flatten, h.resolve]
  simp [Content.own, ← h.concrete, ← h.bases]

theorem Pattern.Executable.flatten {p : Pattern} (h : p.Executable) (patterns : List Pattern) (home : Nat) :
    flattenPattern patterns home p = .ok p := by
  have hall : p.rules.filter (!·.isAbstract) = p.rules :=
    List.filter_eq_self.mpr fun r hr => by simp [(h.rules r hr).concrete]
  rw [flattenPattern, hall, mapM_eq_self fun r hr => (h.rules r hr).flatten patterns home]
  simp [← h.concrete, ← h.base, ← h.parameters]

theorem firstRepeated?_go_eq_none_iff {seen ids : List String} :
    firstRepeated?.go seen ids = none ↔ ids.Nodup ∧ ∀ id ∈ ids, id ∉ seen := by
  induction ids generalizing seen with
  | nil => simp [firstRepeated?.go]
  | cons id rest ih =>
    rw [firstRepeated?.go]
    by_cases hid : id ∈ seen
    · simp [hid]
    · rw [if_neg (by simpa using hid), ih, List.nodup_cons, List.forall_mem_cons]
      constructor
      · intro h
        obtain ⟨hrest, hseen⟩ := h
        refine ⟨⟨fun hmem => hseen id hmem List.mem_cons_self, hrest⟩, hid, fun other hother hmem => ?_⟩
        exact hseen other hother (List.mem_cons_of_mem _ hmem)
      · intro h
        obtain ⟨⟨hnew, hrest⟩, -, hseen⟩ := h
        refine ⟨hrest, fun other hother hmem => ?_⟩
        rcases List.mem_cons.mp hmem with rfl | hmem
        · exact hnew hother
        · exact hseen other hother hmem

theorem checkPatternIds_eq_ok_iff {d : Document} :
    checkPatternIds d = .ok () ↔ (d.patterns.filterMap (·.id)).Nodup := by
  have hgo (ids : List String) : firstRepeated? ids = none ↔ ids.Nodup := by
    cases ids with
    | nil => simp [firstRepeated?]
    | cons id rest =>
      show firstRepeated?.go [] (id :: rest) = none ↔ _
      rw [firstRepeated?_go_eq_none_iff]
      simp
  rw [← hgo, checkPatternIds]
  cases firstRepeated? (d.patterns.filterMap (·.id)) <;> simp

theorem checkActive_eq_ok_iff {d : Document} {phase : Phase} {id : String} :
    checkActive d phase id = .ok () ↔ ∃ p, d.pattern? id = some p ∧ p.isAbstract = false := by
  unfold checkActive
  cases d.pattern? id with
  | none => simp
  | some p => cases hp : p.isAbstract <;> simp [hp]

theorem checkPhases_eq_ok_iff {d : Document} :
    checkPhases d = .ok () ↔ ∀ entry ∈ d.phases, ∀ id ∈ entry.2.active,
      ∃ p, d.pattern? id = some p ∧ p.isAbstract = false := by
  unfold checkPhases
  simp only [forM_eq_ok_iff, checkActive_eq_ok_iff]

/-- The rules of a pattern are its own, or those of the abstract pattern that it instantiates. -/
inductive HasRules (d : Document) : Pattern → List Rule → Prop where
  | own {p : Pattern} (h : p.base = none) : HasRules d p p.rules
  | base {p b : Pattern} {id : String} (h : p.base = some id) (found : d.pattern? id = some b)
      (h' : b.isAbstract = true) :
      HasRules d p (b.rules.map (·.mapQueries (substitute p.parameters)))

/-- A rule as it was, but for what it inherits, which stands before what it has itself. -/
structure WrittenOut (rule flat : Rule) : Prop where
  same : flat = { rule with isAbstract := false, bases := [], lets := flat.lets, assertions := flat.assertions }
  lets : keepLast rule.lets <:+ flat.lets
  assertions : rule.assertions <:+ flat.assertions

/-- A pattern and its compiled form. -/
structure Compiles (d : Document) (p q : Pattern) : Prop where
  id : q.id = p.id
  rules : ∃ rules, HasRules d p rules ∧ List.Forall₂ WrittenOut (rules.filter (!·.isAbstract)) q.rules

theorem Flattens.writtenOut {patterns : List Pattern} {home : Nat} {rule flat : Rule}
    (h : Flattens patterns home rule flat) : WrittenOut rule flat := by
  obtain ⟨all, -, rfl⟩ := h.content
  refine ⟨rfl, ?_, List.suffix_append _ _⟩
  show keepLast rule.lets <:+ keepLast (all.lets ++ rule.lets)
  rw [keepLast_append]
  exact List.suffix_append _ _

theorem Flattens.executable {patterns : List Pattern} {home : Nat} {rule flat : Rule}
    (h : Flattens patterns home rule flat) : flat.Executable := by
  obtain ⟨all, -, heq⟩ := h.content
  refine ⟨?_, ?_, h.names⟩ <;> rw [heq]

/-- A pattern that instantiates no other, and its executable form. -/
structure FlatForm (p q : Pattern) : Prop where
  id : q.id = p.id
  executable : q.Executable
  rules : List.Forall₂ WrittenOut (p.rules.filter (!·.isAbstract)) q.rules

theorem flatForm_of_flattenPattern {patterns : List Pattern} {home : Nat} {p q : Pattern}
    (h : flattenPattern patterns home p = .ok q) : FlatForm p q := by
  have hrules := flattenPattern_rules h
  have hexecutable : ∀ r ∈ q.rules, r.Executable := by
    intro r hr
    obtain ⟨rule, -, hflat⟩ := exists_of_forall₂_of_mem hrules.flip hr
    exact hflat.executable
  have hwritten := hrules.imp fun _ _ hflat => hflat.writtenOut
  unfold flattenPattern at h
  split at h
  · cases h
  · cases h
    exact ⟨rfl, ⟨rfl, rfl, rfl, hexecutable⟩, hwritten⟩

theorem instantiate_eq_ok {d : Document} {p q : Pattern} {id : String} (hbase : p.base = some id)
    (h : instantiate d p id = .ok q) : q.id = p.id ∧ HasRules d p q.rules := by
  unfold instantiate at h
  split at h
  · cases h
  · rename_i b hb
    obtain ⟨hfound, habstract⟩ := Option.filter_eq_some_iff.mp hb
    split at h
    · cases h
    · cases h
      exact ⟨rfl, .base hbase hfound habstract⟩

theorem concretePatterns_eq_ok {d : Document} {patterns : List Pattern}
    (h : concretePatterns d = .ok patterns) :
    List.Forall₂ (fun p q => q.id = p.id ∧ HasRules d p q.rules) (d.patterns.filter (!·.isAbstract))
      patterns := by
  refine (mapM_eq_ok_iff.mp h).imp fun p q hq => ?_
  cases hbase : p.base with
  | none =>
    rw [hbase] at hq
    cases hq
    exact ⟨rfl, .own hbase⟩
  | some id =>
    rw [hbase] at hq
    exact instantiate_eq_ok hbase hq

/-- The patterns of a compiled schema are executable, and come in order from those that are not abstract. -/
theorem patterns_of_compile {d : Document} {c : Compiled} (h : compile d = .ok c) :
    (∀ q ∈ c.document.patterns, q.Executable) ∧
      List.Forall₂ (Compiles d) (d.patterns.filter (!·.isAbstract)) c.document.patterns := by
  obtain ⟨-, -, -, patterns, flat, hconcrete, hflat, hdocument⟩ := compile_eq_ok_iff.mp h
  have hforms : List.Forall₂ FlatForm patterns flat := by
    have hindexed : List.Forall₂ (fun (p : Pattern × Nat) q => FlatForm p.1 q) patterns.zipIdx flat :=
      (mapM_eq_ok_iff.mp hflat).imp fun _ _ hq => flatForm_of_flattenPattern hq
    have hmap := (List.forall₂_map_left_iff (R := FlatForm)).mpr hindexed
    rwa [List.zipIdx_map_fst] at hmap
  rw [hdocument]
  constructor
  · intro q hq
    obtain ⟨p, -, hform⟩ := exists_of_forall₂_of_mem hforms.flip hq
    exact hform.executable
  · refine forall₂_trans (fun p q r hpq hqr => ?_) (concretePatterns_eq_ok hconcrete) hforms
    exact ⟨hqr.id.trans hpq.1, q.rules, hpq.2, hqr.rules⟩

/-- Where the patterns to run are executable, a schema compiles to these. -/
theorem compile_eq_ok_of_executable {d : Document} {language : Query.Language} {patterns : List Pattern}
    (hlanguage : Query.Language.ofBinding? d.queryBinding = some language) (hids : checkPatternIds d = .ok ())
    (hphases : checkPhases d = .ok ()) (hpatterns : concretePatterns d = .ok patterns)
    (hall : ∀ p ∈ patterns, p.Executable) : compile d = .ok ⟨{ d with patterns }, language⟩ := by
  have hflat : (patterns.zipIdx.mapM fun x => flattenPattern patterns x.2 x.1) = .ok patterns := by
    have hindexed : List.Forall₂ (fun (x : Pattern × Nat) q => flattenPattern patterns x.2 x.1 = .ok q)
        patterns.zipIdx (patterns.zipIdx.map Prod.fst) := by
      rw [List.forall₂_map_right_iff, List.forall₂_same]
      exact fun x hx => (hall x.1 (List.fst_mem_of_mem_zipIdx hx)).flatten _ x.2
    rw [List.zipIdx_map_fst] at hindexed
    exact mapM_eq_ok_iff.mpr hindexed
  exact compile_eq_ok_iff.mpr ⟨hlanguage, hids, hphases, _, _, hpatterns, hflat, rfl⟩

/-- An executable schema compiles to itself. -/
theorem compile_of_executable {c : Compiled} (hall : ∀ p ∈ c.document.patterns, p.Executable)
    (hlanguage : Query.Language.ofBinding? c.document.queryBinding = some c.language)
    (hids : checkPatternIds c.document = .ok ()) (hphases : checkPhases c.document = .ok ()) :
    compile c.document = .ok c := by
  have hfilter : c.document.patterns.filter (!·.isAbstract) = c.document.patterns :=
    List.filter_eq_self.mpr fun p hp => by simp [(hall p hp).concrete]
  have hconcrete : concretePatterns c.document = .ok c.document.patterns := by
    rw [concretePatterns, hfilter]
    refine mapM_eq_self fun p hp => ?_
    rw [(hall p hp).base]
  exact compile_eq_ok_of_executable hlanguage hids hphases hconcrete hall

theorem language_of_compile {d : Document} {c : Compiled} (h : compile d = .ok c) :
    Query.Language.ofBinding? c.document.queryBinding = some c.language := by
  obtain ⟨hlanguage, -, -, patterns, flat, -, -, hdocument⟩ := compile_eq_ok_iff.mp h
  rw [hdocument]
  exact hlanguage

/-- The patterns of a compiled schema have the ids of those that are not abstract. -/
theorem ids_of_compile {d : Document} {c : Compiled} (h : compile d = .ok c) :
    c.document.patterns.map (·.id) = (d.patterns.filter (!·.isAbstract)).map (·.id) := by
  have hequal := (patterns_of_compile h).2.imp fun _ _ hform => hform.id.symm
  rw [eq_comm, ← List.forall₂_eq_eq_eq, List.forall₂_map_left_iff, List.forall₂_map_right_iff]
  exact hequal

theorem filterMap_id_eq (ps : List Pattern) : ps.filterMap (·.id) = (ps.map (·.id)).filterMap id := by
  rw [List.filterMap_map]
  rfl

/-- The ids of patterns stay apart when the abstract patterns are gone. -/
theorem checkPatternIds_of_compile {d : Document} {c : Compiled} (h : compile d = .ok c) :
    checkPatternIds c.document = .ok () := by
  obtain ⟨-, hids, -⟩ := compile_eq_ok_iff.mp h
  have hnodup := checkPatternIds_eq_ok_iff.mp hids
  have hpart : ((d.patterns.filter (!·.isAbstract)).filterMap (·.id)).Sublist (d.patterns.filterMap (·.id)) :=
    List.filter_sublist.filterMap _
  rw [checkPatternIds_eq_ok_iff, filterMap_id_eq, ids_of_compile h, ← filterMap_id_eq]
  exact hnodup.sublist hpart

/-- The patterns that a phase activates are there after as before. -/
theorem checkPhases_of_compile {d : Document} {c : Compiled} (h : compile d = .ok c) :
    checkPhases c.document = .ok () := by
  obtain ⟨-, -, hphases, patterns, flat, -, -, hdocument⟩ := compile_eq_ok_iff.mp h
  obtain ⟨hexecutable, hforms⟩ := patterns_of_compile h
  have hsame : c.document.phases = d.phases := by rw [hdocument]
  rw [checkPhases_eq_ok_iff] at hphases ⊢
  rw [hsame]
  intro entry hentry id hid
  obtain ⟨p, hp, hconcrete⟩ := hphases entry hentry id hid
  have hmem : p ∈ d.patterns.filter (!·.isAbstract) :=
    List.mem_filter.mpr ⟨List.mem_of_find?_eq_some hp, by simp [hconcrete]⟩
  obtain ⟨q, hq, hform⟩ := exists_of_forall₂_of_mem hforms hmem
  have hfound : (c.document.pattern? id).isSome = true := by
    have hpid : p.id = some id := by simpa using List.find?_some hp
    refine List.find?_isSome.mpr ⟨q, hq, ?_⟩
    simp [hform.id, hpid]
  obtain ⟨r, hr⟩ := Option.isSome_iff_exists.mp hfound
  exact ⟨r, hr, (hexecutable r (List.mem_of_find?_eq_some hr)).concrete⟩

/-- A schema that compiles comes to executable form: its patterns that are not abstract, in order and under
their ids, with their rules that are not abstract, and nothing left to inherit or to instantiate. That form
is final, for it compiles to itself. -/
theorem compile_ok_again {d : Document} {c : Compiled} (h : compile d = .ok c) :
    (∀ p ∈ c.document.patterns, p.Executable) ∧
      List.Forall₂ (Compiles d) (d.patterns.filter (!·.isAbstract)) c.document.patterns ∧
      compile c.document = .ok c := by
  obtain ⟨hexecutable, hforms⟩ := patterns_of_compile h
  refine ⟨hexecutable, hforms, ?_⟩
  exact compile_of_executable hexecutable (language_of_compile h) (checkPatternIds_of_compile h)
    (checkPhases_of_compile h)

private def ruleNamed (id context : String) (isAbstract : Bool) (bases : List String) (lets : List Let) : Rule :=
  ⟨some id, context, isAbstract, bases, lets, []⟩

private def inheriting : Pattern :=
  ⟨some "q", none, false, none, [], [],
    [ruleNamed "s" "" true [] [⟨"x", "2"⟩, ⟨"y", "3"⟩], ruleNamed "t" "b" false ["s"] [⟨"x", "4"⟩]]⟩

/-- A pattern with a rule that extends one without a context, and one that instantiates an abstract
pattern; the phase activates the latter. -/
private def instances : Document :=
  { Document.empty with
    phases := [("first", ⟨"first", ["p"], []⟩)]
    patterns := [
      ⟨some "base", none, true, none, [], [], [ruleNamed "r" "$node" false [] [⟨"x", "1"⟩]]⟩,
      ⟨some "p", none, false, some "base", [("node", "a")], [], []⟩, inheriting] }

theorem compile_ok_again_instances :
    ∃ c, compile instances = .ok c ∧
      (c.document.patterns.map fun p => p.rules.map fun r => (r.context, r.lets)) =
        [[("a", [⟨"x", "1"⟩])], [("b", [⟨"y", "3"⟩, ⟨"x", "4"⟩])]] ∧
      (∀ p ∈ c.document.patterns, p.Executable) ∧
      List.Forall₂ (Compiles instances) (instances.patterns.filter (!·.isAbstract)) c.document.patterns ∧
      compile c.document = .ok c := by
  have hpatterns : concretePatterns instances = .ok
      [⟨some "p", none, false, none, [], [], [ruleNamed "r" "a" false [] [⟨"x", "1"⟩]]⟩, inheriting] := by
    decide +kernel
  have h : ((compile instances).map fun c => c.document.patterns.map fun p => p.rules.map fun r =>
      (r.context, r.lets)) = .ok [[("a", [⟨"x", "1"⟩])], [("b", [⟨"y", "3"⟩, ⟨"x", "4"⟩])]] := by
    unfold compile
    rw [hpatterns]
    cbv
  cases hc : compile instances with
  | error e =>
    rw [hc] at h
    cases h
  | ok c =>
    rw [hc] at h
    exact ⟨c, rfl, Except.ok.inj h, compile_ok_again hc⟩

end Schematron.Schema
