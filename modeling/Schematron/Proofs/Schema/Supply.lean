import Schematron.Proofs.Schema.Cycles
import Schematron.Proofs.Schema.FixedPoint
import Schematron.Proofs.Schema.Substitution

/-!
What the instance of an abstract pattern leaves of the references in it. Every reference that the instance
gives no value for is the name of a `let` somewhere in the schema, for else the schema does not compile. It
need not be one that is in sight where the reference stands.
-/

namespace Schematron.Schema

/-- A `let` of the schema, of a phase, of a pattern or of a rule binds the name. -/
inductive Document.Binds (d : Document) (name : String) : Prop where
  | inSchema {l : Let} (hl : l ∈ d.lets) (hname : l.name = name)
  | inPhase {entry : String × Phase} {l : Let} (hentry : entry ∈ d.phases) (hl : l ∈ entry.2.lets)
      (hname : l.name = name)
  | inPattern {p : Pattern} {l : Let} (hp : p ∈ d.patterns) (hl : l ∈ p.lets) (hname : l.name = name)
  | inRule {p : Pattern} {r : Rule} {l : Let} (hp : p ∈ d.patterns) (hr : r ∈ p.rules) (hl : l ∈ r.lets)
      (hname : l.name = name)

theorem mem_letNames_iff {d : Document} {name : String} : name ∈ d.letNames ↔ d.Binds name := by
  have hplaces : name ∈ d.letNames ↔ ∃ l, ((l ∈ d.lets ∨ ∃ entry ∈ d.phases, l ∈ entry.2.lets) ∨
      ∃ p ∈ d.patterns, l ∈ p.lets ∨ ∃ r ∈ p.rules, l ∈ r.lets) ∧ l.name = name := by
    simp only [Document.letNames, List.mem_map, List.mem_append, List.mem_flatMap]
  rw [hplaces]
  constructor
  · rintro ⟨l, (hl | ⟨entry, hentry, hl⟩) | ⟨p, hp, hl | ⟨r, hr, hl⟩⟩, hname⟩
    · exact .inSchema hl hname
    · exact .inPhase hentry hl hname
    · exact .inPattern hp hl hname
    · exact .inRule hp hr hl hname
  · intro h
    cases h with
    | inSchema hl hname => exact ⟨_, .inl (.inl hl), hname⟩
    | inPhase hentry hl hname => exact ⟨_, .inl (.inr ⟨_, hentry, hl⟩), hname⟩
    | inPattern hp hl hname => exact ⟨_, .inr ⟨_, hp, .inl hl⟩, hname⟩
    | inRule hp hr hl hname => exact ⟨_, .inr ⟨_, hp, .inr ⟨_, hr, hl⟩⟩, hname⟩

theorem least?_eq_none_iff {names : List String} : least? names = none ↔ names = [] := by
  cases names with
  | nil => exact iff_of_true rfl rfl
  | cons n rest =>
    refine iff_of_false (fun h => ?_) (List.cons_ne_nil _ _)
    rw [least?] at h
    cases hrest : least? rest <;> rw [hrest] at h <;> cases h

/-- No name that the pattern `b` requires is missing among the parameters. -/
theorem least?_required_eq_none_iff {d : Document} {b : Pattern} {parameters : Table String} :
    least? ((required d b).filter fun n => (parameters.get? n).isNone) = none ↔
      ∀ query ∈ b.queries, ∀ n ∈ references query, parameters.get? n = none → d.Binds n := by
  rw [least?_eq_none_iff, List.filter_eq_nil_iff]
  constructor
  · intro h query hquery n hn hnone
    by_contra hbinds
    have hrequired : n ∈ required d b :=
      List.mem_filter.mpr ⟨List.mem_flatMap.mpr ⟨query, hquery, hn⟩, by simpa [mem_letNames_iff] using hbinds⟩
    exact h n hrequired (by simp [hnone])
  · intro h n hn hmissing
    obtain ⟨hreferences, hbound⟩ := List.mem_filter.mp hn
    obtain ⟨query, hquery, hn⟩ := List.mem_flatMap.mp hreferences
    have hbinds := h query hquery n hn (by simpa using hmissing)
    simp [mem_letNames_iff.mpr hbinds] at hbound

def Assertion.queries (a : Assertion) : List String := a.test :: a.message.filterMap (·.select?)

def Content.queries (c : Content) : List String := c.lets.map (·.value) ++ c.assertions.flatMap (·.queries)

def Rule.queries (r : Rule) : List String := r.context :: (Content.own r).queries

theorem Pattern.queries_eq (p : Pattern) :
    p.queries = p.lets.map (·.value) ++ p.rules.flatMap (·.queries) := rfl

theorem filterMap_select?_mapQuery (f : String → String) (m : Message) :
    (m.map (·.mapQuery f)).filterMap (·.select?) = (m.filterMap (·.select?)).map f := by
  rw [List.filterMap_map, List.map_filterMap]
  refine List.filterMap_congr fun part _ => ?_
  cases part <;> rfl

theorem Rule.queries_mapQueries (f : String → String) (r : Rule) :
    (r.mapQueries f).queries = r.queries.map f := by
  have hassertions : (r.mapQueries f).assertions.flatMap (·.queries) =
      (r.assertions.flatMap (·.queries)).map f := by
    rw [mapQueries, List.flatMap_map, List.map_flatMap]
    exact congrArg (r.assertions.flatMap ·) (funext fun a =>
      congrArg (f a.test :: ·) (filterMap_select?_mapQuery f a.message))
  rw [queries, Content.queries, Content.own, hassertions]
  simp [queries, Content.queries, Content.own, mapQueries, Let.mapQuery]

/-- The pattern that `p` is an instance of, with the parameters put in and the variables of `p` behind its own. -/
def Pattern.instanceOf (p b : Pattern) : Pattern where
  id := p.id
  title := p.title <|> b.title
  isAbstract := false
  base := none
  parameters := []
  lets := b.lets.map (·.mapQuery (substitute p.parameters)) ++ p.lets
  rules := b.rules.map (·.mapQueries (substitute p.parameters))

theorem mem_queries_instanceOf {p b : Pattern} {text : String} (h : text ∈ (p.instanceOf b).queries) :
    text ∈ p.lets.map (·.value) ∨ ∃ query ∈ b.queries, text = substitute p.parameters query := by
  rw [Pattern.queries_eq] at h
  simp only [Pattern.instanceOf, List.map_append, List.mem_append, List.map_map] at h
  rcases h with (h | h) | h
  · obtain ⟨l, hl, rfl⟩ := List.mem_map.mp h
    exact .inr ⟨l.value, List.mem_append_left _ (List.mem_map_of_mem hl), rfl⟩
  · exact .inl h
  · rw [List.flatMap_map] at h
    obtain ⟨r, hr, htext⟩ := List.mem_flatMap.mp h
    rw [Rule.queries_mapQueries] at htext
    obtain ⟨query, hquery, rfl⟩ := List.mem_map.mp htext
    exact .inr ⟨query, List.mem_append_right _ (List.mem_flatMap.mpr ⟨r, hr, hquery⟩), rfl⟩

/-- A pattern is instantiated just where the abstract pattern is there and what the instance leaves of its
references is bound. -/
theorem instantiate_eq_ok_iff {d : Document} {p q : Pattern} {id : String} :
    instantiate d p id = .ok q ↔
      ∃ b, d.pattern? id = some b ∧ b.isAbstract = true ∧ q = p.instanceOf b ∧
        ∀ query ∈ b.queries, ∀ n ∈ references query, p.parameters.get? n = none → d.Binds n := by
  unfold instantiate
  cases hb : (d.pattern? id).filter (·.isAbstract) with
  | none =>
    refine iff_of_false nofun ?_
    rintro ⟨b, hfound, habstract, -⟩
    rw [Option.filter_eq_some_iff.mpr ⟨hfound, habstract⟩] at hb
    cases hb
  | some b =>
    obtain ⟨hfound, habstract⟩ := Option.filter_eq_some_iff.mp hb
    rw [hfound]
    simp only [Option.some.injEq, exists_eq_left', habstract, true_and]
    rw [← least?_required_eq_none_iff]
    cases least? ((required d b).filter fun n => (p.parameters.get? n).isNone) with
    | some n => simp
    | none => simp [Pattern.instanceOf, eq_comm]

section

variable {patterns : List Pattern} {home : Nat} {text : String}

/-- The text is a query of one of the patterns. -/
def QueryOf (patterns : List Pattern) (text : String) : Prop :=
  ∃ (i : Nat) (p : Pattern), patterns[i]? = some p ∧ text ∈ p.queries

theorem queryOf_of_rule {p : Pattern} {i : Nat} {r : Rule} (hp : patterns[i]? = some p) (hr : r ∈ p.rules)
    (h : text ∈ r.queries) : QueryOf patterns text :=
  ⟨i, p, hp, List.mem_append_right _ (List.mem_flatMap.mpr ⟨r, hr, h⟩)⟩

theorem Content.mem_queries_append {a b : Content} (h : text ∈ (a.append b).queries) :
    text ∈ a.queries ∨ text ∈ b.queries := by
  simp only [queries, append, List.map_append, List.flatMap_append, List.mem_append] at h ⊢
  tauto

theorem mem_of_mem_keepLast {l : Let} {ls : List Let} (h : l ∈ keepLast ls) : l ∈ ls := by
  induction ls with
  | nil => exact h
  | cons m rest ih =>
    rw [keepLast] at h
    split at h
    · exact List.mem_cons_of_mem _ (ih h)
    · exact (List.mem_cons.mp h).elim (fun heq => heq ▸ List.mem_cons_self) fun h => List.mem_cons_of_mem _ (ih h)

theorem Content.mem_queries_settled {c : Content} (h : text ∈ c.settled.queries) : text ∈ c.queries := by
  rcases List.mem_append.mp h with h | h
  · obtain ⟨l, hl, rfl⟩ := List.mem_map.mp h
    exact List.mem_append_left _ (List.mem_map_of_mem (mem_of_mem_keepLast hl))
  · exact List.mem_append_right _ h

/-- What is inherited is from rules of the patterns. -/
theorem Inherited.queryOf {targets : List String} {all : Content} (h : Inherited patterns home targets all) :
    ∀ text ∈ all.queries, QueryOf patterns text := by
  induction h with
  | nil => nofun
  | @cons home i id more base above rest found first others ihFirst ihOthers =>
    intro text htext
    obtain ⟨p, hp, hr⟩ := Option.bind_eq_some_iff.mp (ruleIn?_of_target? found)
    have hcontent : text ∈ ((above.append (.own base)).append rest).queries := htext
    rcases Content.mem_queries_append hcontent with h | h
    · rcases Content.mem_queries_append h with h | h
      · exact ihFirst text h
      · exact queryOf_of_rule hp (List.mem_of_find?_eq_some hr) (List.mem_cons_of_mem _ h)
    · exact ihOthers text h

theorem queryOf_of_flattenPattern {p q : Pattern} (hp : patterns[home]? = some p)
    (h : flattenPattern patterns home p = .ok q) : ∀ text ∈ q.queries, QueryOf patterns text := by
  intro text htext
  have hrules := flattenPattern_rules h
  have hlets : q.lets = p.lets := by
    unfold flattenPattern at h
    split at h <;> cases h
    rfl
  rw [Pattern.queries_eq, hlets] at htext
  rcases List.mem_append.mp htext with htext | htext
  · exact ⟨home, p, hp, List.mem_append_left _ htext⟩
  · obtain ⟨flat, hflat, htext⟩ := List.mem_flatMap.mp htext
    obtain ⟨rule, hrule, hform⟩ := exists_of_forall₂_of_mem hrules.flip hflat
    obtain ⟨all, hall, rfl⟩ := hform.content
    have hown (h : text ∈ rule.queries) : QueryOf patterns text :=
      queryOf_of_rule hp (List.mem_filter.mp hrule).1 h
    rcases List.mem_cons.mp htext with rfl | htext
    · exact hown List.mem_cons_self
    · have hcontent : text ∈ (all.append (.own rule)).settled.queries := htext
      rcases Content.mem_queries_append (Content.mem_queries_settled hcontent) with h | h
      · exact hall.queryOf text h
      · exact hown (List.mem_cons_of_mem _ h)

end

/-- `q` is the compiled form of `p`, the pattern at `home`, which is an instance of `b`. -/
structure Supplied (d : Document) (patterns : List Pattern) (home : Nat) (p b q : Pattern) : Prop where
  id : q.id = p.id
  /-- What does not come from `b` comes from `p` or is inherited from another pattern. -/
  queries : ∀ text ∈ q.queries, (∃ query ∈ b.queries, text = substitute p.parameters query) ∨
    text ∈ p.lets.map (·.value) ∨ ∃ (i : Nat) (other : Pattern), i ≠ home ∧ patterns[i]? = some other ∧
      text ∈ other.queries
  left : ∀ query ∈ b.queries, ∀ n ∈ references query, p.parameters.get? n = none → d.Binds n
  /-- What is put in adds no references, where it has no marks and joins nothing. -/
  added : Inert p.parameters → ∀ query ∈ b.queries, Clear p.parameters (fragments query.toList) →
    ∀ n ∈ references (substitute p.parameters query), d.Binds n

theorem supplied_of_instantiate {d : Document} {patterns : List Pattern} {home : Nat} {p q : Pattern} {id : String}
    {instanced : Pattern} (hinstantiate : instantiate d p id = .ok instanced)
    (hhome : patterns[home]? = some instanced) (hflat : flattenPattern patterns home instanced = .ok q) :
    ∃ b, d.pattern? id = some b ∧ b.isAbstract = true ∧ Supplied d patterns home p b q := by
  obtain ⟨b, hfound, habstract, rfl, hleft⟩ := instantiate_eq_ok_iff.mp hinstantiate
  refine ⟨b, hfound, habstract, (flatForm_of_flattenPattern hflat).id, ?_, hleft, ?_⟩
  · intro text htext
    obtain ⟨i, other, hother, hquery⟩ := queryOf_of_flattenPattern hhome hflat text htext
    by_cases hi : i = home
    · subst hi
      cases hhome.symm.trans hother
      exact (mem_queries_instanceOf hquery).symm.imp_right .inl
    · exact .inr (.inr ⟨i, other, hi, hother, hquery⟩)
  · intro hinert query hquery hclear n hn
    rw [references_substitute hinert hclear, List.mem_filter] at hn
    exact hleft query hquery n hn.1 (by simpa using hn.2)

/-- In a schema that compiles every reference that an instance leaves in the queries of its base is the name of
a `let`, of the schema, a phase, a pattern or a rule. Where the values have no marks and join nothing, there are
no other references in what comes from the base. -/
theorem compile_ok_supplied {d : Document} {c : Compiled} (h : compile d = .ok c) :
    ∃ patterns, concretePatterns d = .ok patterns ∧
      ∀ home p id, (d.patterns.filter (!·.isAbstract))[home]? = some p → p.base = some id →
        ∃ b q, d.pattern? id = some b ∧ b.isAbstract = true ∧ c.document.patterns[home]? = some q ∧
          Supplied d patterns home p b q := by
  obtain ⟨-, -, -, patterns, flat, hpatterns, hflat, hdocument⟩ := compile_eq_ok_iff.mp h
  refine ⟨patterns, hpatterns, fun home p id hp hbase => ?_⟩
  obtain ⟨instanced, hinstanced, hconcrete⟩ := exists_getElem?_of_forall₂ (mapM_eq_ok_iff.mp hpatterns) hp
  have hindexed : patterns.zipIdx[home]? = some (instanced, home) := by
    rw [List.getElem?_zipIdx, hinstanced, Nat.zero_add]
    rfl
  obtain ⟨q, hq, hform⟩ := exists_getElem?_of_forall₂ (mapM_eq_ok_iff.mp hflat) hindexed
  rw [hbase] at hconcrete
  obtain ⟨b, hfound, habstract, hsupplied⟩ := supplied_of_instantiate hconcrete hinstanced hform
  rw [hdocument]
  exact ⟨b, q, hfound, habstract, hq, hsupplied⟩

private def testing (test : String) : Rule :=
  ⟨none, "r", false, [], [], [⟨none, .assert, test, [.text "m"], [], none, none, none, none⟩]⟩

private def instancing (parameters : Table String) : Pattern :=
  ⟨some "i", none, false, some "b", parameters, [], []⟩

/-- The pattern `i` is an instance of one that has a single test. -/
private def oneInstance (lets : List Let) (test : String) (parameters : Table String) (others : List Pattern) :
    Document :=
  { Document.empty with
    lets, patterns := ⟨some "b", none, true, none, [], [], [testing test]⟩ :: instancing parameters :: others }

private def written (test : String) : Pattern := ⟨some "i", none, false, none, [], [], [testing test]⟩

private theorem executable_written (test : String) : (written test).Executable := by
  refine ⟨rfl, rfl, rfl, List.forall_mem_singleton.mpr ?_⟩
  exact ⟨rfl, rfl, List.nodup_nil⟩

theorem compile_ok_supplied_kept :
    let d := oneInstance [⟨"y", "2"⟩] "$p = $y" [("p", "@a")] []
    let c : Compiled := ⟨{ d with patterns := [written "@a = $y"] }, .xslt⟩
    compile d = .ok c ∧ ∃ patterns, concretePatterns d = .ok patterns ∧
      ∃ b q, d.pattern? "b" = some b ∧ b.isAbstract = true ∧ c.document.patterns[0]? = some q ∧
        Supplied d patterns 0 (instancing [("p", "@a")]) b q := by
  intro d c
  have hcompile : compile d = .ok c := compile_eq_ok_of_executable rfl rfl rfl (by decide +kernel)
    (List.forall_mem_singleton.mpr (executable_written _))
  obtain ⟨patterns, hpatterns, hall⟩ := compile_ok_supplied hcompile
  exact ⟨hcompile, patterns, hpatterns, hall 0 _ "b" rfl rfl⟩

/-- The name is that of a variable of the schema, of a phase, of the pattern or of the rule. -/
def InSight (d : Document) (p : Pattern) (r : Rule) (name : String) : Prop :=
  name ∈ (d.lets ++ d.phases.flatMap (·.2.lets) ++ p.lets ++ r.lets).map (·.name)

/-- The schema compiles, and a test of the instance `i` has a reference that nothing in sight has the name of. -/
private def Blind (d : Document) (test name : String) : Prop :=
  ∃ c, compile d = .ok c ∧ written test ∈ c.document.patterns ∧ name ∈ references test ∧
    ¬InSight c.document (written test) (testing test) name

private theorem blind_of_patterns {lets : List Let} {base test name : String} {parameters : Table String}
    {others : List Pattern} (hids : checkPatternIds (oneInstance lets base parameters others) = .ok ())
    (hpatterns : concretePatterns (oneInstance lets base parameters others) = .ok (written test :: others))
    (hothers : ∀ p ∈ others, p.Executable) (hname : name ∈ references test) (hsight : name ∉ lets.map (·.name)) :
    Blind (oneInstance lets base parameters others) test name := by
  have hlanguage : Query.Language.ofBinding? (oneInstance lets base parameters others).queryBinding = some .xslt :=
    rfl
  have hcompile := compile_eq_ok_of_executable hlanguage hids rfl hpatterns
    (List.forall_mem_cons.mpr ⟨executable_written test, hothers⟩)
  refine ⟨_, hcompile, List.mem_cons_self, hname, fun h => hsight ?_⟩
  simpa [InSight, oneInstance, written, testing, Document.empty] using h

/-- A variable of another pattern is enough for a reference to pass. One can also come into being: where a value
has a quote, out of a literal, and where a value stands right behind a reference, by joining it. -/
theorem compile_ok_supplied_unseen :
    Blind (oneInstance [] "$x" [] [⟨some "o", none, false, none, [], [⟨"x", "1"⟩], []⟩]) "$x" "x" ∧
      Blind (oneInstance [] "$q' = $x = '$q" [("q", "'")] []) "'' = $x = ''" "x" ∧
      Blind (oneInstance [⟨"y", "1"⟩] "$y$p" [("p", "z")] []) "$yz" "yz" := by
  refine ⟨?_, ?_, ?_⟩
  · have hother : ∀ p ∈ [(⟨some "o", none, false, none, [], [⟨"x", "1"⟩], []⟩ : Pattern)], p.Executable :=
      List.forall_mem_singleton.mpr ⟨rfl, rfl, rfl, nofun⟩
    exact blind_of_patterns rfl (by decide +kernel) hother (by decide +kernel) (by decide)
  · exact blind_of_patterns rfl (by decide +kernel) nofun (by decide +kernel) (by decide)
  · exact blind_of_patterns rfl (by decide +kernel) nofun (by decide +kernel) (by decide)

end Schematron.Schema
