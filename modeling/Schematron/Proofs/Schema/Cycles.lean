import Schematron.Proofs.Schema.Inheritance

/-!
Reports of cyclic extension. The rules on a way are told apart by their labels alone, so a way is given up
where a label comes again, be it that of the same rule or of another.
-/

namespace Schematron.Schema

open Relation (ReflTransGen TransGen)

/-- A way from a rule to a rule: each is the target of an id that the one before it names. -/
inductive Way (patterns : List Pattern) : Site → List String → Site → Prop where
  | here (a : Site) : Way patterns a [] a
  | onward {a b c : Site} {id : String} {ids : List String} (asked : id ∈ a.2.bases)
      (found : target? patterns a.1 id = some b) (rest : Way patterns b ids c) : Way patterns a (id :: ids) c

/-- A way on which a rule asks for a label that the way has been through: `last` asks for the label of
`named`. -/
structure Recurrence (patterns : List Pattern) (start : Site) where
  before : List String
  named : Site
  after : List String
  last : Site
  toNamed : Way patterns start before named
  toLast : Way patterns named after last
  asked : named.2.label ∈ last.2.bases

namespace Recurrence

variable {patterns : List Pattern} {start : Site}

/-- The labels on the way, the one that comes again at both its places. -/
def chain (r : Recurrence patterns start) : List String :=
  start.2.label :: (r.before ++ r.after ++ [r.named.2.label])

/-- The rule that is asked for is the rule that the way has been through. -/
def Genuine (r : Recurrence patterns start) : Prop :=
  target? patterns r.last.1 r.named.2.label = some r.named

/-- The label is that of two rules: another rule of the id is asked for, or the rule that the way begins at
has no id, and no rule is found by its label. -/
inductive Mistaken (r : Recurrence patterns start) : Prop where
  | otherRule (other : Site) (found : target? patterns r.last.1 r.named.2.label = some other)
      (different : other ≠ r.named) (sameId : other.2.id = r.named.2.id)
      (apart : other.1 ≠ r.named.1 ∨ r.named = start)
  | noId (begins : r.named = start) (none : start.2.id = none)

end Recurrence

section

variable {patterns : List Pattern} {home : Nat} {id : String} {a b c : Site}

theorem id_of_target? (h : target? patterns home id = some b) : b.2.id = some id := by
  simpa using List.find?_some h

theorem label_of_target? (h : target? patterns home id = some b) : b.2.label = id := by
  rw [Rule.label, id_of_target? h, Option.getD_some]

/-- A target is the first rule of its id in its pattern. -/
theorem ruleIn?_of_target? (h : target? patterns home id = some b) :
    patterns[b.1]?.bind (ruleIn? id) = some b.2 := by
  rw [← findRule?_eq_target?] at h
  unfold findRule? at h
  split at h
  · rename_i r hr
    cases h
    exact hr
  · obtain ⟨⟨p, i⟩, hp, hin⟩ := List.exists_of_findSome?_eq_some h
    obtain ⟨r, hr, rfl⟩ := Option.map_eq_some_iff.mp hin
    rw [List.mk_mem_zipIdx_iff_getElem?.mp hp]
    exact hr

theorem target?_isSome (h : b ∈ sites patterns) (hid : b.2.id = some id) (home : Nat) :
    ∃ other, target? patterns home id = some other := by
  have hcandidate : b ∈ candidates patterns home := List.mem_append_right _ h
  have hsome : (target? patterns home id).isSome := by
    unfold target?
    rw [List.find?_isSome]
    exact ⟨b, hcandidate, by simpa using hid⟩
  exact Option.isSome_iff_exists.mp hsome

theorem mem_sites_of_target? (h : target? patterns home id = some b) : b ∈ sites patterns := by
  obtain ⟨p, hp, hr⟩ := Option.bind_eq_some_iff.mp (ruleIn?_of_target? h)
  refine List.mem_flatMap.mpr ⟨(p, b.1), List.mk_mem_zipIdx_iff_getElem?.mpr hp, ?_⟩
  exact List.mem_map.mpr ⟨b.2, List.mem_of_find?_eq_some hr, rfl⟩

/-- Where places rise from a rule to what it extends, no rule reaches itself. -/
theorem not_cycle_of_rises (place : Site → Nat)
    (h : ∀ a ∈ sites patterns, ∀ b, Extends patterns a b → place a < place b) (a : Site) :
    ¬ TransGen (Extends patterns) a a := by
  intro hcycle
  have hsite : ∀ {b c}, Extends patterns b c → c ∈ sites patterns := by
    rintro b c ⟨id, -, hc⟩
    exact mem_sites_of_target? hc
  have hrises : ∀ b, TransGen (Extends patterns) a b → a ∈ sites patterns →
      place a < place b ∧ b ∈ sites patterns := by
    intro b hab ha
    induction hab with
    | single hb => exact ⟨h a ha _ hb, hsite hb⟩
    | tail _ hc ih => exact ⟨Nat.lt_trans ih.1 (h _ ih.2 _ hc), hsite hc⟩
  -- a rule that reaches itself is a target
  obtain ⟨b, -, hba⟩ := TransGen.tail'_iff.mp hcycle
  exact Nat.lt_irrefl _ (hrises a hcycle (hsite hba)).1

namespace Way

theorem reaches {ids : List String} (h : Way patterns a ids b) : ReflTransGen (Extends patterns) a b := by
  induction h with
  | here a => exact .refl
  | onward asked found _ ih => exact .head ⟨_, asked, found⟩ ih

/-- The rule that a way ends at, unless it is the one it begins at, has been found by its label. -/
theorem start_or_found {ids : List String} (h : Way patterns a ids b) :
    b = a ∨ b.2.label ∈ ids ∧ ∃ home, target? patterns home b.2.label = some b := by
  induction h with
  | here a => exact .inl rfl
  | @onward a b c id ids asked found rest ih =>
    rcases ih with rfl | ⟨hmem, hfound⟩
    · rw [label_of_target? found]
      exact .inr ⟨List.mem_cons_self, a.1, found⟩
    · exact .inr ⟨List.mem_cons_of_mem id hmem, hfound⟩

/-- A way is one to each of the rules whose ids it goes by, and on from there. -/
theorem split {ids : List String} (h : Way patterns a ids c) (hid : id ∈ ids) :
    ∃ before b after, ids = before ++ after ∧ Way patterns a before b ∧ Way patterns b after c ∧
      b.2.label = id := by
  induction h with
  | here a => cases hid
  | @onward a b c other ids asked found rest ih =>
    rcases List.mem_cons.mp hid with rfl | hid
    · exact ⟨[id], b, ids, rfl, .onward asked found (.here b), rest, label_of_target? found⟩
    · obtain ⟨before, d, after, rfl, hbefore, hafter, hlabel⟩ := ih hid
      exact ⟨other :: before, d, after, rfl, .onward asked found hbefore, hafter, hlabel⟩

theorem append {ids more : List String} (h : Way patterns a ids b) (h' : Way patterns b more c) :
    Way patterns a (ids ++ more) c := by
  induction h with
  | here a => exact h'
  | onward asked found _ ih => exact .onward asked found (ih h')

end Way

end

namespace Recurrence

variable {patterns : List Pattern} {start : Site}

/-- A genuine recurrence is a cycle. -/
theorem Genuine.cycle {r : Recurrence patterns start} (h : r.Genuine) :
    TransGen (Extends patterns) r.named r.named :=
  TransGen.tail' r.toLast.reaches ⟨_, r.asked, h⟩

/-- Where a label comes again, the rule asked for is the one the way has been through, or two rules go by
the label. -/
theorem genuine_or_mistaken (hstart : start ∈ sites patterns) (r : Recurrence patterns start) :
    r.Genuine ∨ r.Mistaken := by
  have hplace := r.toNamed.start_or_found
  cases hid : r.named.2.id with
  | none =>
    rcases hplace with heq | ⟨-, home, hfound⟩
    · rw [heq] at hid
      exact .inr (.noId heq hid)
    · rw [id_of_target? hfound] at hid
      cases hid
  | some id =>
    have hlabel : r.named.2.label = id := by rw [Rule.label, hid, Option.getD_some]
    have hmem : r.named ∈ sites patterns := by
      rcases hplace with heq | ⟨-, home, hfound⟩
      · rw [heq]
        exact hstart
      · exact mem_sites_of_target? hfound
    obtain ⟨other, hother⟩ := target?_isSome hmem hid r.last.1
    rw [← hlabel] at hother
    by_cases hsame : other = r.named
    · rw [hsame] at hother
      exact .inl hother
    · right
      have hid' : other.2.id = r.named.2.id := by rw [id_of_target? hother, hlabel, hid]
      refine .otherRule other hother hsame hid' ?_
      rcases hplace with heq | ⟨-, home, hfound⟩
      · exact .inr heq
      · left
        intro hpattern
        apply hsame
        -- both are the first rule of the id in one pattern
        have hfirst := ruleIn?_of_target? hother
        rw [hpattern, ruleIn?_of_target? hfound] at hfirst
        exact Prod.ext hpattern (Option.some.inj hfirst).symm

/-- A label that comes again on a way makes a recurrence. -/
theorem exists_of_way {ids : List String} {last : Site} {id : String} (h : Way patterns start ids last)
    (hasked : id ∈ last.2.bases) (hid : id ∈ start.2.label :: ids) :
    ∃ r : Recurrence patterns start, r.chain = start.2.label :: (ids ++ [id]) := by
  rcases List.mem_cons.mp hid with rfl | hid
  · exact ⟨⟨[], start, ids, last, .here start, h, hasked⟩, rfl⟩
  · obtain ⟨before, named, after, rfl, hbefore, hafter, rfl⟩ := h.split hid
    exact ⟨⟨before, named, after, last, hbefore, hafter, hasked⟩, rfl⟩

theorem label_mem (r : Recurrence patterns start) :
    r.named.2.label ∈ start.2.label :: (r.before ++ r.after) := by
  rcases r.toNamed.start_or_found with heq | ⟨hmem, -⟩
  · exact List.mem_cons.mpr (.inl (congrArg (·.2.label) heq))
  · exact List.mem_cons_of_mem _ (List.mem_append_left _ hmem)

end Recurrence

section

variable {patterns : List Pattern} {home i : Nat} {rule base : Rule} {visiting more : List String}
  {sofar : Content} {target : String}

theorem resolveAll_unknown (hv : ¬ visiting.contains target) (hf : findRule? patterns home target = none) :
    resolveAll patterns home rule visiting sofar (target :: more) =
      .error (.unresolvedRule rule.label target) := by
  rw [resolveAll, dif_neg hv]
  split
  · rfl
  · rename_i hsome
    rw [hf] at hsome
    cases hsome

theorem resolveAll_found (hv : ¬ visiting.contains target)
    (hf : findRule? patterns home target = some (i, base)) :
    resolveAll patterns home rule visiting sofar (target :: more) =
      (resolve patterns i base (visiting ++ [target])).bind fun content =>
        resolveAll patterns home rule visiting (sofar.merge content) more := by
  rw [resolveAll, dif_neg hv]
  split
  · rename_i hnone
    rw [hf] at hnone
    cases hnone
  · rename_i hsome
    rw [hf] at hsome
    cases hsome
    cases resolve patterns i base (visiting ++ [target]) <;> rfl

end

/-- From a rule a way leads on to where a label is asked for that has been met, before or on this way. The
labels up to there are `chain`. -/
def MeetsAgain (patterns : List Pattern) (a : Site) (visiting chain : List String) : Prop :=
  ∃ ids last id, Way patterns a ids last ∧ id ∈ last.2.bases ∧ id ∈ visiting ++ ids ∧
    chain = visiting ++ ids ++ [id]

theorem MeetsAgain.behind {patterns : List Pattern} {a b : Site} {id : String} {visiting chain : List String}
    (asked : id ∈ a.2.bases) (found : target? patterns a.1 id = some b)
    (h : MeetsAgain patterns b (visiting ++ [id]) chain) : MeetsAgain patterns a visiting chain := by
  obtain ⟨ids, last, other, hway, hasked, hmet, rfl⟩ := h
  refine ⟨id :: ids, last, other, .onward asked found hway, hasked, ?_, ?_⟩
  · rwa [List.append_assoc, List.singleton_append] at hmet
  · rw [List.append_assoc visiting, List.singleton_append]

/-- What the resolver reports it has met. -/
theorem meetsAgain_of_resolve (patterns : List Pattern) :
    (∀ home rule visiting chain, resolve patterns home rule visiting = .error (.cyclicExtension chain) →
      MeetsAgain patterns (home, rule) visiting chain) ∧
    (∀ home rule visiting sofar targets chain,
      resolveAll patterns home rule visiting sofar targets = .error (.cyclicExtension chain) →
      targets ⊆ rule.bases → MeetsAgain patterns (home, rule) visiting chain) := by
  have h := resolve.mutual_induct patterns
    (fun home rule visiting => ∀ chain,
      resolve patterns home rule visiting = .error (.cyclicExtension chain) →
      MeetsAgain patterns (home, rule) visiting chain)
    (fun home rule visiting sofar targets => ∀ chain,
      resolveAll patterns home rule visiting sofar targets = .error (.cyclicExtension chain) →
      targets ⊆ rule.bases → MeetsAgain patterns (home, rule) visiting chain)
    ?failed ?resolved ?none ?cyclic ?unknown ?baseFailed ?one
  · exact ⟨fun home rule visiting => h.1 home rule visiting,
      fun home rule visiting sofar targets => h.2 home rule visiting sofar targets⟩
  case failed =>
    intro home rule visiting e he ih chain hc
    rw [resolve, he] at hc
    cases hc
    exact ih chain he (List.Subset.refl _)
  case resolved =>
    intro home rule visiting inherited hi ih chain hc
    rw [resolve, hi] at hc
    cases hc
  case none =>
    intro home rule visiting sofar chain hc
    rw [resolveAll] at hc
    cases hc
  case cyclic =>
    intro home rule visiting sofar target more hv chain hc hsub
    rw [resolveAll, dif_pos hv] at hc
    cases hc
    refine ⟨[], (home, rule), target, .here _, hsub List.mem_cons_self, ?_, ?_⟩
    · simpa using hv
    · rw [List.append_nil]
  case unknown =>
    intro home rule visiting sofar target more hv hf chain hc hsub
    rw [resolveAll_unknown hv hf] at hc
    cases hc
  case baseFailed =>
    intro home rule visiting sofar target more hv i base hf e he ih chain hc hsub
    rw [resolveAll_found hv hf, he] at hc
    cases hc
    rw [findRule?_eq_target?] at hf
    exact (ih chain he).behind (hsub List.mem_cons_self) hf
  case one =>
    intro home rule visiting sofar target more hv i base hf inherited hi ihBase ihMore chain hc hsub
    rw [resolveAll_found hv hf, hi] at hc
    exact ihMore chain hc (List.subset_of_cons_subset hsub)

theorem resolve_of_base {patterns : List Pattern} {home : Nat} {rule : Rule} {visiting : List String}
    {sofar content : Content} {targets : List String}
    (h : resolveAll patterns home rule visiting sofar targets = .ok content) :
    ∀ id ∈ targets, id ∉ visiting ∧
      ∀ b, target? patterns home id = some b → ∃ c, resolve patterns b.1 b.2 (visiting ++ [id]) = .ok c := by
  induction targets generalizing sofar with
  | nil => exact List.forall_mem_nil _
  | cons target more ih =>
    obtain ⟨hv, i, base, inherited, hf, hbase, hmore⟩ := resolveAll_cons_eq_ok h
    refine List.forall_mem_cons.mpr ⟨⟨by simpa using hv, ?_⟩, ih hmore⟩
    intro b hb
    rw [findRule?_eq_target?, hb] at hf
    cases hf
    exact ⟨inherited, hbase⟩

/-- Where a rule is resolved, no way from it meets a label again. -/
theorem not_mem_of_resolve {patterns : List Pattern} {a last : Site} {ids visiting : List String}
    {content : Content} (h : resolve patterns a.1 a.2 visiting = .ok content)
    (hway : Way patterns a ids last) : ∀ id ∈ last.2.bases, id ∉ visiting ++ ids := by
  induction hway generalizing visiting content with
  | here a =>
    intro id hid
    obtain ⟨inherited, hall, -⟩ := resolve_eq_ok h
    rw [List.append_nil]
    exact (resolve_of_base hall id hid).1
  | @onward a b c other ids asked found rest ih =>
    obtain ⟨inherited, hall, -⟩ := resolve_eq_ok h
    obtain ⟨-, hbase⟩ := resolve_of_base hall other asked
    obtain ⟨content', hresolve⟩ := hbase b found
    have hrest := ih hresolve
    rwa [List.append_assoc, List.singleton_append] at hrest

/-- The rules that a compilation flattens. -/
def concreteRules (patterns : List Pattern) : List Site := (sites patterns).filter (!·.2.isAbstract)

theorem mem_concreteRules_iff {patterns : List Pattern} {i : Nat} {rule : Rule} :
    (i, rule) ∈ concreteRules patterns ↔
      ∃ p, (p, i) ∈ patterns.zipIdx ∧ rule ∈ p.rules.filter (!·.isAbstract) := by
  unfold concreteRules sites
  simp only [List.mem_filter, List.mem_flatMap, List.mem_map, Prod.mk.injEq, Prod.exists]
  constructor
  · rintro ⟨⟨p, j, hp, r, hr, rfl, rfl⟩, hconcrete⟩
    exact ⟨p, hp, hr, hconcrete⟩
  · rintro ⟨p, hp, hr, hconcrete⟩
    exact ⟨⟨p, i, hp, rule, hr, rfl, rfl⟩, hconcrete⟩

theorem instantiate_ne_cyclic {d : Document} {p : Pattern} {base : String} {chain : List String} :
    instantiate d p base ≠ .error (.cyclicExtension chain) := by
  unfold instantiate
  split
  · simp
  · split <;> simp

/-- Before the rules are flattened no cycle is reported. -/
theorem resolve_of_compile_cyclic {d : Document} {chain : List String}
    (h : compile d = .error (.cyclicExtension chain)) :
    ∃ patterns, concretePatterns d = .ok patterns ∧ ∃ start ∈ concreteRules patterns,
      resolve patterns start.1 start.2 [start.2.label] = .error (.cyclicExtension chain) := by
  unfold compile at h
  split at h
  · cases h
  rcases bind_eq_error_iff.mp h with hids | ⟨-, -, h⟩
  · unfold checkPatternIds at hids
    split at hids <;> cases hids
  rcases bind_eq_error_iff.mp h with hphases | ⟨-, -, h⟩
  · obtain ⟨phase, -, hphase⟩ := exists_of_forM_eq_error hphases
    obtain ⟨id, -, hid⟩ := exists_of_forM_eq_error hphase
    unfold checkActive at hid
    split at hid
    · cases hid
    · split at hid <;> cases hid
  rcases bind_eq_error_iff.mp h with hpatterns | ⟨patterns, hpatterns, h⟩
  · obtain ⟨p, -, hp⟩ := exists_of_mapM_eq_error hpatterns
    split at hp
    · exact absurd hp instantiate_ne_cyclic
    · cases hp
  rcases bind_eq_error_iff.mp h with hflat | ⟨flat, -, h⟩
  · obtain ⟨⟨p, i⟩, hp, hflat⟩ := exists_of_mapM_eq_error hflat
    change flattenPattern patterns i p = _ at hflat
    unfold flattenPattern at hflat
    split at hflat
    · rename_i e he
      cases hflat
      obtain ⟨rule, hrule, hflat⟩ := exists_of_mapM_eq_error he
      refine ⟨patterns, hpatterns, (i, rule), mem_concreteRules_iff.mpr ⟨p, hp, hrule⟩, ?_⟩
      unfold flatten at hflat
      split at hflat
      · rename_i hresolve
        cases hflat
        exact hresolve
      · cases hflat
    · cases hflat
  · cases h

/-- A schema that compiles has its concrete rules resolved. -/
theorem resolve_of_compile {d : Document} {c : Compiled} {patterns : List Pattern}
    (h : compile d = .ok c) (hpatterns : concretePatterns d = .ok patterns) :
    ∀ start ∈ concreteRules patterns, ∃ content,
      resolve patterns start.1 start.2 [start.2.label] = .ok content := by
  rintro ⟨i, rule⟩ hstart
  obtain ⟨p, hp, hrule⟩ := mem_concreteRules_iff.mp hstart
  obtain ⟨-, -, -, others, flat, hothers, hflat, -⟩ := compile_eq_ok_iff.mp h
  rw [hpatterns] at hothers
  cases hothers
  obtain ⟨q, -, hq⟩ := exists_of_forall₂_of_mem (mapM_eq_ok_iff.mp hflat) hp
  change flattenPattern patterns i p = _ at hq
  unfold flattenPattern at hq
  split at hq
  · cases hq
  · rename_i rules hrules
    obtain ⟨r, -, hr⟩ := exists_of_forall₂_of_mem (mapM_eq_ok_iff.mp hrules) hrule
    unfold flatten at hr
    split at hr
    · cases hr
    · rename_i content hcontent
      exact ⟨content, hcontent⟩

/-- A report of a cycle has the labels of a way from a concrete rule to a label that the way has been
through. Either the rule asked for is the one on the way, which then reaches itself, or the label is that of
two rules. Whichever it is, a schema with such a way does not compile. -/
theorem compile_cyclic (d : Document) :
    (∀ chain, compile d = .error (.cyclicExtension chain) →
      ∃ patterns, concretePatterns d = .ok patterns ∧ ∃ start ∈ concreteRules patterns,
        ∃ r : Recurrence patterns start, r.chain = chain ∧
          (r.Genuine ∧ TransGen (Extends patterns) r.named r.named ∨ r.Mistaken)) ∧
    (∀ patterns, concretePatterns d = .ok patterns → ∀ start ∈ concreteRules patterns,
      Recurrence patterns start → ∃ e, compile d = .error e) := by
  refine ⟨?_, ?_⟩
  · intro chain h
    obtain ⟨patterns, hpatterns, start, hstart, hresolve⟩ := resolve_of_compile_cyclic h
    obtain ⟨ids, last, id, hway, hasked, hmet, rfl⟩ :=
      (meetsAgain_of_resolve patterns).1 start.1 start.2 [start.2.label] chain hresolve
    obtain ⟨r, hr⟩ := Recurrence.exists_of_way hway hasked hmet
    refine ⟨patterns, hpatterns, start, hstart, r, hr, ?_⟩
    rcases r.genuine_or_mistaken (List.mem_of_mem_filter hstart) with hgenuine | hmistaken
    · exact .inl ⟨hgenuine, hgenuine.cycle⟩
    · exact .inr hmistaken
  · intro patterns hpatterns start hstart r
    cases hc : compile d with
    | error e => exact ⟨e, rfl⟩
    | ok c =>
      exfalso
      obtain ⟨content, hresolve⟩ := resolve_of_compile hc hpatterns start hstart
      exact not_mem_of_resolve hresolve (r.toNamed.append r.toLast) _ r.asked r.label_mem

private def ruleOf (id : String) (isAbstract : Bool) (bases : List String) : Rule :=
  ⟨some id, if isAbstract then "" else "doc", isAbstract, bases, [], []⟩

private def schemaOf (patterns : List (List Rule)) : Document :=
  { Document.empty with patterns := patterns.map fun rules => ⟨none, none, false, none, [], [], rules⟩ }

/-- `a` and `b` extend each other, and `c` extends `a`. -/
private def mutualBases : Document :=
  schemaOf [[ruleOf "a" true ["b"], ruleOf "b" true ["a"], ruleOf "c" false ["a"]]]

theorem compile_cyclic_mutual :
    compile mutualBases = .error (.cyclicExtension ["c", "a", "b", "a"]) ∧
      ∃ patterns, concretePatterns mutualBases = .ok patterns ∧ ∃ start ∈ concreteRules patterns,
        ∃ r : Recurrence patterns start, r.chain = ["c", "a", "b", "a"] ∧
          (r.Genuine ∧ TransGen (Extends patterns) r.named r.named ∨ r.Mistaken) := by
  have h : compile mutualBases = .error (.cyclicExtension ["c", "a", "b", "a"]) := by cbv
  exact ⟨h, (compile_cyclic mutualBases).1 _ h⟩

/-- The rule `r` of the first pattern extends `s` of the second, which extends the `r` of its own pattern. -/
private def sharedId : Document :=
  schemaOf [[ruleOf "r" false ["s"]], [ruleOf "s" true ["r"], ruleOf "r" true []]]

/-- The place of a rule on the only way of `sharedId`. -/
private def placeOnWay (s : Site) : Nat := if s.2.id = some "s" then 1 else 2 * s.1

/-- A cycle is reported where no rule reaches itself. -/
theorem compile_cyclic_sharedId :
    compile sharedId = .error (.cyclicExtension ["r", "s", "r"]) ∧
      concretePatterns sharedId = .ok sharedId.patterns ∧
      ∀ a, ¬ TransGen (Extends sharedId.patterns) a a := by
  refine ⟨by cbv, rfl, not_cycle_of_rises placeOnWay ?_⟩
  rintro a ha b ⟨id, hid, hb⟩
  have hstep : ∀ a ∈ sites sharedId.patterns, ∀ id ∈ a.2.bases,
      (target? sharedId.patterns a.1 id).all (placeOnWay a < placeOnWay ·) = true := by decide +kernel
  have hall := hstep a ha id hid
  rw [hb] at hall
  simpa using hall

end Schematron.Schema
