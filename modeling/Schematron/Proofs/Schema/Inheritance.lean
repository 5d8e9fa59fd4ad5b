import Mathlib.Logic.Relation
import Schematron.Proofs.Success
import Schematron.Schema.Compiled

/-!
What a rule inherits. A target is looked for in the pattern of the rule that names it, then in all
patterns, and what a rule extends comes before its own content.
-/

namespace Schematron.Schema

open Relation (ReflTransGen TransGen)

/-- A rule and the index of its pattern. -/
abbrev Site := Nat × Rule

/-- All rules, in document order. -/
def sites (patterns : List Pattern) : List Site :=
  patterns.zipIdx.flatMap fun (p, i) => p.rules.map (i, ·)

/-- The rules among which a target is looked for: those of the pattern at `home`, then all. -/
def candidates (patterns : List Pattern) (home : Nat) : List Site :=
  (patterns[home]?.toList.flatMap (·.rules)).map (home, ·) ++ sites patterns

/-- The first candidate of an id. -/
def target? (patterns : List Pattern) (home : Nat) (id : String) : Option Site :=
  (candidates patterns home).find? (·.2.id = some id)

theorem findRule?_eq_target? (patterns : List Pattern) (home : Nat) (id : String) :
    findRule? patterns home id = target? patterns home id := by
  have hhome : (((patterns[home]?.toList.flatMap (·.rules)).map (home, ·)).find?
      fun (s : Site) => s.2.id = some id) = (patterns[home]?.bind (ruleIn? id)).map (home, ·) := by
    rw [List.find?_map]
    cases patterns[home]? with
    | none => rfl
    | some p =>
      rw [Option.toList_some, List.flatMap_singleton]
      rfl
  have hall : ((sites patterns).find? fun s => s.2.id = some id) =
      patterns.zipIdx.findSome? fun (p, i) => (ruleIn? id p).map (i, ·) := by
    simp only [sites, List.find?_flatMap, List.find?_map, ruleIn?, Function.comp_def]
  unfold findRule? target? candidates
  rw [List.find?_append, hhome, hall]
  cases patterns[home]?.bind (ruleIn? id) <;> rfl

/-- `all` is the content of what `targets`, named in the pattern at `home`, stand for: the content of
the first with all it extends before it, then that of the second, and so on. -/
inductive Inherited (patterns : List Pattern) : Nat → List String → Content → Prop where
  | nil (home : Nat) : Inherited patterns home [] ⟨[], []⟩
  | cons {home i : Nat} {id : String} {more : List String} {base : Rule} {above rest : Content}
      (found : target? patterns home id = some (i, base))
      (first : Inherited patterns i base.bases above)
      (others : Inherited patterns home more rest) :
      Inherited patterns home (id :: more)
        ⟨above.lets ++ base.lets ++ rest.lets, above.assertions ++ base.assertions ++ rest.assertions⟩

/-- The last variable of each name. -/
def keepLast : List Let → List Let
  | [] => []
  | l :: rest => if rest.any (·.name = l.name) then keepLast rest else l :: keepLast rest

theorem any_keepLast (n : String) (ls : List Let) :
    ((keepLast ls).any (·.name = n)) = ls.any (·.name = n) := by
  induction ls with
  | nil => rfl
  | cons l rest ih =>
    unfold keepLast
    by_cases h : rest.any (·.name = l.name) = true
    · rw [if_pos h, ih, List.any_cons]
      by_cases hn : l.name = n
      · subst hn
        simp [h]
      · simp [hn]
    · rw [if_neg h, List.any_cons, List.any_cons, ih]

theorem nodup_keepLast (ls : List Let) : ((keepLast ls).map (·.name)).Nodup := by
  induction ls with
  | nil => exact List.nodup_nil
  | cons l rest ih =>
    unfold keepLast
    by_cases h : rest.any (·.name = l.name) = true
    · rw [if_pos h]
      exact ih
    · rw [if_neg h, List.map_cons, List.nodup_cons]
      refine ⟨?_, ih⟩
      intro hmem
      obtain ⟨m, hm, hname⟩ := List.mem_map.mp hmem
      apply h
      rw [← any_keepLast]
      exact List.any_eq_true.mpr ⟨m, hm, by simpa using hname⟩

theorem keepLast_append_keepLast (a b : List Let) : keepLast (a ++ keepLast b) = keepLast (a ++ b) := by
  induction a with
  | nil =>
    induction b with
    | nil => rfl
    | cons l rest ih =>
      by_cases h : rest.any (·.name = l.name) = true
      · simpa [keepLast, h] using ih
      · have hk : ¬ (keepLast rest).any (·.name = l.name) = true := by rwa [any_keepLast]
        simp only [List.nil_append] at ih ⊢
        rw [keepLast, if_neg h, keepLast, if_neg hk, ih]
  | cons l rest ih =>
    have hany : ((rest ++ keepLast b).any (·.name = l.name)) = (rest ++ b).any (·.name = l.name) := by
      rw [List.any_append, List.any_append, any_keepLast]
    simp only [List.cons_append, keepLast, hany, ih]

/-- What comes later drives out what has a name of it. -/
theorem keepLast_append (a b : List Let) :
    keepLast (a ++ b) = (keepLast a).filter (fun l => !b.any (·.name = l.name)) ++ keepLast b := by
  induction a with
  | nil => rfl
  | cons l rest ih =>
    rw [List.cons_append, keepLast, keepLast, List.any_append]
    by_cases hr : rest.any (·.name = l.name) = true
    · simpa [hr] using ih
    · by_cases hb : b.any (·.name = l.name) = true <;> simp [hr, hb, ih]

/-- The variable that comes last drives out the others of its name. -/
theorem keepLast_append_singleton (ls : List Let) (l : Let) :
    keepLast (ls ++ [l]) = (keepLast ls).filter (·.name ≠ l.name) ++ [l] := by
  have hfilter : (keepLast ls).filter (fun m => !([l].any (·.name = m.name))) =
      (keepLast ls).filter (·.name ≠ l.name) :=
    List.filter_congr fun m _ => by simp [eq_comm]
  rw [keepLast_append, hfilter]
  rfl

theorem mergeLets_keepLast (a b : List Let) : mergeLets (keepLast a) b = keepLast (a ++ b) := by
  induction b generalizing a with
  | nil => simp [mergeLets]
  | cons l rest ih =>
    have hstep : mergeLets (keepLast a) (l :: rest) =
        mergeLets ((keepLast a).filter (·.name ≠ l.name) ++ [l]) rest := rfl
    rw [hstep, ← keepLast_append_singleton, ih, List.append_assoc, List.singleton_append]

namespace Content

/-- One content behind the other, with nothing replaced. -/
def append (a b : Content) : Content := ⟨a.lets ++ b.lets, a.assertions ++ b.assertions⟩

/-- The content with the last variable of each name only. -/
def settled (c : Content) : Content := ⟨keepLast c.lets, c.assertions⟩

theorem settled_merge (a b : Content) : a.settled.merge b = (a.append b).settled := by
  simp only [settled, merge, append, mergeLets_keepLast]

theorem settled_merge_settled (a b : Content) : a.settled.merge b.settled = (a.append b).settled := by
  rw [settled_merge]
  simp only [settled, append, keepLast_append_keepLast]

theorem append_assoc (a b c : Content) : (a.append b).append c = a.append (b.append c) := by
  simp only [append, List.append_assoc]

end Content

section

variable {patterns : List Pattern} {home : Nat} {rule : Rule} {visiting : List String} {content : Content}

theorem resolve_eq_ok (h : resolve patterns home rule visiting = .ok content) :
    ∃ inherited, resolveAll patterns home rule visiting .empty rule.bases = .ok inherited ∧
      inherited.merge (.own rule) = content := by
  rw [resolve] at h
  cases hi : resolveAll patterns home rule visiting .empty rule.bases with
  | error e =>
    rw [hi] at h
    cases h
  | ok inherited =>
    rw [hi] at h
    exact ⟨inherited, rfl, Except.ok.inj h⟩

/-- A target that is resolved is known and not on the way to itself. -/
theorem resolveAll_cons_eq_ok {sofar : Content} {target : String} {more : List String}
    (h : resolveAll patterns home rule visiting sofar (target :: more) = .ok content) :
    visiting.contains target = false ∧ ∃ i base inherited,
      findRule? patterns home target = some (i, base) ∧
      resolve patterns i base (visiting ++ [target]) = .ok inherited ∧
      resolveAll patterns home rule visiting (sofar.merge inherited) more = .ok content := by
  rw [resolveAll] at h
  by_cases hv : visiting.contains target = true
  · rw [dif_pos hv] at h
    cases h
  · rw [dif_neg hv] at h
    refine ⟨Bool.eq_false_iff.mpr hv, ?_⟩
    split at h
    · cases h
    · rename_i i base hf
      split at h
      · cases h
      · rename_i inherited hi
        exact ⟨i, base, inherited, hf, hi, h⟩

end

/-- Merging at each level of the recursion amounts to one choice of the last variables at its end. -/
theorem inherited_of_resolve (patterns : List Pattern) :
    (∀ home rule visiting content, resolve patterns home rule visiting = .ok content →
      ∃ all, Inherited patterns home rule.bases all ∧ content = (all.append (.own rule)).settled) ∧
    (∀ home rule visiting sofar targets content,
      resolveAll patterns home rule visiting sofar targets = .ok content →
      ∀ before, sofar = Content.settled before →
      ∃ all, Inherited patterns home targets all ∧ content = (before.append all).settled) := by
  have h := resolve.mutual_induct patterns
    (fun home rule visiting => ∀ content, resolve patterns home rule visiting = .ok content →
      ∃ all, Inherited patterns home rule.bases all ∧ content = (all.append (.own rule)).settled)
    (fun home rule visiting sofar targets => ∀ content,
      resolveAll patterns home rule visiting sofar targets = .ok content →
      ∀ before, sofar = Content.settled before →
      ∃ all, Inherited patterns home targets all ∧ content = (before.append all).settled)
    ?failed ?resolved ?none ?cyclic ?unknown ?baseFailed ?one
  · exact ⟨fun home rule visiting => h.1 home rule visiting,
      fun home rule visiting sofar targets => h.2 home rule visiting sofar targets⟩
  case failed =>
    intro home rule visiting e he _ content hc
    obtain ⟨inherited, hi, -⟩ := resolve_eq_ok hc
    rw [he] at hi
    cases hi
  case resolved =>
    intro home rule visiting inherited hi ih content hc
    obtain ⟨found, hfound, hown⟩ := resolve_eq_ok hc
    obtain ⟨all, hall, heq⟩ := ih found hfound ⟨[], []⟩ rfl
    refine ⟨all, hall, ?_⟩
    rw [← hown, heq, Content.settled_merge]
    rfl
  case none =>
    intro home rule visiting sofar content hc before hb
    rw [resolveAll] at hc
    refine ⟨⟨[], []⟩, .nil home, ?_⟩
    have hs : sofar = content := Except.ok.inj hc
    rw [← hs, hb]
    simp [Content.append]
  case cyclic =>
    intro home rule visiting sofar target more hv content hc
    rw [(resolveAll_cons_eq_ok hc).1] at hv
    cases hv
  case unknown =>
    intro home rule visiting sofar target more _ hf content hc
    obtain ⟨-, i, base, inherited, hfound, -⟩ := resolveAll_cons_eq_ok hc
    rw [hf] at hfound
    cases hfound
  case baseFailed =>
    intro home rule visiting sofar target more _ i base hf e he _ content hc
    obtain ⟨-, _, _, inherited, hfound, hi, -⟩ := resolveAll_cons_eq_ok hc
    rw [hf] at hfound
    cases hfound
    rw [he] at hi
    cases hi
  case one =>
    intro home rule visiting sofar target more _ i base hf inherited hi ihBase ihMore content hc before hb
    obtain ⟨-, _, _, other, hfound, hother, hmore⟩ := resolveAll_cons_eq_ok hc
    rw [hf] at hfound
    cases hfound
    rw [hi] at hother
    cases hother
    obtain ⟨above, habove, hinherited⟩ := ihBase inherited hi
    have hsofar : sofar.merge inherited = (before.append (above.append (.own base))).settled := by
      rw [hb, hinherited, Content.settled_merge_settled]
    obtain ⟨rest, hrest, hcontent⟩ := ihMore content hmore _ hsofar
    rw [findRule?_eq_target?] at hf
    refine ⟨_, .cons hf habove hrest, ?_⟩
    rw [hcontent, Content.append_assoc]
    rfl

/-- One rule names another. -/
def Extends (patterns : List Pattern) (a b : Site) : Prop :=
  ∃ id ∈ a.2.bases, target? patterns a.1 id = some b

/-- Of all that a rule reaches, nothing comes back to itself and every target is known. -/
def Grounded (patterns : List Pattern) (a : Site) : Prop :=
  ∀ b, ReflTransGen (Extends patterns) a b →
    ¬ TransGen (Extends patterns) b b ∧ ∀ id ∈ b.2.bases, (target? patterns b.1 id).isSome

theorem Grounded.of_targets {patterns : List Pattern} {a : Site}
    (h : ∀ id ∈ a.2.bases, ∃ b, target? patterns a.1 id = some b ∧ Grounded patterns b) :
    Grounded patterns a := by
  have hnext (b : Site) (hab : Extends patterns a b) : Grounded patterns b := by
    obtain ⟨id, hid, hb⟩ := hab
    obtain ⟨c, hc, hg⟩ := h id hid
    rw [hb] at hc
    cases hc
    exact hg
  intro c hac
  rcases hac.cases_head with rfl | ⟨b, hab, hbc⟩
  · constructor
    · -- A cycle through `a` would be one through what it names.
      intro hcycle
      obtain ⟨b, hab, hba⟩ := TransGen.head'_iff.mp hcycle
      exact (hnext b hab a hba).1 hcycle
    · intro id hid
      obtain ⟨b, hb, -⟩ := h id hid
      simp [hb]
  · exact hnext b hab c hbc

theorem Inherited.grounded {patterns : List Pattern} {home : Nat} {targets : List String}
    {all : Content} (h : Inherited patterns home targets all) :
    ∀ id ∈ targets, ∃ b, target? patterns home id = some b ∧ Grounded patterns b := by
  induction h with
  | nil => simp
  | @cons home i id more base above rest found first others ihFirst ihOthers =>
    intro other hmem
    rcases List.mem_cons.mp hmem with rfl | hmem
    · exact ⟨(i, base), found, .of_targets ihFirst⟩
    · exact ihOthers other hmem

/-- `flat` is `rule`, of the pattern at `home`, with all it inherits written out. -/
structure Flattens (patterns : List Pattern) (home : Nat) (rule flat : Rule) : Prop where
  content : ∃ all, Inherited patterns home rule.bases all ∧
    flat = { rule with
      isAbstract := false
      bases := []
      lets := keepLast (all.lets ++ rule.lets)
      assertions := all.assertions ++ rule.assertions }
  names : (flat.lets.map (·.name)).Nodup
  grounded : Grounded patterns (home, rule)

theorem flattens_of_flatten {patterns : List Pattern} {home : Nat} {rule flat : Rule}
    (h : flatten patterns home rule = .ok flat) : Flattens patterns home rule flat := by
  unfold flatten at h
  cases hr : resolve patterns home rule [rule.label] with
  | error e => simp [hr] at h
  | ok content =>
    obtain ⟨all, hall, rfl⟩ := (inherited_of_resolve patterns).1 _ _ _ _ hr
    simp only [hr, Except.ok.injEq] at h
    subst h
    exact ⟨⟨all, hall, rfl⟩, nodup_keepLast _, .of_targets hall.grounded⟩

theorem flattenPattern_rules {patterns : List Pattern} {home : Nat} {p q : Pattern}
    (h : flattenPattern patterns home p = .ok q) :
    List.Forall₂ (Flattens patterns home) (p.rules.filter (!·.isAbstract)) q.rules := by
  unfold flattenPattern at h
  cases hm : (p.rules.filter (!·.isAbstract)).mapM (flatten patterns home) with
  | error e => simp [hm] at h
  | ok rules =>
    simp only [hm, Except.ok.injEq] at h
    subst h
    exact (mapM_eq_ok_iff.mp hm).imp fun _ _ => flattens_of_flatten

/-- The stages of a compilation that succeeds. -/
theorem compile_eq_ok_iff {d : Document} {c : Compiled} :
    compile d = .ok c ↔
      Query.Language.ofBinding? d.queryBinding = some c.language ∧ checkPatternIds d = .ok () ∧
        checkPhases d = .ok () ∧ ∃ patterns flat, concretePatterns d = .ok patterns ∧
          (patterns.zipIdx.mapM fun (p, i) => flattenPattern patterns i p) = .ok flat ∧
          c.document = { d with patterns := flat } := by
  unfold compile
  cases Query.Language.ofBinding? d.queryBinding with
  | none => simp
  | some found =>
    simp only [bind_eq_ok_iff, Option.some.injEq]
    constructor
    · rintro ⟨⟨⟩, hids, ⟨⟩, hphases, patterns, hpatterns, flat, hflat, ⟨⟩⟩
      exact ⟨rfl, hids, hphases, patterns, flat, hpatterns, hflat, rfl⟩
    · rintro ⟨rfl, hids, hphases, patterns, flat, hpatterns, hflat, hdocument⟩
      refine ⟨⟨⟩, hids, ⟨⟩, hphases, patterns, hpatterns, flat, hflat, ?_⟩
      rw [← hdocument]
      rfl

/-- Where a schema compiles, what relates a rule to each form it is flattened to relates the rules of the
schema to those of the compiled one. -/
theorem rules_of_compile {R : List Pattern → Nat → Rule → Rule → Prop} {d : Document} {c : Compiled}
    (hR : ∀ {patterns home rule flat}, Flattens patterns home rule flat → R patterns home rule flat)
    (h : compile d = .ok c) :
    ∃ patterns, concretePatterns d = .ok patterns ∧
      List.Forall₂
        (fun (p : Pattern × Nat) q =>
          List.Forall₂ (R patterns p.2) (p.1.rules.filter (!·.isAbstract)) q.rules)
        patterns.zipIdx c.document.patterns := by
  obtain ⟨-, -, -, patterns, flat, hp, hm, hd⟩ := compile_eq_ok_iff.mp h
  refine ⟨patterns, hp, ?_⟩
  rw [hd]
  exact (mapM_eq_ok_iff.mp hm).imp fun _ _ hflat => (flattenPattern_rules hflat).imp fun _ _ => hR

/-- A schema that compiles has its rules flattened: each holds what it inherits, base first and depth
first, with the last variable of each name, and nothing it reaches is cyclic or unknown. So a concrete
rule from which a cycle or an unknown target can be reached keeps the schema from compiling. That
`compile` ends on every document is what its definition as a function says: the rule ids not yet on
the way decrease with each rule that `resolve` enters. -/
theorem compile_ok_flattens (d : Document) :
    (∀ c, compile d = .ok c → ∃ patterns, concretePatterns d = .ok patterns ∧
      List.Forall₂
        (fun (p : Pattern × Nat) q =>
          List.Forall₂ (Flattens patterns p.2) (p.1.rules.filter (!·.isAbstract)) q.rules)
        patterns.zipIdx c.document.patterns) ∧
    (∀ patterns, concretePatterns d = .ok patterns →
      ∀ p i, (p, i) ∈ patterns.zipIdx → ∀ rule ∈ p.rules, rule.isAbstract = false →
      ∀ b, ReflTransGen (Extends patterns) (i, rule) b →
      TransGen (Extends patterns) b b ∨ (∃ id ∈ b.2.bases, target? patterns b.1 id = none) →
      ∃ e, compile d = .error e) := by
  have hok := fun c (hc : compile d = .ok c) => rules_of_compile (R := Flattens) id hc
  refine ⟨hok, ?_⟩
  intro patterns hp p i hmem rule hrule hconcrete b hreach hbad
  cases hc : compile d with
  | error e => exact ⟨e, rfl⟩
  | ok c =>
    exfalso
    obtain ⟨others, hothers, hall⟩ := hok c hc
    rw [hp] at hothers
    cases hothers
    obtain ⟨q, -, hq⟩ := exists_of_forall₂_of_mem hall hmem
    obtain ⟨flat, -, hflat⟩ := exists_of_forall₂_of_mem hq (List.mem_filter.mpr ⟨hrule, by simp [hconcrete]⟩)
    obtain ⟨hacyclic, hknown⟩ := hflat.grounded b hreach
    rcases hbad with hcycle | ⟨id, hid, hnone⟩
    · exact hacyclic hcycle
    · have hsome := hknown id hid
      rw [hnone] at hsome
      cases hsome

/-- Rule `a` extends `b` and `c`, one of each pattern, and both of these extend `d`. -/
private def diamond : Document :=
  let rule (id : String) (isAbstract : Bool) (bases : List String) (lets : List Let) : Rule :=
    ⟨some id, if isAbstract then "" else "*", isAbstract, bases, lets, []⟩
  let pattern (rules : List Rule) : Pattern := ⟨none, none, false, none, [], [], rules⟩
  { Document.empty with
    patterns := [
      pattern [rule "a" false ["b", "c"] [⟨"x", "3"⟩], rule "b" true ["d"] [⟨"y", "2"⟩]],
      pattern [rule "c" true ["d"] [], rule "d" true [] [⟨"x", "0"⟩, ⟨"z", "1"⟩]]] }

theorem compile_ok_flattens_diamond :
    ∃ c, compile diamond = .ok c ∧
      (c.document.patterns.map fun p => p.rules.map (·.lets)) =
        [[[⟨"y", "2"⟩, ⟨"z", "1"⟩, ⟨"x", "3"⟩]], []] ∧
      ∃ patterns, concretePatterns diamond = .ok patterns ∧
        List.Forall₂
          (fun (p : Pattern × Nat) q =>
            List.Forall₂ (Flattens patterns p.2) (p.1.rules.filter (!·.isAbstract)) q.rules)
          patterns.zipIdx c.document.patterns := by
  have h : ((compile diamond).map fun c => c.document.patterns.map fun p => p.rules.map (·.lets)) =
      .ok [[[⟨"y", "2"⟩, ⟨"z", "1"⟩, ⟨"x", "3"⟩]], []] := by cbv
  cases hc : compile diamond with
  | error e =>
    rw [hc] at h
    cases h
  | ok c =>
    rw [hc] at h
    exact ⟨c, rfl, Except.ok.inj h, (compile_ok_flattens diamond).1 c hc⟩

end Schematron.Schema
