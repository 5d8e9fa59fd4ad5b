import Schematron.Proofs.Schema.Inheritance
import Schematron.Proofs.XPath.RoundTrip

/-!
What the variables that a rule inherits see of each other. A variable that is defined again stands at
its later place, behind those that speak of it.
-/

namespace Schematron.Schema

open Schematron.XPath (parse)

/-- The names of the variables that the value of a variable speaks of. -/
def Let.references (l : Let) : List String :=
  match parse l.value with
  | .ok p => p.expr.variableNames
  | .error _ => []

theorem references_of_parse {l : Let} {p : XPath.Parsed} (h : parse l.value = .ok p) :
    l.references = p.expr.variableNames := by
  rw [Let.references, h]

/-- A variable that speaks of an earlier one, and is the last of its own name, finds the name before it
in the rule that `rule` is flattened to just where nothing from it on is of that name. -/
def Scoped (patterns : List Pattern) (home : Nat) (rule flat : Rule) : Prop :=
  ∃ all, Inherited patterns home rule.bases all ∧
    ∀ earlier l later, all.lets ++ rule.lets = earlier ++ l :: later →
      l.name ∉ later.map (·.name) → ∀ n ∈ l.references, n ∈ earlier.map (·.name) →
        ∃ before after, flat.lets = before ++ l :: after ∧
          (n ∈ before.map (·.name) ↔ n ∉ (l :: later).map (·.name))

theorem any_name_eq (n : String) (ls : List Let) : ls.any (·.name = n) = true ↔ n ∈ ls.map (·.name) := by
  simp [List.any_eq_true, List.mem_map]

theorem mem_names_keepLast {n : String} {ls : List Let} :
    n ∈ (keepLast ls).map (·.name) ↔ n ∈ ls.map (·.name) := by
  rw [← any_name_eq, any_keepLast, any_name_eq]

/-- The place of a variable that is the last of its name. -/
theorem keepLast_append_cons (earlier : List Let) {later : List Let} {l : Let} (h : l.name ∉ later.map (·.name)) :
    keepLast (earlier ++ l :: later) =
      (keepLast earlier).filter (fun m => !(l :: later).any (·.name = m.name)) ++ l :: keepLast later := by
  rw [keepLast_append, keepLast, if_neg (by rwa [any_name_eq])]

theorem mem_names_filter {n : String} {earlier others : List Let} (h : n ∈ earlier.map (·.name)) :
    n ∈ ((keepLast earlier).filter fun m => !others.any (·.name = m.name)).map (·.name) ↔
      n ∉ others.map (·.name) := by
  simp only [List.mem_map, List.mem_filter, Bool.not_eq_true', ← Bool.not_eq_true, any_name_eq]
  refine ⟨?_, fun hn => ?_⟩
  · rintro ⟨m, ⟨-, hm⟩, rfl⟩
    simpa only [List.mem_map] using hm
  · obtain ⟨m, hm, rfl⟩ := List.mem_map.mp (mem_names_keepLast.mpr h)
    exact ⟨m, ⟨hm, by simpa only [List.mem_map] using hn⟩, rfl⟩

theorem Flattens.scoped {patterns : List Pattern} {home : Nat} {rule flat : Rule}
    (h : Flattens patterns home rule flat) : Scoped patterns home rule flat := by
  obtain ⟨all, hall, rfl⟩ := h.content
  refine ⟨all, hall, fun earlier l later heq hlast n _ hn => ?_⟩
  have hplace := keepLast_append_cons earlier hlast
  rw [← heq] at hplace
  exact ⟨_, _, hplace, mem_names_filter hn⟩

/-- In a schema that compiles the variables of a rule see what they saw in the rules it extends, but for
the names that are defined again. -/
theorem compile_ok_scoped {d : Document} {c : Compiled} (h : compile d = .ok c) :
    ∃ patterns, concretePatterns d = .ok patterns ∧
      List.Forall₂
        (fun (p : Pattern × Nat) q =>
          List.Forall₂ (Scoped patterns p.2) (p.1.rules.filter (!·.isAbstract)) q.rules)
        patterns.zipIdx c.document.patterns :=
  rules_of_compile Flattens.scoped h

/-- A rule with variables of its own extends one where `b` speaks of `a`. -/
private def extending (own : List Let) : Document :=
  let base : Rule := ⟨some "base", "", true, [], [⟨"a", "1"⟩, ⟨"b", "$a"⟩], []⟩
  { Document.empty with
    patterns := [⟨none, none, false, none, [], [], [base, ⟨some "derived", "doc", false, ["base"], own, []⟩]⟩] }

theorem compile_ok_scoped_kept :
    ∃ c, compile (extending [⟨"c", "3"⟩]) = .ok c ∧
      (c.document.patterns.map fun p => p.rules.map (·.lets)) =
        [[[⟨"a", "1"⟩, ⟨"b", "$a"⟩, ⟨"c", "3"⟩]]] ∧
      ∃ patterns, concretePatterns (extending [⟨"c", "3"⟩]) = .ok patterns ∧
        List.Forall₂
          (fun (p : Pattern × Nat) q =>
            List.Forall₂ (Scoped patterns p.2) (p.1.rules.filter (!·.isAbstract)) q.rules)
          patterns.zipIdx c.document.patterns := by
  have h : ((compile (extending [⟨"c", "3"⟩])).map fun c => c.document.patterns.map fun p =>
      p.rules.map (·.lets)) = .ok [[[⟨"a", "1"⟩, ⟨"b", "$a"⟩, ⟨"c", "3"⟩]]] := by cbv
  cases hc : compile (extending [⟨"c", "3"⟩]) with
  | error e =>
    rw [hc] at h
    cases h
  | ok c =>
    rw [hc] at h
    exact ⟨c, rfl, Except.ok.inj h, compile_ok_scoped hc⟩

/-- The sequence of all variables is `a`, `b`, `a`: in the flattened rule no `a` is left before `b`. -/
theorem compile_ok_scoped_overridden :
    ((compile (extending [⟨"a", "10"⟩])).map fun c => c.document.patterns.map fun p =>
        p.rules.map (·.lets)) = .ok [[[⟨"b", "$a"⟩, ⟨"a", "10"⟩]]] ∧
      Inherited (extending [⟨"a", "10"⟩]).patterns 0 ["base"] ⟨[⟨"a", "1"⟩, ⟨"b", "$a"⟩], []⟩ ∧
      Let.references ⟨"b", "$a"⟩ = ["a"] ∧
      ¬∃ before after, [⟨"b", "$a"⟩, ⟨"a", "10"⟩] = before ++ (⟨"b", "$a"⟩ : Let) :: after ∧
        "a" ∈ before.map (·.name) := by
  have hlex : XPath.Lexes .doubled true "$a".toList [.variableName "a"] := .more rfl rfl (.done rfl)
  have hparse := XPath.parse_of_reads hlex (XPath.Grammar.Reads.variableRef "a").of_primary
  have hreferences : Let.references ⟨"b", "$a"⟩ = ["a"] :=
    (references_of_parse (l := ⟨"b", "$a"⟩) hparse).trans (by decide)
  have hbase : target? (extending [⟨"a", "10"⟩]).patterns 0 "base" =
      some (0, ⟨some "base", "", true, [], [⟨"a", "1"⟩, ⟨"b", "$a"⟩], []⟩) := rfl
  have hinherited := Inherited.cons hbase (.nil 0) (.nil 0)
  refine ⟨by cbv, hinherited, hreferences, ?_⟩
  rintro ⟨before, after, heq, ha⟩
  rcases before with _ | ⟨_, _ | ⟨_, _⟩⟩
  · cases ha
  · simp at heq
  · simp at heq

end Schematron.Schema
