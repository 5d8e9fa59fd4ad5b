import Schematron.Proofs.XPath.Anchoring
import Schematron.Proofs.XPath.Rewriting

/-!
The texts of compiled expressions and contexts, read again.
-/

namespace Schematron.Query

open Schematron.XPath
open Schematron.XPath.Expr (compared)
open Schematron.XPath.Grammar (Reads)

/-- The part of a parsed source that is compiled: a context is anchored. -/
def Role.selection : Role → Expr → Expr
  | .expression, e => e
  | .context, e => anchor e

/-- The text of a compiled source is its own, without the white space around it, or printed. -/
theorem compileAs_eq_ok {language : Language} {role : Role} {source : String} {q : Compiled}
    (h : compileAs language role source = .ok q) :
    ∃ p, parse source = .ok p ∧
      (q.changed = true ∧ q.text = emit (language == .xpath2) (role.selection p.expr) ∨
        q.changed = false ∧ q.text = Text.trim source) := by
  cases role with
  | expression =>
    simp only [compileAs, compile] at h
    cases hparse : parse source with
    | error e =>
      rw [hparse] at h
      cases h
    | ok p =>
      rw [hparse] at h
      cases h
      refine ⟨p, rfl, ?_⟩
      by_cases hlanguage : language = .xpath2
      · subst hlanguage
        simp only [if_true, Parsed.firstVersion]
        split
        · exact .inl ⟨rfl, rfl⟩
        · exact .inr ⟨rfl, rfl⟩
      · rw [if_neg hlanguage]
        exact .inr ⟨rfl, rfl⟩
  | context =>
    obtain ⟨p, hparse, ⟨-, hkept⟩ | ⟨-, hchanged, htext, -⟩⟩ := compilePattern_eq_ok h
    · exact ⟨p, hparse, .inr hkept⟩
    · exact ⟨p, hparse, .inl ⟨hchanged, htext⟩⟩

section

variable {source : String} {p : Parsed} (h : parse source = .ok p) (role : Role) (comparisons : Bool)

include h

theorem lexes_selection :
    Lexes .doubled true (emit comparisons (role.selection p.expr)).toList
      (spell (compared comparisons (role.selection p.expr))) := by
  cases role with
  | expression => exact lexes_emit h comparisons
  | context => exact lexes_anchor h comparisons

theorem reads_selection : ∃ us, Reads (.expr .or) us (compared comparisons (role.selection p.expr)) := by
  obtain ⟨ts, -, hreads⟩ := reads_of_parse h
  cases role with
  | expression => exact hreads.compared comparisons
  | context =>
    obtain ⟨us, hanchor⟩ := hreads.anchor
    exact hanchor.compared comparisons

end

/-- The text of a compiled source is accepted again, unless it was printed from an expression that is
not legible. -/
theorem compileAs_accepted_iff {language : Language} {role : Role} {source : String} {q : Compiled}
    (h : compileAs language role source = .ok q) :
    ∃ p, parse source = .ok p ∧
      ((∃ p', parse q.text = .ok p') ↔
        (q.changed = true →
          ∀ x ∈ (compared (language == .xpath2) (role.selection p.expr)).subterms, x.Legible)) := by
  obtain ⟨p, hparse, ⟨hchanged, htext⟩ | ⟨hchanged, htext⟩⟩ := compileAs_eq_ok h
  · obtain ⟨us, hreads⟩ := reads_selection hparse role (language == .xpath2)
    have hlegible := parse_iff_legible (lexes_selection hparse role (language == .xpath2)) hreads
    rw [htext]
    exact ⟨p, hparse, fun haccepted _ => hlegible.mp haccepted, fun hall => hlegible.mpr (hall hchanged)⟩
  · rw [htext]
    exact ⟨p, hparse, fun _ hprinted => absurd (hchanged.symm.trans hprinted) Bool.false_ne_true,
      fun _ => ⟨p, parse_trim hparse⟩⟩

theorem compileAs_accepted_descendants :
    compileAs .xslt .context "a" = .ok ⟨"a", "//a", true, [], false, none⟩ ∧
      (∀ x ∈ (compared false (.absolute [.descendantOrSelf, .bare .child (.name "a")])).subterms, x.Legible) ∧
      ∃ p, parse "//a" = .ok p := by
  have hlex : Lexes .doubled true "a".toList [.nameTest "a"] := .more rfl rfl (.done rfl)
  have hread : Reads (.expr .path) [.nameTest "a"] (.relative [.bare .child (.name "a")]) :=
    .relative (.lastStep (.tested .none (.name "a") .noPredicates))
  have hparse := parse_of_reads hlex hread.loosest
  have hcompiled : compileAs .xslt .context "a" = .ok ⟨"a", "//a", true, [], false, none⟩ := by
    rw [compileAs, compilePattern, hparse]
    rfl
  have hall : ∀ x ∈ (compared false (.absolute [.descendantOrSelf, .bare .child (.name "a")])).subterms,
      x.Legible := by
    decide
  obtain ⟨p, hp, haccepted⟩ := compileAs_accepted_iff hcompiled
  cases hparse.symm.trans hp
  exact ⟨hcompiled, hall, haccepted.mpr fun _ => hall⟩

/-- The gap that a context begins with is folded into the one before it, which leaves three slashes. -/
theorem compileAs_accepted_threeSlashes :
    compileAs .xpath .context "descendant-or-self::node()/b" =
        .ok ⟨"descendant-or-self::node()/b", "///b", true, [], false, none⟩ ∧
      ¬∃ p, parse "///b" = .ok p := by
  have hlex : Lexes .doubled true "descendant-or-self::node()/b".toList
      [.axisName "descendant-or-self", .colonColon, .nodeType "node", .lparen, .rparen, .slash,
        .nameTest "b"] := by
    iterate 7 refine .more rfl rfl ?_
    exact .done rfl
  have hgap : Reads .step [.axisName "descendant-or-self", .colonColon, .nodeType "node", .lparen, .rparen]
      .descendantOrSelf :=
    .tested (.named rfl) (.type rfl) .noPredicates
  have hread : Reads (.expr .path) _ (.relative [.descendantOrSelf, .bare .child (.name "b")]) :=
    .relative (.joined hgap (t := .slash) rfl (.lastStep (.tested .none (.name "b") .noPredicates)))
  have hparse := parse_of_reads hlex hread.loosest
  have hcompiled : compileAs .xpath .context "descendant-or-self::node()/b" =
      .ok ⟨"descendant-or-self::node()/b", "///b", true, [], false, none⟩ := by
    rw [compileAs, compilePattern, hparse]
    rfl
  refine ⟨hcompiled, fun haccepted => ?_⟩
  obtain ⟨ts, hreads⟩ := reads_selection hparse .context false
  have hlegible := (parse_iff_legible (lexes_selection hparse .context false) hreads).mp haccepted
  exact absurd hlegible (by decide)

end Schematron.Query
