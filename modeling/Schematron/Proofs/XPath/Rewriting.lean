import Schematron.Proofs.XPath.Clashes
import Schematron.Proofs.XPath.Exposure
import Schematron.Proofs.XPath.Trimming

/-!
An expression in the first version of the language, taken into it once more.
-/

namespace Schematron.XPath

open Schematron.XPath.Expr (compared)

namespace Expr

variable {comparisons : Bool}

theorem isNumeric_compared (e : Expr) : (compared comparisons e).isNumeric = e.isNumeric := by
  induction e using partsInduction with
  | h e ih =>
    cases e
    case negate a | group a => exact ih a List.mem_cons_self
    case binary op a b =>
      rw [compared]
      split <;> rfl
    all_goals rfl

/-- Replaced comparisons compare with a number. -/
theorem isLater_compared_self (e : Expr) : (compared true e).isLater true = (compared true e).isSequence := by
  cases e
  case binary op a b =>
    cases hc : needsCompare op a b with
    | true =>
      rw [compared_needed true hc]
      simp [isLater, needsCompare, isNumeric, isSequence]
    | false =>
      rw [compared_binary true hc, isLater, needsCompare, isNumeric_compared, isNumeric_compared]
      exact hc
  all_goals rfl

theorem isLater_compared (e : Expr) : ∀ x ∈ (compared true e).subterms, x.isLater true = x.isSequence :=
  forall_mem_subterms_compared (fun x _ => isLater_compared_self x) (fun _ => rfl) rfl

end Expr

/-- A text with the tokens of an expression is read just where all in the expression is legible. -/
theorem parse_iff_legible {text : String} {ts : List Token} {e : Expr}
    (hlex : Lexes .doubled true text.toList (spell e)) (hreads : Grammar.Reads (.expr .or) ts e) :
    (∃ p, parse text = .ok p) ↔ ∀ x ∈ e.subterms, x.Legible := by
  refine ⟨fun ⟨p, hp⟩ x hx => ?_, fun h => ⟨_, parse_of_legible hlex hreads h⟩⟩
  obtain ⟨us, hlex', hreads'⟩ := reads_of_parse hp
  obtain rfl := hlex.unique hlex'
  exact Grammar.legible_of_reads_spell hreads' hx

/-- The first version of an expression is its own first version, unless a text that was printed is not
legible or has a comparison that lost its number to a bar. -/
theorem firstVersion_again_iff {source : String} {r : FirstVersion} (h : firstVersion source = .ok r) :
    ∃ p, parse source = .ok p ∧
      (firstVersion r.text = .ok ⟨r.text, false⟩ ↔
        (r.changed = true → ∀ x ∈ (compared true p.expr).subterms, x.Legible ∧ x.Settled)) := by
  obtain ⟨p, hparse, ⟨-, rfl⟩ | ⟨hfirst, rfl⟩⟩ := firstVersion_eq_ok h
  · have hlex : Lexes .doubled true _ _ := lexes_emit hparse true
    obtain ⟨ts, -, hreads⟩ := reads_of_parse hparse
    obtain ⟨us, hcompared⟩ := hreads.compared true
    have hlegible := parse_iff_legible hlex hcompared
    -- what is printed is settled just where what is read back says nothing in a later way
    have hsettled (hall : ∀ x ∈ (compared true p.expr).subterms, x.Legible) :
        saysMore true (compared true p.expr).reread = false ↔
          ∀ x ∈ (compared true p.expr).subterms, x.Settled := by
      rw [Grammar.saysMore_reread hcompared hall (Expr.isLater_compared p.expr), List.any_eq_false]
      simp only [Bool.not_eq_true, Expr.Settled]
    refine ⟨p, hparse, fun hagain _ => ?_, fun hall => ?_⟩
    · obtain ⟨p', hparse', ⟨-, hr⟩ | ⟨hfirst, -⟩⟩ := firstVersion_eq_ok hagain
      · cases congrArg FirstVersion.changed hr
      · have hall := hlegible.mp ⟨p', hparse'⟩
        have hp' := hparse'.symm.trans (parse_of_legible hlex hcompared hall)
        rw [Except.ok.inj hp', Bool.false_or] at hfirst
        exact fun x hx => ⟨hall x hx, (hsettled hall).mp hfirst x hx⟩
    · have hboth := hall rfl
      have hall : ∀ x ∈ (compared true p.expr).subterms, x.Legible := fun x hx => (hboth x hx).1
      have hnone := (hsettled hall).mpr fun x hx => (hboth x hx).2
      rw [firstVersion_of_parse (parse_of_legible hlex hcompared hall), Parsed.firstVersion, hnone,
        trim_emit hparse]
      rfl
  · refine ⟨p, hparse, fun _ hchanged => absurd hchanged Bool.false_ne_true, fun _ => ?_⟩
    rw [firstVersion_of_parse (parse_trim hparse), Parsed.firstVersion, hfirst, Text.trim_trim]
    rfl

section

open Grammar

/-- The tree of `@name`. -/
private def attributeRef (name : String) : Expr := .relative [⟨.attributes, nameTest name, []⟩]

private theorem reads_attributeRef {l : Level} (name : String) (hl : l.rank ≤ Level.path.rank) :
    Reads (.expr l) [.atSign, .nameTest name] (attributeRef name) :=
  (Reads.attributeNamed name).loosen hl

theorem firstVersion_again_twoAttributes :
    firstVersion "(@a, @b)" = .ok ⟨"(@a | @b)", true⟩ ∧
      (∀ x ∈ (compared true (.sequence [attributeRef "a", attributeRef "b"])).subterms,
        x.Legible ∧ x.Settled) ∧
      firstVersion "(@a | @b)" = .ok ⟨"(@a | @b)", false⟩ := by
  have hlex : Lexes .doubled true "(@a, @b)".toList
      [.lparen, .atSign, .nameTest "a", .comma, .atSign, .nameTest "b", .rparen] := by
    iterate 7 refine .more rfl rfl ?_
    exact .done rfl
  have hitems := Reads.item (reads_attributeRef "a" (by decide))
    (.lastItem (reads_attributeRef "b" (by decide)))
  have hparse := parse_of_reads hlex (Reads.sequence (.arguments hitems) (by decide)).of_primary
  have hall : ∀ x ∈ (compared true (.sequence [attributeRef "a", attributeRef "b"])).subterms,
      x.Legible ∧ x.Settled := by
    decide
  have hfirst := firstVersion_of_parse hparse
  obtain ⟨p, hp, hagain⟩ := firstVersion_again_iff hfirst
  cases hparse.symm.trans hp
  exact ⟨hfirst, hall, hagain.mpr fun _ => hall⟩

/-- The bar takes the number of the comparison before it, so the comparison is replaced again. -/
theorem firstVersion_again_exposed :
    firstVersion "(@a < @b, @c)" = .ok ⟨"(rewrite-compare(@a, @b) < 0 | @c)", true⟩ ∧
      firstVersion "(rewrite-compare(@a, @b) < 0 | @c)" =
        .ok ⟨"(rewrite-compare(rewrite-compare(@a, @b), 0 | @c) < 0)", true⟩ := by
  have hlex : Lexes .doubled true "(@a < @b, @c)".toList
      [.lparen, .atSign, .nameTest "a", .lt, .atSign, .nameTest "b", .comma, .atSign, .nameTest "c",
        .rparen] := by
    iterate 10 refine .more rfl rfl ?_
    exact .done rfl
  have hlt := Reads.binary (l := .relational) (t := .lt) rfl (reads_attributeRef "a" (by decide))
    (reads_attributeRef "b" (by decide))
  have hitems := Reads.item hlt.loosest (.lastItem (reads_attributeRef "c" (by decide)))
  have hread : Reads (.expr .or) _ _ := (Reads.sequence (.arguments hitems) (by decide)).of_primary
  have hparse := parse_of_reads hlex hread
  obtain ⟨ts, hcompared⟩ := hread.compared true
  have hagain := parse_of_legible (lexes_emit hparse true) hcompared (by decide)
  -- the zero is an operand of the union now
  have hreread : (compared true
        (.sequence [.binary .lt (attributeRef "a") (attributeRef "b"), attributeRef "c"])).reread =
      .group (.binary .lt (.call compareFunction [attributeRef "a", attributeRef "b"])
        (.union (.number "0") (attributeRef "c"))) := by
    show Expr.group (Expr.barred (.binary .lt _ (.number "0")) (attributeRef "c")) = _
    simp only [attributeRef, Expr.barred]
    rfl
  rw [hreread] at hagain
  exact ⟨firstVersion_of_parse hparse, firstVersion_of_parse hagain⟩

end

end Schematron.XPath
