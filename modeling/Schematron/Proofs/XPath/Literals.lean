import Schematron.Proofs.XPath.RoundTrip

/-!
String literals and the texts they are quoted as. A quoted string is read back as a literal, or as a call that joins
pieces of it where it has both kinds of quotes, and no rule for doubled quotes makes a difference.
-/

namespace Schematron.XPath

/-- A string may be joined from several literals. -/
structure Expr.Joins (e : Expr) (value : String) (parts : List String) : Prop where
  several : 2 ≤ parts.length
  call : e = .call "concat" (parts.map .literal)
  join : String.join parts = value

namespace Expr

/-- The arguments of the call are the pieces with an apostrophe between any two. -/
theorem rejoined_eq (ps : List String) : rejoined ps = (ps.intersperse "'").map literal := by
  fun_induction rejoined ps with
  | case1 => rfl
  | case2 p => rfl
  | case3 p q more ih =>
    rw [ih]
    rfl

theorem joins_requoted {value : String} (h : HasBothQuotes value) :
    (requoted value).Joins value ((Text.pieces '\'' value).intersperse "'") where
  several := by
    have hpieces : 2 ≤ (Text.pieces '\'' value).length := Text.two_le_length_pieces h.1
    rw [List.length_intersperse]
    omega
  call := by
    have hboth : ¬(!value.toList.contains '\'' || !value.toList.contains '"') = true := by
      simpa [HasBothQuotes] using h
    rw [requoted, if_neg hboth, rejoined_eq]
  join := Text.join_pieces '\'' value

end Expr

/-- A quoted string has the same tokens under both rules, and they are read as `Expr.requoted` says. -/
theorem parseWith_quoteLiteral (rule : QuoteRule) (value : String) :
    parseWith rule (quoteLiteral value) = .ok ⟨Expr.requoted value, false⟩ := by
  have hlex : Lexes rule true (quoteLiteral value).toList (spellLiteral value) := by
    have hall : Lexes rule true _ _ := lexes_spellLiteral value apart_nil (.done rfl)
    rwa [List.append_nil, List.append_nil] at hall
  have hfirst : (spellLiteral value).any (·.isLaterOperator) = false := by
    rw [List.any_eq_false]
    intro t ht
    simpa using List.all_eq_true.mp (first_spellLiteral value) t ht
  have hbare : (Expr.requoted value).subterms.any (·.isSequence) = false :=
    Expr.any_requoted (fun _ => rfl) (fun _ _ => rfl) value
  rw [parseWith_of_reads hlex (Grammar.reads_requoted value).of_primary, hfirst, hbare]
  rfl

/-- Every string that is quoted is read, and read as itself: as a literal or, with both kinds of quotes in it, as
a call that joins two or more literals. Whether a quote may be written twice makes no difference. -/
theorem parse_quoteLiteral (value : String) :
    ∃ e, parse (quoteLiteral value) = .ok ⟨e, false⟩ ∧ parseWith .plain (quoteLiteral value) = .ok ⟨e, false⟩ ∧
      (¬HasBothQuotes value ∧ e = .literal value ∨ HasBothQuotes value ∧ ∃ parts, e.Joins value parts) := by
  refine ⟨Expr.requoted value, parseWith_quoteLiteral .doubled value, parseWith_quoteLiteral .plain value, ?_⟩
  by_cases hboth : HasBothQuotes value
  · exact .inr ⟨hboth, _, Expr.joins_requoted hboth⟩
  · exact .inl ⟨hboth, Expr.requoted_eq hboth⟩

end Schematron.XPath
