import Mathlib.Data.List.Induction
import Schematron.Proofs.XPath.Anchoring
import Schematron.Proofs.XPath.Derivation

/-!
The variables of an expression, in its tree, in its tokens and in the texts printed of it.
-/

namespace Schematron.XPath

open Schematron.XPath.Expr (compared comparedAll comparedSteps)

/-- The name of a variable. -/
def Token.variable? : Token → Option String
  | variableName name => some name
  | _ => none

/-- The variables among tokens, each as often as it stands there. -/
def variablesIn (ts : List Token) : List String := ts.filterMap Token.variable?

@[simp]
theorem variablesIn_nil : variablesIn [] = [] := rfl

@[simp]
theorem variablesIn_append (ts us : List Token) :
    variablesIn (ts ++ us) = variablesIn ts ++ variablesIn us :=
  List.filterMap_append

@[simp]
theorem variablesIn_cons (t : Token) (ts : List Token) :
    variablesIn (t :: ts) = t.variable?.toList ++ variablesIn ts := by
  cases h : t.variable? <;> simp [variablesIn, h]

namespace Expr

/-- Of names that are added one by one, each stays where it came first. -/
theorem firsts_eq_eraseDups (names : List String) : firsts names = names.eraseDups := by
  induction names using List.reverseRecOn with
  | nil => rfl
  | append_singleton names n ih =>
    have hstep : firsts (names ++ [n]) =
        if (firsts names).contains n then firsts names else firsts names ++ [n] := by
      rw [firsts, List.foldl_append]
      rfl
    rw [hstep, ih, List.eraseDups_append]
    have hsingle : [n].eraseDups = [n] := rfl
    by_cases hn : n ∈ names <;> simp [hn, hsingle, List.removeAll]

/-- The variables in an expression, each as often as it is used. -/
def uses (e : Expr) : List String := e.subterms.filterMap asVariable

theorem variableNames_eq (e : Expr) : e.variableNames = e.uses.eraseDups := firsts_eq_eraseDups e.uses

theorem uses_eq (e : Expr) : e.uses = e.asVariable.toList ++ e.parts.flatMap uses := by
  rw [uses, subterms_eq, List.filterMap_cons, List.filterMap_flatMap]
  cases e.asVariable <;> rfl

/-- The comparisons that are replaced keep their operands, in order. -/
theorem uses_compared (comparisons : Bool) (e : Expr) : (compared comparisons e).uses = e.uses := by
  induction e using partsInduction with
  | h e ih =>
    have hparts : (e.parts.map (compared comparisons)).flatMap uses = e.parts.flatMap uses := by
      rw [List.flatMap_map]
      exact List.flatMap_congr ih
    rcases parts_compared comparisons e with heq | ⟨op, a, b, rfl, hc⟩
    · have hself : (compared comparisons e).asVariable = e.asVariable := by
        cases e
        case binary op a b =>
          rw [compared]
          split <;> rfl
        all_goals rfl
      rw [uses_eq, heq, hparts, hself, ← uses_eq]
    · rw [compared_needed comparisons hc]
      simpa [uses_eq, parts, asVariable] using hparts

mutual
theorem uses_anchor : (e : Expr) → (anchor e).uses = e.uses
  | union a b => by
    rw [anchor, uses_eq, uses_eq (union a b)]
    simp [parts, asVariable, uses_anchor a, uses_anchor b]
  | group a => by
    rw [anchor, uses_eq, uses_eq (group a)]
    simp [parts, asVariable, uses_anchor a]
  | sequence items => by
    rw [anchor, uses_eq, uses_eq (sequence items)]
    simp [parts, asVariable, uses_anchorAll items]
  | relative steps => by
    -- the step in front has no predicates
    rw [anchor, uses_eq, uses_eq (relative steps)]
    rfl
  | literal _ | number _ | variableRef _ | call _ _ | negate _ | binary _ _ _ | filter _ _ | absolute _
  | continued _ _ => rfl

theorem uses_anchorAll : (es : List Expr) → (anchorAll es).flatMap uses = es.flatMap uses
  | [] => rfl
  | e :: es => by rw [anchorAll, List.flatMap_cons, List.flatMap_cons, uses_anchor e, uses_anchorAll es]
end

end Expr

namespace Grammar

theorem variable?_eq_none {l : Level} {t : Token} {join : Expr → Expr → Expr}
    (h : l.operator t = some join) : t.variable? = none := by
  cases t
  case variableName => cases l <;> cases h
  all_goals rfl

theorem AxisReads.variablesIn_eq {ts : List Token} {a : Axis} (h : AxisReads ts a) :
    variablesIn ts = [] := by
  cases h <;> rfl

theorem TestReads.variablesIn_eq {ts : List Token} {test : NodeTest} (h : TestReads ts test) :
    variablesIn ts = [] := by
  cases h <;> rfl

theorem variable?_of_stepOp {t : Token} {between : List (Step Expr)} (h : stepOp t = some between) :
    t.variable? = none ∧ between.flatMap (·.predicates) = [] := by
  rcases stepOp_eq_some h with ⟨rfl, rfl⟩ | ⟨rfl, rfl⟩ <;> exact ⟨rfl, rfl⟩

/-- The variables among the tokens of a part are those of its expressions. -/
theorem Reads.variablesIn_eq {k : Part} {ts : List Token} {x : k.Tree} (h : Reads k ts x) :
    variablesIn ts = (k.exprs x).flatMap Expr.uses := by
  induction h with
  | tighter _ ih | arguments _ ih | lastItem _ ih => exact ih
  | binary hop _ _ left right =>
    have ht := variable?_eq_none hop
    rcases Level.join_eq hop with ⟨-, rfl⟩ | ⟨op, rfl, -⟩ <;>
      simp [Part.exprs, Expr.uses_eq (.union _ _), Expr.uses_eq (.binary _ _ _), Expr.parts,
        Expr.asVariable, left, right, ht]
  | negate _ ih =>
    simp [Part.exprs, Expr.uses_eq (.negate _), Expr.parts, Expr.asVariable, ih, Token.variable?]
  | group _ ih => simp [Part.exprs, Expr.uses_eq (.group _), Expr.parts, Expr.asVariable, ih, Token.variable?]
  | call _ _ ih =>
    simp [Part.exprs, Expr.uses_eq (.call _ _), Expr.parts, Expr.asVariable, ih, Token.variable?]
  | sequence _ _ ih =>
    simp [Part.exprs, Expr.uses_eq (.sequence _), Expr.parts, Expr.asVariable, ih, Token.variable?]
  | absolute ht _ ih =>
    obtain ⟨htoken, hnone⟩ := variable?_of_stepOp ht
    simp [Part.exprs, Expr.uses_eq (.absolute _), Expr.parts, Expr.asVariable, ih, htoken, hnone]
  | relative _ ih => simp [Part.exprs, Expr.uses_eq (.relative _), Expr.parts, Expr.asVariable, ih]
  | continued _ ht _ start ih =>
    obtain ⟨htoken, hnone⟩ := variable?_of_stepOp ht
    simp [Part.exprs, Expr.uses_eq (.continued _ _), Expr.parts, Expr.asVariable, start, ih, htoken, hnone]
  | filter _ _ _ ih hp =>
    simp [Part.exprs, Expr.uses_eq (.filter _ _), Expr.parts, Expr.asVariable, ih, hp]
  | variableRef | root | literal | number | noArguments | self | parent | noPredicates => rfl
  | lastStep _ ih => simp [Part.exprs, ih]
  | joined _ ht _ ih more =>
    obtain ⟨htoken, hnone⟩ := variable?_of_stepOp ht
    simp [Part.exprs, ih, more, htoken, hnone]
  | tested ha ht _ ih => simp [Part.exprs, ih, ha.variablesIn_eq, ht.variablesIn_eq]
  | item _ _ ih more | predicate _ _ ih more => simp [Part.exprs, ih, more, Token.variable?]

end Grammar

theorem variablesIn_spellPieces (ps : List String) : variablesIn (spellPieces ps) = [] := by
  fun_induction spellPieces ps with
  | case1 => rfl
  | case2 => rfl
  | case3 p q more ih => simp [ih, Token.variable?]

theorem variablesIn_spellLiteral (value : String) : variablesIn (spellLiteral value) = [] := by
  unfold spellLiteral
  split
  · rfl
  · simp [variablesIn_spellPieces, Token.variable?]

theorem variablesIn_slashes (n : Nat) : variablesIn (slashes n) = [] := by
  fun_induction slashes n with
  | case1 => rfl
  | case2 => rfl
  | case3 n ih => simp [ih, Token.variable?]

theorem variablesIn_tokens (test : NodeTest) : variablesIn test.tokens = [] := by
  cases test
  case instruction target =>
    cases target with
    | none => rfl
    | some value => simp [NodeTest.tokens, variablesIn_spellLiteral, Token.variable?]
  all_goals rfl

theorem variablesIn_spellHead (a : Axis) (test : NodeTest) (bare : Bool) :
    variablesIn (spellHead a test bare) = [] := by
  have htest := variablesIn_tokens test
  unfold spellHead
  split
  · split <;> rfl
  · split <;> rfl
  all_goals simp [htest, Token.variable?]

mutual
theorem variablesIn_spell : (e : Expr) → variablesIn (spell e) = e.uses
  | .literal value => variablesIn_spellLiteral value
  | .number _ | .variableRef _ => rfl
  | .call name args => by
    rw [Expr.uses_eq]
    simp [spell, Expr.parts, Expr.asVariable, variablesIn_spellAll .comma rfl args, Token.variable?]
  | .negate e => by
    rw [Expr.uses_eq]
    simp [spell, Expr.parts, Expr.asVariable, variablesIn_spell e, Token.variable?]
  | .binary op a b => by
    have hop : op.token.variable? = none := by cases op <;> rfl
    rw [Expr.uses_eq]
    simp [spell, Expr.parts, Expr.asVariable, variablesIn_spell a, variablesIn_spell b, hop]
  | .union a b => by
    rw [Expr.uses_eq]
    simp [spell, Expr.parts, Expr.asVariable, variablesIn_spell a, variablesIn_spell b, Token.variable?]
  | .group e => by
    rw [Expr.uses_eq]
    simp [spell, Expr.parts, Expr.asVariable, variablesIn_spell e, Token.variable?]
  | .sequence [] => rfl
  | .sequence (e :: es) => by
    rw [Expr.uses_eq]
    simp [spell, Expr.parts, Expr.asVariable, variablesIn_spell e, variablesIn_spellMore .pipe rfl es,
      Token.variable?]
  | .filter e preds => by
    rw [Expr.uses_eq]
    simp [spell, Expr.parts, Expr.asVariable, variablesIn_spell e, variablesIn_spellPredicates preds]
  | .absolute steps => by
    rw [Expr.uses_eq]
    simp [spell, Expr.parts, Expr.asVariable, variablesIn_spellSteps 1 steps]
  | .relative steps => by
    rw [Expr.uses_eq]
    simp [spell, Expr.parts, Expr.asVariable, variablesIn_spellSteps 0 steps]
  | .continued e steps => by
    rw [Expr.uses_eq]
    simp [spell, Expr.parts, Expr.asVariable, variablesIn_spell e, variablesIn_spellSteps 1 steps]

theorem variablesIn_spellAll (sep : Token) (h : sep.variable? = none) :
    (es : List Expr) → variablesIn (spellAll sep es) = es.flatMap Expr.uses
  | [] => rfl
  | e :: es => by simp [spellAll, variablesIn_spell e, variablesIn_spellMore sep h es]

theorem variablesIn_spellMore (sep : Token) (h : sep.variable? = none) :
    (es : List Expr) → variablesIn (spellMore sep es) = es.flatMap Expr.uses
  | [] => rfl
  | e :: es => by simp [spellMore, h, variablesIn_spell e, variablesIn_spellMore sep h es]

theorem variablesIn_spellPredicates :
    (es : List Expr) → variablesIn (spellPredicates es) = es.flatMap Expr.uses
  | [] => rfl
  | e :: es => by simp [spellPredicates, variablesIn_spell e, variablesIn_spellPredicates es, Token.variable?]

theorem variablesIn_spellSteps (pending : Nat) : (ss : List (Step Expr)) →
    variablesIn (spellSteps pending ss) = (ss.flatMap (·.predicates)).flatMap Expr.uses
  | [] => variablesIn_slashes pending
  | ⟨axis, test, preds⟩ :: ss => by
    rw [spellSteps]
    split
    · -- a gap of a double slash has no predicates
      rename_i hgap
      simp only [Bool.and_eq_true, Step.isDescendantOrSelf, List.isEmpty_iff] at hgap
      simp [variablesIn_spellSteps (pending + 1) ss, hgap.2.2]
    · cases ss with
      | nil => simp [variablesIn_slashes, variablesIn_spellHead, variablesIn_spellPredicates preds]
      | cons s ss =>
        simp [variablesIn_slashes, variablesIn_spellHead, variablesIn_spellPredicates preds,
          variablesIn_spellSteps 1 (s :: ss)]
end

theorem tokenize_of_lexes {text : String} {e : Expr} {comparisons : Bool}
    (h : Lexes .doubled true text.toList (spell (compared comparisons e))) :
    ∃ found, tokenize text = .ok found ∧ variablesIn (found.map (·.token)) = e.uses := by
  obtain ⟨found, hfound, htokens⟩ := tokenizeWith_of_lexes h
  exact ⟨found, hfound, by rw [htokens, variablesIn_spell, Expr.uses_compared]⟩

/-- The texts printed of a source, as it is and anchored, have tokens, and the variables of the source as
often and in the order in which it uses them. The names that the tree tells of, as it is and anchored,
are these, each once and where it comes first. -/
theorem variables_of_parse {source : String} {p : Parsed} (h : parse source = .ok p) (comparisons : Bool) :
    ∃ found printed selected, tokenize source = .ok found ∧
      tokenize (emit comparisons p.expr) = .ok printed ∧
      tokenize (emit comparisons (anchor p.expr)) = .ok selected ∧
      variablesIn (printed.map (·.token)) = variablesIn (found.map (·.token)) ∧
      variablesIn (selected.map (·.token)) = variablesIn (found.map (·.token)) ∧
      p.expr.variableNames = (variablesIn (found.map (·.token))).eraseDups ∧
      (anchor p.expr).variableNames = (variablesIn (found.map (·.token))).eraseDups := by
  obtain ⟨ts, hlex, hreads⟩ := reads_of_parse h
  obtain ⟨found, hfound, rfl⟩ := tokenizeWith_of_lexes hlex
  obtain ⟨printed, hprinted, husesPrinted⟩ := tokenize_of_lexes (lexes_emit h comparisons)
  obtain ⟨selected, hselected, husesSelected⟩ := tokenize_of_lexes (lexes_anchor h comparisons)
  have huses : variablesIn (found.map (·.token)) = p.expr.uses := by
    rw [hreads.variablesIn_eq, Grammar.Part.exprs, List.flatMap_singleton]
  rw [Expr.uses_anchor] at husesSelected
  refine ⟨found, printed, selected, hfound, hprinted, hselected, husesPrinted.trans huses.symm,
    husesSelected.trans huses.symm, ?_, ?_⟩
  · rw [Expr.variableNames_eq, huses]
  · rw [Expr.variableNames_eq, Expr.uses_anchor, huses]

/-- The tree of `a[$b < @c] | ($a, $b)`. -/
private def repeatedUses : Expr :=
  .union
    (.relative [⟨.child, .name "a",
      [.binary .lt (.variableRef "b") (.relative [.bare .attributes (.name "c")])]⟩])
    (.sequence [.variableRef "a", .variableRef "b"])

open Grammar in
theorem variables_of_parse_repeated :
    parse "a[$b < @c] | ($a, $b)" = .ok ⟨repeatedUses, true⟩ ∧
      ∃ found printed selected, tokenize "a[$b < @c] | ($a, $b)" = .ok found ∧
        tokenize "a[rewrite-compare($b, @c) < 0] | ($a | $b)" = .ok printed ∧
        tokenize "//a[rewrite-compare($b, @c) < 0] | ($a | $b)" = .ok selected ∧
        variablesIn (found.map (·.token)) = ["b", "a", "b"] ∧
        variablesIn (printed.map (·.token)) = ["b", "a", "b"] ∧
        variablesIn (selected.map (·.token)) = ["b", "a", "b"] ∧
        repeatedUses.variableNames = ["b", "a"] ∧ (anchor repeatedUses).variableNames = ["b", "a"] := by
  have hlex : Lexes .doubled true "a[$b < @c] | ($a, $b)".toList
      [.nameTest "a", .lbracket, .variableName "b", .lt, .atSign, .nameTest "c", .rbracket, .pipe, .lparen,
        .variableName "a", .comma, .variableName "b", .rparen] := by
    iterate 13 refine .more rfl rfl ?_
    exact .done rfl
  have hlt := Reads.binary (l := .relational) (t := .lt) rfl (Reads.variableRef "b").of_primary
    ((Reads.attributeNamed "c").loosen (by decide))
  have ha := Reads.childNamed "a" (.predicate hlt.loosest .noPredicates)
  have hitems := Reads.item (Reads.variableRef "a").of_primary
    (.lastItem (Reads.variableRef "b").of_primary)
  have hsequence := Reads.sequence (.arguments hitems) (by decide)
  have hunion := Reads.binary (l := .union) (t := .pipe) rfl (ha.loosen (by decide)) hsequence.of_primary
  have hparse : parse "a[$b < @c] | ($a, $b)" = .ok ⟨repeatedUses, true⟩ := parse_of_reads hlex hunion.loosest
  obtain ⟨found, printed, selected, hfound, hprinted, hselected, hvariables⟩ := variables_of_parse hparse true
  obtain ⟨spanned, hspanned, htokens⟩ := tokenizeWith_of_lexes hlex
  cases hfound.symm.trans hspanned
  rw [htokens] at hvariables
  obtain ⟨hp, hs, he, ha⟩ := hvariables
  exact ⟨hparse, found, printed, selected, hfound, hprinted, hselected, by rw [htokens]; rfl, hp, hs, he, ha⟩

end Schematron.XPath
