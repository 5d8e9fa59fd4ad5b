import Schematron.Proofs.XPath.Trimming

/-!
The tokens of an expression in the first version of the language, where no quote can be written twice.
-/

namespace Schematron.XPath

open Schematron.Text (isBlank skipBlanks)

def isQuote (c : Char) : Bool := c = '\'' || c = '"'

/-- A literal has its own quote written twice in it. `within` is the quote of a literal that is not
closed yet. -/
def doublesQuote (within : Option Char) : List Char → Bool
  | [] => false
  | c :: rest =>
    match within with
    | none => doublesQuote (if isQuote c then some c else none) rest
    | some quote =>
      if c = quote then rest.head? == some quote || doublesQuote none rest else doublesQuote within rest

theorem doublesQuote_append {cs : List Char} (h : ∀ c ∈ cs, isQuote c = false) (rest : List Char) :
    doublesQuote none (cs ++ rest) = doublesQuote none rest := by
  induction cs with
  | nil => rfl
  | cons c cs ih =>
    obtain ⟨hc, hcs⟩ := List.forall_mem_cons.mp h
    rw [List.cons_append, doublesQuote, hc]
    exact ih hcs

theorem isQuote_cases {c : Char} (h : isQuote c = true) : c = '\'' ∨ c = '"' := by
  simpa only [isQuote, Bool.or_eq_true, decide_eq_true_eq] using h

theorem quotes_stop {c : Char} (h : isQuote c = true) :
    isNameChar c = false ∧ c.isDigit = false ∧ isBlank c = false ∧ c ∉ signStarts := by
  have hquotes : ∀ q ∈ ['\'', '"'],
      isNameChar q = false ∧ q.isDigit = false ∧ isBlank q = false ∧ q ∉ signStarts :=
    forall_of_all (by decide)
  exact hquotes c (by simpa using isQuote_cases h)

theorem isQuote_eq_false_of {p : Char → Bool} (hp : ∀ c, isQuote c = true → p c = false) {c : Char}
    (h : p c = true) : isQuote c = false := by
  cases hc : isQuote c with
  | false => rfl
  | true =>
    rw [hp c hc] at h
    cases h

theorem isQuote_eq_false_of_isNameChar {c : Char} (h : isNameChar c = true) : isQuote c = false :=
  isQuote_eq_false_of (fun _ hq => (quotes_stop hq).1) h

theorem isQuote_eq_false_of_isDigit {c : Char} (h : c.isDigit = true) : isQuote c = false :=
  isQuote_eq_false_of (fun _ hq => (quotes_stop hq).2.1) h

theorem doublesQuote_skipBlanks (cs : List Char) : doublesQuote none (skipBlanks cs) = doublesQuote none cs := by
  have hblanks : ∀ c ∈ cs.takeWhile isBlank, isQuote c = false := fun c hc =>
    isQuote_eq_false_of (fun _ hq => (quotes_stop hq).2.2.1) (List.mem_takeWhile_imp hc)
  have hall := doublesQuote_append hblanks (cs.dropWhile isBlank)
  rwa [List.takeWhile_append_dropWhile, eq_comm] at hall

/-- What is read of a text has no quotes. -/
structure Quoteless (cs : List Char) (found : List Char × List Char) : Prop where
  whole : found.1 ++ found.2 = cs
  bare : ∀ c ∈ found.1, isQuote c = false

theorem Quoteless.doublesQuote_eq {cs : List Char} {found : List Char × List Char} (h : Quoteless cs found) :
    doublesQuote none cs = doublesQuote none found.2 := by
  rw [← h.whole]
  exact doublesQuote_append h.bare found.2

theorem quoteless_readName (cs : List Char) : Quoteless cs (readName cs) :=
  ⟨List.takeWhile_append_dropWhile, fun _ hc => isQuote_eq_false_of_isNameChar (List.mem_takeWhile_imp hc)⟩

theorem quoteless_readQName (cs : List Char) : Quoteless cs (readQName cs) := by
  obtain ⟨hwhole, hbare⟩ := quoteless_readName cs
  unfold readQName
  split
  rename_i first after hr
  rw [hr] at hwhole hbare
  split
  · rename_i c more
    split
    · have hsecond := quoteless_readName (c :: more)
      refine ⟨?_, List.forall_mem_append.mpr ⟨hbare, List.forall_mem_cons.mpr ⟨rfl, hsecond.bare⟩⟩⟩
      simp only [List.append_assoc, List.cons_append, hsecond.whole]
      exact hwhole
    · exact ⟨hwhole, hbare⟩
  · exact ⟨hwhole, hbare⟩

theorem quoteless_readNumber (cs : List Char) : Quoteless cs (readNumber cs) := by
  have hdigits : ∀ ds : List Char, ∀ c ∈ ds.takeWhile Char.isDigit, isQuote c = false := fun ds c hc =>
    isQuote_eq_false_of_isDigit (List.mem_takeWhile_imp hc)
  have hwhole := List.takeWhile_append_dropWhile (p := Char.isDigit) (l := cs)
  unfold readNumber
  split
  · rename_i hm
    exact ⟨by rw [← hm, hwhole], hdigits cs⟩
  · rename_i rest _ hm
    refine ⟨?_, List.forall_mem_append.mpr ⟨hdigits cs, List.forall_mem_cons.mpr ⟨rfl, hdigits rest⟩⟩⟩
    simp only [List.append_assoc, List.cons_append, List.takeWhile_append_dropWhile]
    rw [← hm, hwhole]
  · exact ⟨hwhole, hdigits cs⟩

theorem doublesQuote_nameLexeme (operand : Bool) (cs : List Char) :
    doublesQuote none (nameLexeme operand cs).2 = doublesQuote none cs := by
  have hname := (quoteless_readName cs).doublesQuote_eq
  have hqname := (quoteless_readQName cs).doublesQuote_eq
  unfold nameLexeme
  split
  rename_i first after hr
  rw [hr] at hname
  split
  · exact hname.symm
  · split
    · rename_i rest
      have hsigns : ∀ c ∈ [':', '*'], isQuote c = false := forall_of_all (by decide)
      exact (hname.trans (doublesQuote_append hsigns rest)).symm
    · exact hqname.symm

section

variable {rule : QuoteRule} {operand : Bool} {c : Char} {rest after : List Char} {t : Token}

/-- Tokens that are no literals have no quotes in them. -/
theorem doublesQuote_lexeme (hc : isQuote c = false) (h : lexeme rule operand c rest = .ok (t, after)) :
    doublesQuote none (c :: rest) = doublesQuote none after := by
  have hskip : doublesQuote none (c :: rest) = doublesQuote none rest :=
    doublesQuote_append (List.forall_mem_singleton.mpr hc) rest
  unfold lexeme at h
  split at h
  · cases h
    exact (quoteless_readNumber _).doublesQuote_eq
  split at h
  · cases h
    exact hskip
  split at h
  · rename_i hquote
    rcases hquote with rfl | rfl <;> cases hc
  split at h
  · split at h
    · split at h
      · cases h
        exact hskip.trans (quoteless_readQName _).doublesQuote_eq
      · cases h
    · cases h
  split at h
  · have hname := doublesQuote_nameLexeme operand (c :: rest)
    rw [Except.ok.inj h] at hname
    exact hname.symm
  split at h
  · rename_i found hfound
    cases h
    obtain ⟨spelling, hmem, heq⟩ := signLexeme_eq hfound
    have hsign : ∀ d ∈ spelling, isQuote d = false := by
      intro d hd
      cases hquote : isQuote d with
      | false => rfl
      | true => exact absurd (signs_of_signStarts _ hmem d hd) (quotes_stop hquote).2.2.2
    rw [heq]
    exact doublesQuote_append hsign after
  · cases h

theorem lexeme_plain (hc : isQuote c = false) :
    lexeme .plain operand c rest = lexeme .doubled operand c rest := by
  have hne : ¬(c = '\'' ∨ c = '"') := by
    rintro (rfl | rfl) <;> cases hc
  unfold lexeme
  rw [if_neg hne, if_neg hne]

theorem lexeme_quote (hc : isQuote c = true) (rule : QuoteRule) (operand : Bool) (rest : List Char) :
    lexeme rule operand c rest =
      match closeLiteral rule c rest with
      | some (value, after) => .ok (.literal (String.ofList value), after)
      | none => .error .unterminatedLiteral := by
  rcases isQuote_cases hc with rfl | rfl <;> rfl

end

section

variable {quote : Char} {cs v w after last : List Char}

/-- Without quotes that are written twice a literal ends at the first quote. -/
theorem closeLiteral_plain (h : closeLiteral .plain quote cs = some (v, after)) :
    doublesQuote (some quote) cs = (after.head? == some quote || doublesQuote none after) ∧ quote ∉ v := by
  fun_induction closeLiteral .plain quote cs generalizing v with
  | case1 => cases h
  | case2 =>
    cases h
    simp [doublesQuote]
  | case3 => cases h
  | case4 _ _ hdoubled => cases hdoubled.1
  | case5 d rest =>
    cases h
    simp [doublesQuote]
  | case6 c d rest hc ih =>
    obtain ⟨⟨x, y⟩, hxy, heq⟩ := Option.map_eq_some_iff.mp h
    cases heq
    obtain ⟨hdoubles, hquote⟩ := ih hxy
    rw [doublesQuote]
    simp only [hc, if_false, hdoubles]
    exact ⟨trivial, List.not_mem_cons_of_ne_of_not_mem (Ne.symm hc) hquote⟩

/-- A literal behind which its quote comes again goes on where the quote may be written twice. -/
theorem closeLiteral_doubled (h : closeLiteral .plain quote cs = some (v, after)) :
    (after.head? ≠ some quote → closeLiteral .doubled quote cs = some (v, after)) ∧
      (after.head? = some quote →
        ∀ w last, closeLiteral .doubled quote cs = some (w, last) → quote ∈ w) := by
  fun_induction closeLiteral .plain quote cs generalizing v with
  | case1 => cases h
  | case2 =>
    cases h
    simp [closeLiteral]
  | case3 => cases h
  | case4 _ _ hdoubled => cases hdoubled.1
  | case5 d rest =>
    cases h
    refine ⟨fun hne => ?_, fun heq w last hw => ?_⟩
    · have hd : d ≠ quote := by simpa using hne
      simp [closeLiteral, hd]
    · have hd : d = quote := by simpa using heq
      rw [closeLiteral, if_pos rfl, if_pos ⟨rfl, hd⟩] at hw
      obtain ⟨⟨x, y⟩, -, hxy⟩ := Option.map_eq_some_iff.mp hw
      cases hxy
      exact List.mem_cons_self
  | case6 c d rest hc ih =>
    obtain ⟨⟨x, y⟩, hxy, heq⟩ := Option.map_eq_some_iff.mp h
    cases heq
    obtain ⟨hends, hgoes⟩ := ih hxy
    rw [closeLiteral, if_neg hc]
    refine ⟨fun hne => by rw [hends hne]; rfl, fun heq w last hw => ?_⟩
    obtain ⟨⟨x', y'⟩, hxy', heq'⟩ := Option.map_eq_some_iff.mp hw
    cases heq'
    exact List.mem_cons_of_mem _ (hgoes heq _ _ hxy')

theorem closeLiteral_doubled_none (h : closeLiteral .plain quote cs = none) :
    closeLiteral .doubled quote cs = none := by
  fun_induction closeLiteral .plain quote cs with
  | case1 => rfl
  | case2 => cases h
  | case3 c hc => rw [closeLiteral, if_neg hc]
  | case4 _ _ hdoubled => cases hdoubled.1
  | case5 => cases h
  | case6 c d rest hc ih => rw [closeLiteral, if_neg hc, ih (Option.map_eq_none_iff.mp h)]; rfl

end

section

variable {operand : Bool} {c : Char} {rest after after' : List Char} {t : Token}

/-- Where no quote is written twice both rules find the same token. -/
theorem lexeme_plain_eq (h : doublesQuote none (c :: rest) = false) :
    lexeme .plain operand c rest = lexeme .doubled operand c rest := by
  cases hc : isQuote c with
  | false => exact lexeme_plain hc
  | true =>
    rw [doublesQuote, hc] at h
    rw [lexeme_quote hc, lexeme_quote hc]
    cases hplain : closeLiteral .plain c rest with
    | none => rw [closeLiteral_doubled_none hplain]
    | some found =>
      obtain ⟨v, after⟩ := found
      have hhead := (closeLiteral_plain hplain).1.symm.trans h
      rw [Bool.or_eq_false_iff, beq_eq_false_iff_ne] at hhead
      rw [(closeLiteral_doubled hplain).1 hhead.1]

/-- What follows a token that both rules find. -/
theorem doublesQuote_of_lexeme_eq (hplain : lexeme .plain operand c rest = .ok (t, after))
    (hdoubled : lexeme .doubled operand c rest = .ok (t, after')) :
    after = after' ∧ doublesQuote none (c :: rest) = doublesQuote none after := by
  cases hc : isQuote c with
  | false =>
    have heq := hplain.symm.trans ((lexeme_plain hc).trans hdoubled)
    cases heq
    exact ⟨rfl, doublesQuote_lexeme hc hplain⟩
  | true =>
    rw [lexeme_quote hc] at hplain hdoubled
    split at hplain
    · rename_i v last hv
      cases hplain
      split at hdoubled
      · rename_i w last' hw
        obtain ⟨htoken, rfl⟩ := Prod.mk.inj (Except.ok.inj hdoubled)
        obtain ⟨hdoubles, hquote⟩ := closeLiteral_plain hv
        obtain ⟨hends, hgoes⟩ := closeLiteral_doubled hv
        have hvalue : w = v := String.ofList_injective (Token.literal.inj htoken)
        -- a value that went on behind the first quote would hold the quote
        have hne : after.head? ≠ some c := fun heq => hquote (hvalue ▸ hgoes heq w last' hw)
        rw [hends hne] at hw
        cases hw
        rw [doublesQuote, hc]
        refine ⟨rfl, ?_⟩
        rw [← beq_eq_false_iff_ne] at hne
        simpa [hne] using hdoubles
      · cases hdoubled
    · cases hplain

theorem scan_plain_eq (total : Nat) {cs : List Char} (h : doublesQuote none cs = false) :
    scan .plain total operand cs = scan .doubled total operand cs := by
  induction hn : cs.length using Nat.strongRecOn generalizing cs operand with
  | ind n ih =>
    rw [← doublesQuote_skipBlanks] at h
    cases hc : skipBlanks cs with
    | nil => rw [scan_nil hc, scan_nil hc]
    | cons c rest =>
      rw [hc] at h
      have heq : lexeme .plain operand c rest = lexeme .doubled operand c rest := lexeme_plain_eq h
      -- both rules leave the same text behind the token, with no quote doubled in it either
      cases hl : lexeme .doubled operand c rest with
      | error cause => rw [scan_error hc hl, scan_error hc (heq.trans hl)]
      | ok found =>
        obtain ⟨t, after⟩ := found
        obtain ⟨-, hdoubles⟩ := doublesQuote_of_lexeme_eq (heq.trans hl) hl
        have hskip := Text.length_skipBlanks_le cs
        have hafter := lexeme_length hl
        rw [hc, List.length_cons] at hskip
        rw [scan_ok hc hl, scan_ok hc (heq.trans hl), ih after.length (by omega) (hdoubles.symm.trans h) rfl]

theorem doublesQuote_of_lexes {cs : List Char} {ts : List Token} (hdoubled : Lexes .doubled operand cs ts)
    (hplain : Lexes .plain operand cs ts) : doublesQuote none cs = false := by
  induction hdoubled with
  | done h => rw [← doublesQuote_skipBlanks, h]; rfl
  | more h hl _ ih =>
    cases hplain with
    | more h' hl' hm' =>
      rw [h] at h'
      cases h'
      obtain ⟨rfl, hdoubles⟩ := doublesQuote_of_lexeme_eq hl' hl
      rw [← doublesQuote_skipBlanks, h, hdoubles]
      exact ih hm'

end

/-- A text has the same tokens under both rules just where it writes no quote twice. -/
theorem tokenizeWith_plain_iff {source : String} {found : List Spanned} (h : tokenize source = .ok found) :
    tokenizeWith .plain source = .ok found ↔ doublesQuote none source.toList = false := by
  refine ⟨fun hplain => ?_, fun hdoubles => ?_⟩
  · exact doublesQuote_of_lexes (lexes_of_tokenizeWith h) (lexes_of_tokenizeWith hplain)
  · rw [← h, tokenize, tokenizeWith, tokenizeWith, scan_plain_eq _ hdoubles]

/-- The tokens of an expression in the first version of the language: no operator in them is a later
one, and a text that is printed writes no quote twice. -/
theorem firstVersion_tokens {source : String} {r : FirstVersion} (h : firstVersion source = .ok r) :
    ∃ found, tokenize r.text = .ok found ∧ (∀ t ∈ found, t.token.isLaterOperator = false) ∧
      (tokenizeWith .plain r.text = .ok found ↔
        (r.changed = false → doublesQuote none r.text.toList = false)) := by
  obtain ⟨p, hparse, ⟨-, rfl⟩ | ⟨hfirst, rfl⟩⟩ := firstVersion_eq_ok h
  · have hdoubled : Lexes .doubled true _ _ := lexes_emit hparse true
    obtain ⟨found, hfound, hts⟩ := tokenizeWith_of_lexes hdoubled
    have hquotes := doublesQuote_of_lexes hdoubled (lexes_emit hparse true)
    refine ⟨found, hfound, fun t ht => ?_, fun _ _ => hquotes, fun _ => (tokenizeWith_plain_iff hfound).mpr hquotes⟩
    have hmem : t.token ∈ spell (Expr.compared true p.expr) := hts ▸ List.mem_map_of_mem ht
    simpa using List.all_eq_true.mp (first_spell _) _ hmem
  · obtain ⟨ts, hlex, hreads⟩ := reads_of_parse hparse
    obtain ⟨found, hfound, hts⟩ := tokenizeWith_of_lexes hlex.trim
    have hp := hparse.symm.trans (parse_of_reads hlex hreads)
    rw [Except.ok.inj hp] at hfirst
    obtain ⟨hlater, -⟩ := Bool.or_eq_false_iff.mp hfirst
    refine ⟨found, hfound, fun t ht => ?_, fun hplain _ => (tokenizeWith_plain_iff hfound).mp hplain,
      fun hquotes => (tokenizeWith_plain_iff hfound).mpr (hquotes rfl)⟩
    have hmem : t.token ∈ ts := hts ▸ List.mem_map_of_mem ht
    simpa using List.any_eq_false.mp (Bool.or_eq_false_iff.mp hlater).1 _ hmem

open Grammar in
theorem firstVersion_tokens_valueComparison :
    firstVersion "@a eq 'b'" = .ok ⟨"@a = 'b'", true⟩ ∧
      ∃ found, tokenize "@a = 'b'" = .ok found ∧ (∀ t ∈ found, t.token.isLaterOperator = false) ∧
        tokenizeWith .plain "@a = 'b'" = .ok found := by
  have hlex : Lexes .doubled true "@a eq 'b'".toList
      [.atSign, .nameTest "a", .operatorName "eq", .literal "b"] := by
    iterate 4 refine .more rfl rfl ?_
    exact .done rfl
  have ha : Reads (.expr .path) [.atSign, .nameTest "a"] (.relative [.bare .attributes (.name "a")]) :=
    .relative (.lastStep (.tested .atSign (.name "a") .noPredicates))
  have heq := Reads.binary (l := .equality) (t := .operatorName "eq") rfl (ha.loosen (by decide))
    (Reads.literal "b").of_primary
  have hfirst := firstVersion_of_parse (parse_of_reads hlex heq.loosest)
  obtain ⟨found, hfound, hwords, hplain⟩ := firstVersion_tokens hfirst
  exact ⟨hfirst, found, hfound, hwords, hplain.mpr fun h => by cases h⟩

/-- A literal with a doubled quote is left as it is, and is two literals where no quote is doubled. -/
theorem firstVersion_doubledQuote :
    firstVersion "'it''s'" = .ok ⟨"'it''s'", false⟩ ∧
      (∃ found, tokenize "'it''s'" = .ok found ∧ found.map (·.token) = [.literal "it's"]) ∧
      ∃ found, tokenizeWith .plain "'it''s'" = .ok found ∧
        found.map (·.token) = [.literal "it", .literal "s"] := by
  have hdoubled : Lexes .doubled true "'it''s'".toList [.literal "it's"] := .more rfl rfl (.done rfl)
  have hplain : Lexes .plain true "'it''s'".toList [.literal "it", .literal "s"] :=
    .more rfl rfl (.more rfl rfl (.done rfl))
  have hparse := parse_of_reads hdoubled (Grammar.Reads.literal "it's").of_primary
  exact ⟨firstVersion_of_parse hparse, tokenizeWith_of_lexes hdoubled, tokenizeWith_of_lexes hplain⟩

end Schematron.XPath
