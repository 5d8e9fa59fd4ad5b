import Mathlib.Data.List.DropRight
import Schematron.Proofs.XPath.RoundTrip
import Schematron.XPath.FirstVersion

/-!
White space at the ends of a text. It changes nothing about what the text says, and no printed
expression has any.
-/

namespace Schematron.Text

theorem trim_eq (s : String) : trim s = String.ofList ((skipBlanks s.toList).rdropWhile isBlank) := rfl

theorem skipBlanks_skipBlanks (cs : List Char) : skipBlanks (skipBlanks cs) = skipBlanks cs :=
  List.dropWhile_idempotent isBlank cs

theorem trim_trim (s : String) : trim (trim s) = trim s := by
  have hprefix : (skipBlanks s.toList).rdropWhile isBlank <+: skipBlanks s.toList :=
    List.rdropWhile_prefix isBlank _
  have hskip : skipBlanks ((skipBlanks s.toList).rdropWhile isBlank) =
      (skipBlanks s.toList).rdropWhile isBlank := by
    cases hcs : (skipBlanks s.toList).rdropWhile isBlank with
    | nil => rfl
    | cons c cs =>
      obtain ⟨more, hmore⟩ := hprefix
      rw [hcs, List.cons_append, eq_comm] at hmore
      exact List.dropWhile_cons_of_neg (by simp [isBlank_of_skipBlanks hmore])
  rw [trim_eq (trim s), trim_eq s, String.toList_ofList, hskip, List.rdropWhile_idempotent]

theorem skipBlanks_concat {b : Char} (hb : isBlank b = true) (cs : List Char) :
    skipBlanks (cs ++ [b]) = if skipBlanks cs = [] then [] else skipBlanks cs ++ [b] := by
  unfold skipBlanks
  rw [List.dropWhile_append]
  cases hcs : cs.dropWhile isBlank with
  | nil => simp [hb]
  | cons c more => simp

end Schematron.Text

namespace Schematron.XPath

open Schematron.Text (isBlank skipBlanks)

/-- A blank that is left behind what is read. -/
def leaving (b : Char) {α : Type} : α × List Char → α × List Char := Prod.map id (· ++ [b])

variable {b : Char}

theorem span_concat {p : Char → Bool} (hp : p b = false) (cs : List Char) :
    (cs ++ [b]).takeWhile p = cs.takeWhile p ∧ (cs ++ [b]).dropWhile p = cs.dropWhile p ++ [b] := by
  induction cs with
  | nil => simp [hp]
  | cons c cs ih =>
    cases hc : p c with
    | false => simp [hc]
    | true => simpa [hc] using ih

theorem isPrefixOf?_concat {s : List Char} (h : b ∉ s) (cs : List Char) :
    s.isPrefixOf? (cs ++ [b]) = (s.isPrefixOf? cs).map (· ++ [b]) := by
  induction s generalizing cs with
  | nil => rfl
  | cons c s ih =>
    obtain ⟨hc, hs⟩ := not_or.mp (List.mem_cons.not.mp h)
    cases cs with
    | nil => simp [List.isPrefixOf?, Ne.symm hc]
    | cons d cs =>
      simp only [List.cons_append, List.isPrefixOf?, ih hs]
      split <;> rfl

theorem signLexeme_concat {table : List (List Char × Token)} (h : ∀ e ∈ table, b ∉ e.1) (cs : List Char) :
    signLexeme table (cs ++ [b]) = (signLexeme table cs).map (leaving b) := by
  induction table with
  | nil => rfl
  | cons e table ih =>
    obtain ⟨he, htable⟩ := List.forall_mem_cons.mp h
    rw [signLexeme, isPrefixOf?_concat he, signLexeme]
    cases e.1.isPrefixOf? cs with
    | none => exact ih htable
    | some rest => rfl

section

variable (hb : isBlank b = true)

include hb

theorem ne_of_isBlank {c : Char} (hc : isBlank c = false) : b ≠ c := by
  rintro rfl
  rw [hb] at hc
  cases hc

theorem isNameStart_eq_false_of_isBlank : isNameStart b = false := by
  cases hstart : isNameStart b with
  | false => rfl
  | true => exact absurd rfl (ne_of_isBlank hb (isBlank_eq_false_of_isNameStart hstart))

theorem isDigit_eq_false_of_isBlank : b.isDigit = false := by
  cases hdigit : b.isDigit with
  | false => rfl
  | true => exact absurd rfl (ne_of_isBlank hb (isBlank_eq_false_of_isDigit hdigit))

theorem readName_concat (cs : List Char) : readName (cs ++ [b]) = leaving b (readName cs) := by
  obtain ⟨htake, hdrop⟩ := span_concat (isNameChar_eq_false_of_isBlank hb) cs
  rw [readName, htake, hdrop]
  rfl

theorem readQName_concat (cs : List Char) : readQName (cs ++ [b]) = leaving b (readQName cs) := by
  unfold readQName
  rw [readName_concat hb]
  obtain ⟨first, rest⟩ := readName cs
  match rest with
  | [] => simp [leaving]
  | [c] =>
    by_cases hc : c = ':'
    · simp [leaving, hc, isNameStart_eq_false_of_isBlank hb]
    · simp [leaving, hc]
  | c :: d :: more =>
    by_cases hc : c = ':'
    · have hmore := readName_concat hb (d :: more)
      rw [List.cons_append] at hmore
      cases hd : isNameStart d <;> simp [leaving, hc, hd, hmore]
    · simp [leaving, hc]

theorem readNumber_concat (cs : List Char) : readNumber (cs ++ [b]) = leaving b (readNumber cs) := by
  have hdigit := isDigit_eq_false_of_isBlank hb
  obtain ⟨htake, hdrop⟩ := span_concat hdigit cs
  have hpoint : b ≠ '.' := ne_of_isBlank hb (by decide)
  unfold readNumber
  rw [htake, hdrop]
  match cs.dropWhile Char.isDigit with
  | [] => simp [leaving, hpoint]
  | [c] =>
    by_cases hc : c = '.'
    · simp [leaving, hc, hpoint, hdigit]
    · simp [leaving, hc]
  | c :: d :: more =>
    by_cases hc : c = '.'
    · obtain ⟨htake, hdrop⟩ := span_concat hdigit (d :: more)
      rw [List.cons_append] at htake hdrop
      by_cases hd : d = '.' <;> simp [leaving, hc, hd, htake, hdrop]
    · simp [leaving, hc]

theorem classifyName_concat (name : String) (rest : List Char) :
    classifyName name (rest ++ [b]) = classifyName name rest := by
  have hcolon : b ≠ ':' := ne_of_isBlank hb (by decide)
  unfold classifyName
  rw [Text.skipBlanks_concat hb]
  match skipBlanks rest with
  | [] => rfl
  | [c] => by_cases hparen : c = '(' <;> by_cases hc : c = ':' <;> simp [hparen, hc, hcolon]
  | c :: d :: more =>
    by_cases hparen : c = '(' <;> by_cases hc : c = ':' <;> by_cases hd : d = ':' <;> simp [hparen, hc, hd]

theorem nameLexeme_concat (operand : Bool) (cs : List Char) :
    nameLexeme operand (cs ++ [b]) = leaving b (nameLexeme operand cs) := by
  have hstar : b ≠ '*' := ne_of_isBlank hb (by decide)
  unfold nameLexeme
  rw [readName_concat hb, readQName_concat hb]
  obtain ⟨first, rest⟩ := readName cs
  obtain ⟨name, after⟩ := readQName cs
  simp only [leaving, Prod.map, id, classifyName_concat hb]
  split
  · rfl
  · match rest with
    | [] => simp
    | [c] => by_cases hc : c = ':' <;> simp [hc, hstar]
    | c :: d :: more => by_cases hc : c = ':' <;> by_cases hd : d = '*' <;> simp [hc, hd]

theorem closeLiteral_concat (rule : QuoteRule) {quote : Char} (hquote : isBlank quote = false)
    (cs : List Char) : closeLiteral rule quote (cs ++ [b]) = (closeLiteral rule quote cs).map (leaving b) := by
  have hne : b ≠ quote := ne_of_isBlank hb hquote
  fun_induction closeLiteral rule quote cs with
  | case1 => simp [closeLiteral, hne]
  | case2 => simp [closeLiteral, hne, leaving]
  | case3 c hc => simp [closeLiteral, hne, hc]
  | case4 d rest hd ih =>
    rw [List.cons_append, List.cons_append, closeLiteral, if_pos rfl, if_pos hd, ih, Option.map_map,
      Option.map_map]
    rfl
  | case5 d rest hd => simp [closeLiteral, hd, leaving]
  | case6 c d rest hc ih =>
    rw [List.cons_append, List.cons_append, closeLiteral, if_neg hc, ← List.cons_append, ih, Option.map_map,
      Option.map_map]
    rfl

theorem beginsNumber_concat (c : Char) (rest : List Char) :
    beginsNumber (c :: (rest ++ [b])) = beginsNumber (c :: rest) := by
  cases rest with
  | nil => by_cases hc : c = '.' <;> simp [beginsNumber, hc, isDigit_eq_false_of_isBlank hb]
  | cons d rest => by_cases hc : c = '.' <;> simp [beginsNumber, hc]

theorem blank_not_mem_signs : ∀ e ∈ signs, b ∉ e.1 := fun e he hmem =>
  ne_of_isBlank hb (signStarts_no_name b (signs_of_signStarts e he b hmem)).2.1 rfl

/-- A token is the same with a blank behind the text. -/
theorem lexeme_concat (rule : QuoteRule) (operand : Bool) (c : Char) (rest : List Char) :
    lexeme rule operand c (rest ++ [b]) = (lexeme rule operand c rest).map (leaving b) := by
  unfold lexeme
  rw [beginsNumber_concat hb, ← List.cons_append, readNumber_concat hb, nameLexeme_concat hb,
    signLexeme_concat (blank_not_mem_signs hb)]
  split
  · rfl
  split
  · rfl
  split
  · rename_i hquote
    have hblank : isBlank c = false := by rcases hquote with rfl | rfl <;> rfl
    rw [closeLiteral_concat hb rule hblank]
    cases closeLiteral rule c rest <;> rfl
  split
  · cases rest with
    | nil => simp [isNameStart_eq_false_of_isBlank hb, Except.map]
    | cons d rest =>
      have hmore := readQName_concat hb (d :: rest)
      rw [List.cons_append] at hmore
      cases hd : isNameStart d <;> simp [hd, hmore, leaving, Except.map]
  split
  · rfl
  · cases signLexeme signs (c :: rest) <;> rfl

/-- A blank behind a text has no tokens. -/
theorem lexes_of_concat {rule : QuoteRule} {operand : Bool} {cs : List Char} {ts : List Token}
    (h : Lexes rule operand (cs ++ [b]) ts) : Lexes rule operand cs ts := by
  generalize hcs : cs ++ [b] = ds at h
  -- the blank stays behind whatever each token leaves
  induction h generalizing cs with
  | done h =>
    subst hcs
    rw [Text.skipBlanks_concat hb] at h
    split at h
    · exact .done ‹_›
    · simp at h
  | @more operand c ds rest after t ts h hl _ ih =>
    subst hcs
    rw [Text.skipBlanks_concat hb] at h
    split at h
    · cases h
    · rename_i hsome
      obtain ⟨d, before, hd⟩ := List.exists_cons_of_ne_nil hsome
      rw [hd, List.cons_append, List.cons.injEq] at h
      obtain ⟨rfl, rfl⟩ := h
      rw [lexeme_concat hb] at hl
      cases hlex : lexeme rule operand d before with
      | error cause =>
        rw [hlex] at hl
        cases hl
      | ok found =>
        rw [hlex] at hl
        cases hl
        exact .more hd hlex (ih rfl)

end

theorem Lexes.skipBlanks {rule : QuoteRule} {operand : Bool} {cs : List Char} {ts : List Token}
    (h : Lexes rule operand cs ts) : Lexes rule operand (skipBlanks cs) ts := by
  have hskip := Text.skipBlanks_skipBlanks cs
  cases h with
  | done h => exact .done (hskip.trans h)
  | more h hl hm => exact .more (hskip.trans h) hl hm

theorem Lexes.rdropBlanks {rule : QuoteRule} {operand : Bool} {cs : List Char} {ts : List Token}
    (h : Lexes rule operand cs ts) : Lexes rule operand (cs.rdropWhile isBlank) ts := by
  induction cs using List.reverseRecOn with
  | nil => rwa [List.rdropWhile_nil]
  | append_singleton cs b ih =>
    -- blanks are dropped one by one, and the first character that is none stops that
    cases hb : isBlank b with
    | true =>
      rw [List.rdropWhile_concat_pos _ _ _ hb]
      exact ih (lexes_of_concat hb h)
    | false => rwa [List.rdropWhile_concat_neg _ _ _ (by simp [hb])]

theorem Lexes.trim {rule : QuoteRule} {source : String} {ts : List Token}
    (h : Lexes rule true source.toList ts) : Lexes rule true (Text.trim source).toList ts := by
  rw [Text.trim_eq, String.toList_ofList]
  exact h.skipBlanks.rdropBlanks

/-- A text says the same without the white space around it. -/
theorem parse_trim {source : String} {p : Parsed} (h : parse source = .ok p) :
    parse (Text.trim source) = .ok p := by
  obtain ⟨ts, hlex, hreads⟩ := reads_of_parse h
  have hp := parse_of_reads hlex hreads
  rw [h] at hp
  rw [parse_of_reads hlex.trim hreads, hp]

/-- What an expression is in the first version of the language: its own text without the white space
around it, or the text of its tree. -/
theorem firstVersion_eq_ok {source : String} {r : FirstVersion} (h : firstVersion source = .ok r) :
    ∃ p, parse source = .ok p ∧
      ((p.laterSyntax || saysMore true p.expr) = true ∧ r = ⟨emit true p.expr, true⟩ ∨
        (p.laterSyntax || saysMore true p.expr) = false ∧ r = ⟨Text.trim source, false⟩) := by
  unfold firstVersion at h
  cases hparse : parse source with
  | error e =>
    rw [hparse] at h
    cases h
  | ok p =>
    rw [hparse] at h
    cases h
    refine ⟨p, rfl, ?_⟩
    unfold Parsed.firstVersion
    cases hlater : p.laterSyntax || saysMore true p.expr with
    | true => exact .inl ⟨rfl, rfl⟩
    | false => exact .inr ⟨rfl, rfl⟩

theorem firstVersion_of_parse {source : String} {p : Parsed} (h : parse source = .ok p) :
    firstVersion source = .ok (p.firstVersion source) := by
  rw [firstVersion, h]
  rfl

/-- A text that begins with no blank. -/
def StartsTight (s : String) : Prop := ∃ c cs, s.toList = c :: cs ∧ isBlank c = false

/-- A text that ends with no blank. -/
def EndsTight (s : String) : Prop := ∃ cs c, s.toList = cs ++ [c] ∧ isBlank c = false

/-- A text with no white space around it. -/
structure Tight (s : String) : Prop where
  starts : StartsTight s
  ends : EndsTight s

theorem StartsTight.append {s : String} (h : StartsTight s) (t : String) : StartsTight (s ++ t) := by
  obtain ⟨c, cs, hs, hc⟩ := h
  exact ⟨c, cs ++ t.toList, by rw [String.toList_append, hs, List.cons_append], hc⟩

theorem EndsTight.append {t : String} (h : EndsTight t) (s : String) : EndsTight (s ++ t) := by
  obtain ⟨cs, c, ht, hc⟩ := h
  exact ⟨s.toList ++ cs, c, by rw [String.toList_append, ht, List.append_assoc], hc⟩

namespace Tight

variable {s t : String}

theorem trim_eq_self (h : Tight s) : Text.trim s = s := by
  obtain ⟨c, cs, hs, hc⟩ := h.starts
  obtain ⟨ds, d, hs', hd⟩ := h.ends
  rw [Text.trim_eq, hs, skipBlanks_of_not_blank hc, ← hs, hs', List.rdropWhile_concat_neg _ _ _ (by simp [hd]),
    ← hs', String.ofList_toList]

theorem of_all (hsome : s.toList ≠ []) (h : ∀ c ∈ s.toList, isBlank c = false) : Tight s where
  starts := by
    obtain ⟨c, cs, hs⟩ := List.exists_cons_of_ne_nil hsome
    exact ⟨c, cs, hs, h c (hs ▸ List.mem_cons_self)⟩
  ends := ⟨_, _, (List.dropLast_concat_getLast hsome).symm, h _ (List.getLast_mem hsome)⟩

theorem append (h : Tight s) (h' : Tight t) : Tight (s ++ t) := ⟨h.starts.append t, h'.ends.append s⟩

/-- Texts with anything between them. -/
theorem around (h : Tight s) (between : String) (h' : Tight t) : Tight (s ++ between ++ t) :=
  ⟨(h.starts.append between).append t, h'.ends.append (s ++ between)⟩

theorem of_isQName (h : IsQName s.toList) : Tight s := by
  have hname : ∀ {cs : List Char}, IsNCName cs → ∀ c ∈ cs, isBlank c = false := fun h c hc =>
    isBlank_eq_false_of_isNameChar (h.all c hc)
  obtain ⟨c, more, hs, -⟩ := h.cons
  refine of_all (by simp [hs]) ?_
  rcases h with h | ⟨p, l, hpl, hp, hl⟩
  · exact hname h
  · rw [hpl]
    exact List.forall_mem_append.mpr ⟨hname hp, List.forall_mem_cons.mpr ⟨by decide, hname hl⟩⟩

theorem of_isNumber (h : IsNumber s.toList) : Tight s := by
  have hdigits : ∀ {cs : List Char}, (∀ c ∈ cs, c.isDigit = true) → ∀ c ∈ cs, isBlank c = false := fun h c hc =>
    isBlank_eq_false_of_isDigit (h c hc)
  rcases h with ⟨hsome, hall⟩ | ⟨ds, es, hs, -, hds, hes⟩
  · exact of_all hsome (hdigits hall)
  · refine of_all (by simp [hs]) ?_
    rw [hs]
    exact List.forall_mem_append.mpr ⟨hdigits hds, List.forall_mem_cons.mpr ⟨by decide, hdigits hes⟩⟩

theorem of_nameTest (h : (Token.nameTest s).Fits) : Tight s := by
  rcases h with hs | ⟨p, hp, hs⟩ | hname
  · exact of_all (by simp [hs]) (by rw [hs]; exact forall_of_all (by decide))
  · refine of_all (by simp [hs]) ?_
    rw [hs]
    exact List.forall_mem_append.mpr
      ⟨fun c hc => isBlank_eq_false_of_isNameChar (hp.all c hc), forall_of_all (by decide)⟩
  · exact of_isQName hname

end Tight

/-- A text without blanks in it. -/
theorem tight_of_check {s : String} (h : (!s.toList.isEmpty && s.toList.all fun c => !isBlank c) = true) :
    Tight s := by
  simp only [Bool.and_eq_true, Bool.not_eq_true', List.isEmpty_eq_false_iff, List.all_eq_true] at h
  exact .of_all h.1 h.2

theorem tight_quoteLiteral (value : String) : Tight (quoteLiteral value) := by
  have hquote : Tight "'" := tight_of_check (by decide)
  have hquotes : Tight "\"" := tight_of_check (by decide)
  unfold quoteLiteral
  split
  · exact hquote.around value hquote
  split
  · exact hquotes.around value hquotes
  · have hcall : Tight "concat(" := tight_of_check (by decide)
    exact hcall.around _ (tight_of_check (by decide))

theorem tight_spelled {test : NodeTest} (h : test.Fits) : Tight test.spelled := by
  cases test
  case wildcardIn => exact .of_nameTest h
  case name => exact .of_nameTest h
  case instruction target =>
    cases target with
    | none => exact tight_of_check (by decide)
    | some value =>
      have hkind : Tight "processing-instruction(" := tight_of_check (by decide)
      exact hkind.around _ (tight_of_check (by decide))
  all_goals exact tight_of_check (by decide)

theorem tight_stepHead (a : Axis) {test : NodeTest} (bare : Bool) (h : test.Fits) :
    Tight (stepHead a test bare) := by
  have htest := tight_spelled h
  have hgeneral : Tight (a.name ++ "::" ++ test.spelled) := (Tight.of_isQName (axis_names a)).around _ htest
  unfold stepHead
  split
  · split <;> exact tight_of_check (by decide)
  · split <;> exact tight_of_check (by decide)
  · exact htest
  · exact Tight.append (tight_of_check (by decide)) htest
  · exact hgeneral

section

variable {comparisons : Bool}

theorem EndsTight.predicates {s : String} (h : EndsTight s) (es : List Expr) :
    EndsTight (s ++ emitPredicates comparisons es) := by
  induction es generalizing s with
  | nil => rwa [emitPredicates, String.append_empty]
  | cons e es ih =>
    have hclose : EndsTight "]" := (tight_of_check (by decide)).ends
    rw [emitPredicates, ← String.append_assoc]
    exact ih ((hclose.append _).append s)

theorem endsTight_emitSteps {ss : List (Step Expr)} (hsome : ss ≠ []) (h : ∀ s ∈ ss, s.test.Fits)
    (joint : Joint) : EndsTight (emitSteps comparisons joint ss) := by
  induction ss generalizing joint with
  | nil => exact absurd rfl hsome
  | cons s ss ih =>
    obtain ⟨axis, test, preds⟩ := s
    obtain ⟨hs, hss⟩ := List.forall_mem_cons.mp h
    rw [emitSteps]
    split
    · -- a gap that is folded away is not the last step
      rename_i hfold
      have hmore : ss ≠ [] := by
        rintro rfl
        cases hfold
      exact (ih hmore hss .slash).append _
    · have hhead : EndsTight (joint.text ++ stepHead axis test preds.isEmpty ++
          emitPredicates comparisons preds) :=
        ((tight_stepHead axis preds.isEmpty hs).ends.append joint.text).predicates preds
      by_cases hmore : ss = []
      · rw [hmore, emitSteps, String.append_empty]
        exact hhead
      · exact (ih hmore hss .item).append _

theorem startsTight_emitSteps {ss : List (Step Expr)} (hsome : ss ≠ []) (h : ∀ s ∈ ss, s.test.Fits) :
    StartsTight (emitSteps comparisons .start ss) := by
  obtain ⟨⟨axis, test, preds⟩, more, rfl⟩ := List.exists_cons_of_ne_nil hsome
  have hhead := tight_stepHead axis preds.isEmpty (List.forall_mem_cons.mp h).1
  have hjoint : Joint.start.text = "" := rfl
  rw [emitSteps, if_neg (by simp), hjoint, String.empty_append]
  exact (hhead.starts.append _).append _

end

namespace Grammar

section

variable (comparisons : Bool)

/-- An expression is printed without white space around it. -/
def TightPart : (k : Part) → k.Tree → Prop
  | .expr _, e => Tight (emit comparisons e)
  | .steps, ss => ss ≠ [] ∧ ∀ s ∈ ss, s.test.Fits
  | .step, s => s.test.Fits
  | _, _ => True

theorem fits_between {t : Token} {between ss : List (Step Expr)} (ht : stepOp t = some between)
    (h : ss ≠ [] ∧ ∀ s ∈ ss, s.test.Fits) : between ++ ss ≠ [] ∧ ∀ s ∈ between ++ ss, s.test.Fits := by
  rcases stepOp_eq_some ht with ⟨-, rfl⟩ | ⟨-, rfl⟩
  · exact h
  · exact ⟨by simp, List.forall_mem_cons.mpr ⟨trivial, h.2⟩⟩

theorem Reads.tight {k : Part} {ts : List Token} {x : k.Tree} (h : Reads k ts x) (hfit : Fit ts) :
    TightPart comparisons k x := by
  have hopen : Tight "(" := tight_of_check (by decide)
  have hclose : Tight ")" := tight_of_check (by decide)
  have hslash : Tight "/" := tight_of_check (by decide)
  induction h with
  | tighter _ ih => exact ih hfit
  | @binary l t join ts us a b hop _ _ left right =>
    obtain ⟨hts, hus⟩ := hfit.of_append
    have ha : Tight (emit comparisons a) := left hts
    have hb : Tight (emit comparisons b) := right hus.of_cons.2
    rcases Level.join_eq hop with ⟨-, rfl⟩ | ⟨op, rfl, -⟩
    · exact ha.around " | " hb
    · have hname : Tight compareFunction := .of_isQName fits_compareFunction.1
      have hcall := hname.around
        ("(" ++ emit comparisons a ++ ", " ++ emit comparisons b ++ ") " ++ op.symbol ++ " ")
        (tight_of_check (s := "0") (by decide))
      have hplain := ha.around (" " ++ op.symbol ++ " ") hb
      show Tight (emit comparisons (.binary op a b))
      rw [emit]
      split
      · have hzero : " " ++ "0" = " 0" := rfl
        simpa only [String.append_assoc, hzero] using hcall
      · simpa only [String.append_assoc] using hplain
  | negate _ ih =>
    have hsign : Tight "-" := tight_of_check (by decide)
    exact hsign.append (ih hfit.of_cons.2)
  | root => exact hslash
  | absolute ht _ ih =>
    obtain ⟨hsome, hfits⟩ := fits_between ht (ih hfit.of_cons.2)
    exact ⟨hslash.starts.append _, (endsTight_emitSteps hsome hfits .slash).append _⟩
  | relative _ ih =>
    obtain ⟨hsome, hfits⟩ := ih hfit
    exact ⟨startsTight_emitSteps hsome hfits, endsTight_emitSteps hsome hfits .start⟩
  | continued _ ht _ start ih =>
    obtain ⟨hts, hus⟩ := hfit.of_append
    have hstart : Tight (emit comparisons _) := start hts
    obtain ⟨hsome, hfits⟩ := fits_between ht (ih hus.of_cons.2)
    exact ⟨hstart.starts.append _, (endsTight_emitSteps hsome hfits .item).append _⟩
  | filter _ _ _ ih =>
    have hprimary : Tight (emit comparisons _) := ih hfit.of_append.1
    exact ⟨hprimary.starts.append _, hprimary.ends.predicates _⟩
  | variableRef name =>
    have hsign : Tight "$" := tight_of_check (by decide)
    exact hsign.append (.of_isQName hfit.of_cons.1)
  | literal value => exact tight_quoteLiteral value
  | number spelling => exact .of_isNumber hfit.of_cons.1
  | call name =>
    have hname : Tight name := .of_isQName hfit.of_cons.1.1
    exact ((hname.append hopen).around _ hclose)
  | group => exact hopen.around _ hclose
  | @sequence ts items =>
    cases items with
    | nil => exact tight_of_check (s := "/..") (by decide)
    | cons => exact hopen.around _ hclose
  | lastStep _ ih => exact ⟨by simp, List.forall_mem_singleton.mpr (ih hfit)⟩
  | joined _ ht _ ih more =>
    obtain ⟨hts, hus⟩ := hfit.of_append
    obtain ⟨-, hfits⟩ := fits_between ht (more hus.of_cons.2)
    exact ⟨by simp, List.forall_mem_cons.mpr ⟨ih hts, hfits⟩⟩
  | tested _ ht => exact ht.fits hfit.of_append.2.of_append.1
  | self | parent | noArguments | arguments | lastItem | item | noPredicates | predicate => trivial

end

end Grammar

/-- The text of a parsed expression has no white space around it. -/
theorem trim_emit {source : String} {p : Parsed} (h : parse source = .ok p) (comparisons : Bool) :
    Text.trim (emit comparisons p.expr) = emit comparisons p.expr := by
  obtain ⟨ts, hlex, hreads⟩ := reads_of_parse h
  have htight : Tight (emit comparisons p.expr) := hreads.tight comparisons hlex.fits.1
  exact htight.trim_eq_self

end Schematron.XPath
