import Mathlib.Data.List.Chain
import Mathlib.Data.List.TakeWhile
import Schematron.Proofs.Reading
import Schematron.XPath.Tokenize

/-!
How the tokens of a text come about. A token is found at the front of a text wherever what follows
cannot be taken for more of it.
-/

namespace Schematron.XPath

open Schematron.Text (isBlank skipBlanks)

/-- `Lexes rule operand cs ts`: the tokens of `cs` are `ts`, where `operand` tells that an operand is
due. -/
inductive Lexes (rule : QuoteRule) : Bool → List Char → List Token → Prop where
  | done {operand : Bool} {cs : List Char} (h : skipBlanks cs = []) : Lexes rule operand cs []
  | more {operand : Bool} {c : Char} {cs rest after : List Char} {t : Token} {ts : List Token}
      (h : skipBlanks cs = c :: rest) (hl : lexeme rule operand c rest = .ok (t, after))
      (hm : Lexes rule t.allowsOperand after ts) : Lexes rule operand cs (t :: ts)

variable {rule : QuoteRule}

theorem scan_nil {total : Nat} {operand : Bool} {cs : List Char} (h : skipBlanks cs = []) :
    scan rule total operand cs = .ok [] := by
  rw [scan]
  split
  · rfl
  · rename_i hc
    rw [h] at hc
    cases hc

theorem scan_error {total : Nat} {operand : Bool} {c : Char} {cs rest : List Char} {cause : SyntaxCause}
    (h : skipBlanks cs = c :: rest) (hl : lexeme rule operand c rest = .error cause) :
    scan rule total operand cs = .error (total - byteLength (c :: rest), cause) := by
  rw [scan]
  split
  · rename_i hnil
    rw [h] at hnil
    cases hnil
  · rename_i d more hd
    rw [h] at hd
    cases hd
    split
    · rename_i hl'
      rw [hl] at hl'
      cases hl'
      rfl
    · rename_i hl'
      rw [hl] at hl'
      cases hl'

theorem scan_ok {total : Nat} {operand : Bool} {c : Char} {cs rest after : List Char} {t : Token}
    (h : skipBlanks cs = c :: rest) (hl : lexeme rule operand c rest = .ok (t, after)) :
    scan rule total operand cs =
      (scan rule total t.allowsOperand after).map (⟨t, total - byteLength (c :: rest)⟩ :: ·) := by
  rw [scan]
  split
  · rename_i hnil
    rw [h] at hnil
    cases hnil
  · rename_i d more hd
    rw [h] at hd
    cases hd
    split
    · rename_i hl'
      rw [hl] at hl'
      cases hl'
    · rename_i hl'
      rw [hl] at hl'
      cases hl'
      cases scan rule total t.allowsOperand after <;> rfl

/-- The run of a scan that gives tokens: each is the one at the front of what is left, and stands where that begins. -/
inductive Scanned (rule : QuoteRule) (total : Nat) : Bool → List Char → List Spanned → Prop
  | done {operand : Bool} {cs : List Char} (h : skipBlanks cs = []) : Scanned rule total operand cs []
  | more {operand : Bool} {c : Char} {cs rest after : List Char} {t : Token} {found : List Spanned}
      (h : skipBlanks cs = c :: rest) (hl : lexeme rule operand c rest = .ok (t, after))
      (hmore : Scanned rule total t.allowsOperand after found) :
      Scanned rule total operand cs (⟨t, total - byteLength (c :: rest)⟩ :: found)

theorem scanned_of_scan {total : Nat} {operand : Bool} {cs : List Char} {found : List Spanned}
    (h : scan rule total operand cs = .ok found) : Scanned rule total operand cs found := by
  induction hn : cs.length using Nat.strongRecOn generalizing cs operand found with
  | ind n ih =>
    cases hc : skipBlanks cs with
    | nil =>
      rw [scan_nil hc] at h
      cases h
      exact .done hc
    | cons c rest =>
      cases hl : lexeme rule operand c rest with
      | error cause =>
        rw [scan_error hc hl] at h
        cases h
      | ok taken =>
        obtain ⟨t, after⟩ := taken
        rw [scan_ok hc hl] at h
        cases hmore : scan rule total t.allowsOperand after with
        | error e =>
          rw [hmore] at h
          cases h
        | ok more =>
          rw [hmore] at h
          cases h
          have hskip := Text.length_skipBlanks_le cs
          have hafter := lexeme_length hl
          rw [hc, List.length_cons] at hskip
          exact .more hc hl (ih after.length (by omega) hmore rfl)

theorem Scanned.lexes {total : Nat} {operand : Bool} {cs : List Char} {found : List Spanned}
    (h : Scanned rule total operand cs found) : Lexes rule operand cs (found.map (·.token)) := by
  induction h with
  | done hc => exact .done hc
  | more hc hl _ ih => exact .more hc hl ih

theorem lexes_of_scan {total : Nat} {operand : Bool} {cs : List Char} {found : List Spanned}
    (h : scan rule total operand cs = .ok found) : Lexes rule operand cs (found.map (·.token)) :=
  (scanned_of_scan h).lexes

theorem scan_of_lexes {operand : Bool} {cs : List Char} {ts : List Token} (h : Lexes rule operand cs ts)
    (total : Nat) : ∃ found, scan rule total operand cs = .ok found ∧ found.map (·.token) = ts := by
  induction h with
  | done h => exact ⟨[], scan_nil h, rfl⟩
  | @more operand c cs rest after t ts h hl _ ih =>
    obtain ⟨found, hfound, rfl⟩ := ih
    refine ⟨⟨t, total - byteLength (c :: rest)⟩ :: found, ?_, rfl⟩
    rw [scan_ok h hl, hfound]
    rfl

theorem lexes_of_tokenizeWith {source : String} {found : List Spanned}
    (h : tokenizeWith rule source = .ok found) :
    Lexes rule true source.toList (found.map (·.token)) := by
  unfold tokenizeWith at h
  cases hs : scan rule (byteLength source.toList) true source.toList with
  | error e =>
    rw [hs] at h
    cases h
  | ok scanned =>
    rw [hs] at h
    cases h
    exact lexes_of_scan hs

theorem tokenizeWith_of_lexes {source : String} {ts : List Token}
    (h : Lexes rule true source.toList ts) :
    ∃ found, tokenizeWith rule source = .ok found ∧ found.map (·.token) = ts := by
  obtain ⟨found, hfound, hts⟩ := scan_of_lexes h (byteLength source.toList)
  refine ⟨found, ?_, hts⟩
  unfold tokenizeWith
  rw [hfound]
  rfl

/-- A text has the tokens it has. -/
theorem Lexes.unique {operand : Bool} {cs : List Char} {ts us : List Token} (h : Lexes rule operand cs ts)
    (h' : Lexes rule operand cs us) : ts = us := by
  induction h generalizing us with
  | done h =>
    cases h' with
    | done => rfl
    | more hc =>
      rw [h] at hc
      cases hc
  | more h hl _ ih =>
    cases h' with
    | done hd =>
      rw [h] at hd
      cases hd
    | more hc hl' hm' =>
      rw [h] at hc
      cases hc
      rw [hl] at hl'
      cases hl'
      rw [ih hm']

theorem Lexes.blank {operand : Bool} {cs : List Char} {ts : List Token} (h : Lexes rule operand cs ts) :
    Lexes rule operand (' ' :: cs) ts := by
  have hskip : skipBlanks (' ' :: cs) = skipBlanks cs := by
    unfold skipBlanks
    rw [List.dropWhile_cons_of_pos (by decide)]
  cases h with
  | done h => exact .done (hskip.trans h)
  | more h hl hm => exact .more (hskip.trans h) hl hm

theorem isNameStart_eq_false_of_toNat_lt {c : Char} (h : c.toNat < 65) : isNameStart c = false := by
  have halpha : Text.isAlphabetic c = false := by
    unfold Text.isAlphabetic Text.alphabeticRanges Text.inRanges
    rw [if_pos h]
  have hne : c ≠ '_' := by
    intro heq
    subst heq
    exact absurd h (by decide)
  unfold isNameStart
  rw [halpha, decide_eq_false hne]
  rfl

theorem isDigit_eq_false_of_isNameStart {c : Char} (h : isNameStart c = true) : c.isDigit = false := by
  cases hd : c.isDigit with
  | false => rfl
  | true =>
    have hlt : c.toNat < 65 := by
      simp only [Char.isDigit, Bool.and_eq_true, decide_eq_true_eq] at hd
      exact Nat.lt_of_le_of_lt hd.2 (by decide)
    rw [isNameStart_eq_false_of_toNat_lt hlt] at h
    cases h

theorem mem_of_inRanges {ranges : List (Nat × Nat)} {n : Nat} (h : Text.inRanges ranges n = true) :
    n ∈ ranges.flatMap fun r => List.range' r.1 (r.2 + 1 - r.1) := by
  induction ranges with
  | nil => cases h
  | cons r ranges ih =>
    unfold Text.inRanges at h
    split at h
    · cases h
    · rw [List.flatMap_cons, List.mem_append]
      rcases Bool.or_eq_true _ _ ▸ h with hn | hn
      · left
        rw [List.mem_range'_1]
        have := of_decide_eq_true hn
        omega
      · exact .inr (ih hn)

theorem blanks_in_no_name : ∀ n ∈ Text.blankRanges.flatMap (fun r => List.range' r.1 (r.2 + 1 - r.1)),
    isNameChar (Char.ofNat n) = false := by
  decide +kernel

theorem isNameChar_eq_false_of_isBlank {c : Char} (h : isBlank c = true) : isNameChar c = false := by
  have hname := blanks_in_no_name _ (mem_of_inRanges h)
  rwa [Char.ofNat_toNat] at hname

theorem isBlank_eq_false_of_isNameChar {c : Char} (h : isNameChar c = true) : isBlank c = false := by
  cases hb : isBlank c with
  | false => rfl
  | true =>
    rw [isNameChar_eq_false_of_isBlank hb] at h
    cases h

theorem isBlank_eq_false_of_isNameStart {c : Char} (h : isNameStart c = true) : isBlank c = false :=
  isBlank_eq_false_of_isNameChar (isNameChar_of_isNameStart h)

theorem isBlank_eq_false_of_isDigit {c : Char} (h : c.isDigit = true) : isBlank c = false := by
  simp only [Char.isDigit, Bool.and_eq_true, decide_eq_true_eq] at h
  have hlo : 48 ≤ c.toNat := h.1
  have hhi : c.toNat ≤ 57 := h.2
  unfold isBlank Text.blankRanges
  simp only [Text.inRanges]
  grind

/-- What is checked character by character. -/
theorem forall_of_all {p : Char → Prop} [DecidablePred p] {cs : List Char}
    (h : (cs.all fun c => p c) = true) : ∀ c ∈ cs, p c :=
  fun c hc => of_decide_eq_true (List.all_eq_true.mp h c hc)

/-- The characters that end a name, a number or a literal in front of them. -/
def separators : List Char := [' ', ')', ']', '[', ',', '/']

/-- Nothing of a name, a number or a literal goes on with this text, and it makes no call or axis of a
name. -/
structure Apart (rest : List Char) : Prop where
  head : ∀ c ∈ rest.head?, c ∈ separators
  next : ∀ c ∈ (skipBlanks rest).head?, c ≠ '(' ∧ c ≠ ':'

theorem separators_stop : ∀ c ∈ separators,
    isNameChar c = false ∧ c.isDigit = false ∧ c ≠ '.' ∧ c ≠ ':' ∧ c ≠ '\'' ∧ c ≠ '"' :=
  forall_of_all (by decide)

theorem apart_nil : Apart [] where
  head := by
    intro c hc
    cases hc
  next := by
    intro c hc
    cases hc

theorem apart_cons {c : Char} {rest : List Char} (hc : c ∈ separators) (hblank : isBlank c = false) :
    Apart (c :: rest) where
  head := by
    intro d heq
    cases heq
    exact hc
  next := by
    have hskip : skipBlanks (c :: rest) = c :: rest := by
      unfold skipBlanks
      rw [List.dropWhile_cons_of_neg (by simp [hblank])]
    rw [hskip]
    intro d heq
    cases heq
    obtain ⟨hname, -, -, hcolon, -⟩ := separators_stop c hc
    refine ⟨?_, hcolon⟩
    intro heq
    subst heq
    exact absurd hc (by decide)

/-- A name without a colon. -/
def IsNCName (cs : List Char) : Prop :=
  ∃ c rest, cs = c :: rest ∧ isNameStart c = true ∧ ∀ d ∈ rest, isNameChar d = true

/-- A name, or two of them with a colon between them. -/
def IsQName (cs : List Char) : Prop :=
  IsNCName cs ∨ ∃ p l, cs = p ++ ':' :: l ∧ IsNCName p ∧ IsNCName l

theorem IsQName.cons {cs : List Char} (h : IsQName cs) :
    ∃ c more, cs = c :: more ∧ isNameStart c = true := by
  rcases h with ⟨c, more, rfl, hc, -⟩ | ⟨p, l, rfl, ⟨c, more, rfl, hc, -⟩, -⟩ <;>
    exact ⟨c, _, rfl, hc⟩

theorem IsNCName.all {cs : List Char} (h : IsNCName cs) : ∀ d ∈ cs, isNameChar d = true := by
  obtain ⟨c, rest, rfl, hc, hrest⟩ := h
  intro d hd
  rcases List.mem_cons.mp hd with rfl | hd
  · exact isNameChar_of_isNameStart hc
  · exact hrest d hd

/-- What follows is no part of a name. -/
def EndsName (rest : List Char) : Prop :=
  (∀ c ∈ rest.head?, isNameChar c = false) ∧ ∀ d more, rest = ':' :: d :: more → isNameStart d = false ∧ d ≠ '*'

theorem Apart.endsName {rest : List Char} (h : Apart rest) : EndsName rest := by
  refine ⟨fun c hc => (separators_stop c (h.head c hc)).1, ?_⟩
  intro d more heq
  subst heq
  exact absurd rfl (separators_stop ':' (h.head ':' rfl)).2.2.2.1

theorem readName_append {cs rest : List Char} (h : ∀ c ∈ cs, isNameChar c = true)
    (hrest : ∀ c ∈ rest.head?, isNameChar c = false) : readName (cs ++ rest) = (cs, rest) := by
  unfold readName
  obtain ⟨htake, hdrop⟩ := takeWhile_append_of_all h hrest
  rw [htake, hdrop]

theorem colon_no_name : isNameChar ':' = false := by decide

theorem readQName_append {cs rest : List Char} (h : IsQName cs) (hrest : EndsName rest) :
    readQName (cs ++ rest) = (cs, rest) := by
  unfold readQName
  rcases h with h | ⟨p, l, rfl, hp, hl⟩
  · rw [readName_append h.all hrest.1]
    simp only
    split
    · rename_i c more
      rw [if_neg (by simp [(hrest.2 c more rfl).1])]
    · rfl
  · have hcolon : ∀ c ∈ (':' :: (l ++ rest)).head?, isNameChar c = false := by
      intro c heq
      cases heq
      exact colon_no_name
    rw [List.append_assoc, List.cons_append, readName_append hp.all hcolon]
    obtain ⟨c, more, rfl, hc, hmore⟩ := hl
    have hlocal := readName_append (IsNCName.all ⟨c, more, rfl, hc, hmore⟩) hrest.1
    simp only [List.cons_append] at hlocal ⊢
    rw [if_pos hc, hlocal]

theorem isNCName_readName {c : Char} (rest : List Char) (h : isNameStart c = true) :
    IsNCName (readName (c :: rest)).1 := by
  refine ⟨c, rest.takeWhile isNameChar, ?_, h, fun d hd => List.mem_takeWhile_imp hd⟩
  exact List.takeWhile_cons_of_pos (isNameChar_of_isNameStart h)

theorem isQName_readQName {c : Char} (rest : List Char) (h : isNameStart c = true) :
    IsQName (readQName (c :: rest)).1 := by
  have hfirst := isNCName_readName rest h
  unfold readQName
  split
  rename_i first after hr
  rw [hr] at hfirst
  split
  · rename_i d more
    split
    · rename_i hd
      exact .inr ⟨first, _, rfl, hfirst, isNCName_readName _ hd⟩
    · exact .inl hfirst
  · exact .inl hfirst

/-- Digits, with or without a point among them. -/
def IsNumber (cs : List Char) : Prop :=
  (cs ≠ [] ∧ ∀ c ∈ cs, c.isDigit = true) ∨
  ∃ ds es, cs = ds ++ '.' :: es ∧ (ds ≠ [] ∨ es ≠ []) ∧ (∀ c ∈ ds, c.isDigit = true) ∧
    ∀ c ∈ es, c.isDigit = true

theorem isNumber_readNumber {cs : List Char} (h : beginsNumber cs = true) :
    IsNumber (readNumber cs).1 := by
  have hwhole : ∀ d ∈ cs.takeWhile Char.isDigit, d.isDigit = true := fun d hd => List.mem_takeWhile_imp hd
  -- without a digit in front there is a point, and a digit behind it
  have hpoint : cs.takeWhile Char.isDigit = [] → ∃ d more, cs = '.' :: d :: more ∧ d.isDigit = true := by
    intro hnone
    unfold beginsNumber at h
    split at h
    · rename_i d more
      exact ⟨d, more, rfl, h⟩
    · rename_i c more _
      rw [List.takeWhile_cons_of_pos h] at hnone
      cases hnone
    · cases h
  have hdrop : cs.takeWhile Char.isDigit = [] → cs.dropWhile Char.isDigit = cs := by
    intro hnone
    have := List.takeWhile_append_dropWhile (p := Char.isDigit) (l := cs)
    rwa [hnone, List.nil_append] at this
  unfold readNumber
  split
  · rename_i more hm
    refine .inl ⟨fun hnone => ?_, hwhole⟩
    obtain ⟨d, tl, rfl, hd⟩ := hpoint hnone
    rw [hdrop hnone] at hm
    cases hm
    cases hd
  · rename_i more _ hm
    refine .inr ⟨_, _, rfl, ?_, hwhole, fun d hd => List.mem_takeWhile_imp hd⟩
    by_cases hnone : cs.takeWhile Char.isDigit = []
    · obtain ⟨d, tl, rfl, hd⟩ := hpoint hnone
      rw [hdrop hnone] at hm
      cases hm
      right
      rw [List.takeWhile_cons_of_pos hd]
      simp
    · exact .inl hnone
  · rename_i hm
    refine .inl ⟨fun hnone => ?_, hwhole⟩
    obtain ⟨d, tl, rfl, hd⟩ := hpoint hnone
    exact hm _ (hdrop hnone)

theorem readNumber_append {cs rest : List Char} (h : IsNumber cs) (hrest : Apart rest) :
    readNumber (cs ++ rest) = (cs, rest) := by
  have hdigit : ∀ c ∈ rest.head?, c.isDigit = false := fun c hc =>
    (separators_stop c (hrest.head c hc)).2.1
  have hpoint : ∀ more, rest ≠ '.' :: more := by
    intro more heq
    subst heq
    exact absurd rfl (separators_stop '.' (hrest.head '.' rfl)).2.2.1
  unfold readNumber
  rcases h with ⟨-, hall⟩ | ⟨ds, es, rfl, -, hds, hes⟩
  · obtain ⟨htake, hdrop⟩ := takeWhile_append_of_all hall hdigit
    rw [htake, hdrop]
    split
    · exact absurd rfl (hpoint _)
    · exact absurd rfl (hpoint _)
    · rfl
  · have hdot : ∀ c ∈ ('.' :: (es ++ rest)).head?, c.isDigit = false := by
      intro c heq
      cases heq
      rfl
    obtain ⟨htake, hdrop⟩ := takeWhile_append_of_all hds hdot
    obtain ⟨htake', hdrop'⟩ := takeWhile_append_of_all hes hdigit
    rw [List.append_assoc, List.cons_append, htake, hdrop]
    split
    · rename_i more hm
      -- a second point would be a digit, or part of what follows
      cases es with
      | nil => exact absurd (List.cons.inj hm).2 (hpoint _)
      | cons e es =>
        obtain ⟨rfl, -⟩ := List.cons.inj (List.cons.inj hm).2
        cases hes '.' List.mem_cons_self
    · rename_i more _ hm
      rw [← (List.cons.inj hm).2, htake', hdrop']
    · rename_i hm
      exact absurd rfl (hm _)

theorem beginsNumber_of_isDigit {c : Char} (h : c.isDigit = true) (rest : List Char) :
    beginsNumber (c :: rest) = true := by
  have hne : c ≠ '.' := by
    intro heq
    subst heq
    cases h
  unfold beginsNumber
  split
  · rename_i hm
    exact absurd (List.cons.inj hm).1 hne
  · rename_i hm
    rw [← (List.cons.inj hm).1]
    exact h
  · rename_i hm
    cases hm

theorem beginsNumber_append {cs : List Char} (h : IsNumber cs) (rest : List Char) :
    beginsNumber (cs ++ rest) = true := by
  rcases h with ⟨hsome, hall⟩ | ⟨ds, es, rfl, hsome, hds, hes⟩
  · cases cs with
    | nil => exact absurd rfl hsome
    | cons c cs => exact beginsNumber_of_isDigit (hall c List.mem_cons_self) _
  · cases ds with
    | cons c ds =>
      rw [List.cons_append, List.cons_append]
      exact beginsNumber_of_isDigit (hds c List.mem_cons_self) _
    | nil =>
      cases es with
      | nil => simp at hsome
      | cons e es => exact hes e List.mem_cons_self

namespace Token

/-- The spelling of a token is one that a text may have. -/
def Fits : Token → Prop
  | nameTest n => n.toList = ['*'] ∨ (∃ p, IsNCName p ∧ n.toList = p ++ [':', '*']) ∨ IsQName n.toList
  | functionName n => IsQName n.toList ∧ nodeTypes.contains n = false
  | variableName n => IsQName n.toList
  | number n => IsNumber n.toList
  | _ => True

/-- Words and the star, which are operators where no operand is due. -/
def isInfix : Token → Bool
  | operatorName _ | multiply => true
  | _ => false

end Token

theorem fits_classifyName {name : String} (h : IsQName name.toList) (rest : List Char) :
    (classifyName name rest).Fits ∧ (classifyName name rest).isInfix = false := by
  unfold classifyName
  split
  · split
    · exact ⟨trivial, rfl⟩
    · rename_i hn
      exact ⟨⟨h, by simpa using hn⟩, rfl⟩
  · exact ⟨trivial, rfl⟩
  · exact ⟨.inr (.inr h), rfl⟩

theorem fits_nameLexeme (operand : Bool) {c : Char} (rest : List Char) (h : isNameStart c = true) :
    (nameLexeme operand (c :: rest)).1.Fits
      ∧ (operand = true → (nameLexeme operand (c :: rest)).1.isInfix = false) := by
  have hfirst := isNCName_readName rest h
  have hname := isQName_readQName rest h
  unfold nameLexeme
  split
  rename_i first after hr
  rw [hr] at hfirst
  split
  · rename_i hop
    refine ⟨trivial, fun hoperand => ?_⟩
    rw [hoperand] at hop
    simp at hop
  · split
    · exact ⟨.inr (.inl ⟨first, hfirst, String.toList_ofList⟩), fun _ => rfl⟩
    · rw [← String.toList_ofList (l := (readQName (c :: rest)).1)] at hname
      obtain ⟨hfits, hword⟩ := fits_classifyName hname (readQName (c :: rest)).2
      exact ⟨hfits, fun _ => hword⟩

theorem signs_fit : ∀ e ∈ signs, e.2.value? = none ∧ e.2.isInfix = false := by decide

theorem Token.fits_of_value?_eq_none {t : Token} (h : t.value? = none) : t.Fits := by
  cases t <;> trivial

theorem fits_lexeme {operand : Bool} {c : Char} {rest after : List Char} {t : Token}
    (h : lexeme rule operand c rest = .ok (t, after)) :
    t.Fits ∧ (operand = true → t.isInfix = false) := by
  unfold lexeme at h
  split at h
  · rename_i hn
    cases h
    refine ⟨?_, fun _ => rfl⟩
    rw [Token.Fits, String.toList_ofList]
    exact isNumber_readNumber hn
  split at h
  · cases operand with
    | true =>
      cases h
      exact ⟨.inl rfl, fun _ => rfl⟩
    | false =>
      cases h
      exact ⟨trivial, fun hf => by cases hf⟩
  split at h
  · split at h
    · cases h
      exact ⟨trivial, fun _ => rfl⟩
    · cases h
  split at h
  · split at h
    · split at h
      · rename_i hd
        cases h
        refine ⟨?_, fun _ => rfl⟩
        rw [Token.Fits, String.toList_ofList]
        exact isQName_readQName _ hd
      · cases h
    · cases h
  split at h
  · rename_i hs
    have hfits := fits_nameLexeme operand rest hs
    rw [Except.ok.inj h] at hfits
    exact hfits
  · split at h
    · rename_i found hf
      cases h
      obtain ⟨spelling, hm, -⟩ := signLexeme_eq hf
      obtain ⟨hvalue, hword⟩ := signs_fit _ hm
      exact ⟨Token.fits_of_value?_eq_none hvalue, fun _ => hword⟩
    · cases h

/-- Tokens that a text may have: no operator stands where an operand is due. -/
structure Fit (ts : List Token) : Prop where
  each : ∀ t ∈ ts, t.Fits
  chain : ts.IsChain fun t u => t.allowsOperand = true → u.isInfix = false

theorem Fit.of_append {ts us : List Token} (h : Fit (ts ++ us)) : Fit ts ∧ Fit us := by
  obtain ⟨each, chain⟩ := h
  exact ⟨⟨fun t ht => each t (List.mem_append_left _ ht), chain.left_of_append⟩,
    ⟨fun t ht => each t (List.mem_append_right _ ht), chain.right_of_append⟩⟩

theorem Fit.of_cons {t : Token} {ts : List Token} (h : Fit (t :: ts)) : t.Fits ∧ Fit ts := by
  obtain ⟨first, more⟩ : Fit [t] ∧ Fit ts := Fit.of_append h
  exact ⟨first.each t List.mem_cons_self, more⟩

/-- Before an operator that could be a name stands no token that an operand follows. -/
theorem Fit.allowsOperand_eq_false {ts us : List Token} {t u : Token} (h : Fit (ts ++ u :: us))
    (ht : ts.getLast? = some t) (hu : u.isInfix = true) : t.allowsOperand = false := by
  have hrel := (List.isChain_append.mp h.chain).2.2 t ht u rfl
  cases hallows : t.allowsOperand with
  | false => rfl
  | true =>
    rw [hrel hallows] at hu
    cases hu

theorem Lexes.fits {operand : Bool} {cs : List Char} {ts : List Token} (h : Lexes rule operand cs ts) :
    Fit ts ∧ (operand = true → ∀ t ∈ ts.head?, t.isInfix = false) := by
  induction h with
  | done => exact ⟨⟨by simp, .nil⟩, by simp⟩
  | more _ hl _ ih =>
    obtain ⟨hfits, hword⟩ := fits_lexeme hl
    obtain ⟨hmore, hnext⟩ := ih
    refine ⟨⟨?_, hmore.chain.cons fun u hu hallows => hnext hallows u hu⟩, ?_⟩
    · intro u hu
      rcases List.mem_cons.mp hu with rfl | hu
      · exact hfits
      · exact hmore.each u hu
    · intro hoperand u heq
      cases heq
      exact hword hoperand

theorem skipBlanks_of_not_blank {c : Char} (h : isBlank c = false) (rest : List Char) :
    skipBlanks (c :: rest) = c :: rest := by
  unfold skipBlanks
  rw [List.dropWhile_cons_of_neg (by simp [h])]

theorem Lexes.token {o : Bool} {c : Char} {rest after : List Char} {t : Token} {ts : List Token}
    (hc : isBlank c = false) (hl : lexeme rule o c rest = .ok (t, after))
    (h : Lexes rule t.allowsOperand after ts) : Lexes rule o (c :: rest) (t :: ts) :=
  .more (skipBlanks_of_not_blank hc rest) hl h

/-- The characters that signs begin with. -/
def signStarts : List Char :=
  ['(', ')', '[', ']', ',', '|', '@', ':', '/', '.', '+', '-', '=', '!', '<', '>']

theorem signStarts_no_name : ∀ c ∈ signStarts,
    isNameStart c = false ∧ isBlank c = false ∧ c.isDigit = false ∧ c ≠ '*' ∧ c ≠ '\'' ∧ c ≠ '"' ∧ c ≠ '$' :=
  forall_of_all (by decide)

/-- A sign is spelled in characters that signs begin with. -/
theorem signs_of_signStarts : ∀ e ∈ signs, ∀ c ∈ e.1, c ∈ signStarts := by
  have hall : (signs.all fun e => e.1.all fun c => signStarts.contains c) = true := by decide
  intro e he c hc
  exact List.contains_iff_mem.mp (List.all_eq_true.mp (List.all_eq_true.mp hall e he) c hc)

theorem lexeme_sign {o : Bool} {c : Char} {rest : List Char} {found : Token × List Char}
    (hc : c ∈ signStarts) (hs : signLexeme signs (c :: rest) = some found)
    (hdot : c = '.' → ∀ d ∈ rest.head?, d.isDigit = false) :
    lexeme rule o c rest = .ok found := by
  obtain ⟨hname, -, hdigit, hstar, hquote, hquotes, hdollar⟩ := signStarts_no_name c hc
  have hnumber : beginsNumber (c :: rest) = false := by
    unfold beginsNumber
    split
    · rename_i d more hm
      obtain ⟨rfl, rfl⟩ := List.cons.inj hm
      exact hdot rfl d rfl
    · rename_i hm
      rw [← (List.cons.inj hm).1]
      exact hdigit
    · rename_i hm
      cases hm
  unfold lexeme
  rw [if_neg (by simp [hnumber]), if_neg hstar, if_neg (by simp [hquote, hquotes]), if_neg hdollar,
    if_neg (by simp [hname]), hs]

theorem signLexeme_slash {rest : List Char} (h : rest.head? ≠ some '/') :
    signLexeme signs ('/' :: rest) = some (.slash, rest) := by
  cases rest with
  | nil => rfl
  | cons c rest =>
    have hc : ('/' == c) = false := by
      rw [beq_eq_false_iff_ne]
      intro heq
      subst heq
      exact h rfl
    simp [signLexeme, signs, List.isPrefixOf?, hc]

theorem Lexes.sign {o : Bool} {c : Char} {rest after : List Char} {t : Token} {ts : List Token}
    (hc : c ∈ signStarts) (hs : signLexeme signs (c :: rest) = some (t, after))
    (hdot : c = '.' → ∀ d ∈ rest.head?, d.isDigit = false) (h : Lexes rule t.allowsOperand after ts) :
    Lexes rule o (c :: rest) (t :: ts) :=
  .token (signStarts_no_name c hc).2.1 (lexeme_sign hc hs hdot) h

namespace Lexes

variable {o : Bool} {rest : List Char} {ts : List Token}

theorem lparen (h : Lexes rule true rest ts) : Lexes rule o ('(' :: rest) (.lparen :: ts) :=
  .sign (by decide) rfl (by simp) h

theorem rparen (h : Lexes rule false rest ts) : Lexes rule o (')' :: rest) (.rparen :: ts) :=
  .sign (by decide) rfl (by simp) h

theorem lbracket (h : Lexes rule true rest ts) : Lexes rule o ('[' :: rest) (.lbracket :: ts) :=
  .sign (by decide) rfl (by simp) h

theorem rbracket (h : Lexes rule false rest ts) : Lexes rule o (']' :: rest) (.rbracket :: ts) :=
  .sign (by decide) rfl (by simp) h

theorem comma (h : Lexes rule true rest ts) : Lexes rule o (',' :: rest) (.comma :: ts) :=
  .sign (by decide) rfl (by simp) h

theorem pipe (h : Lexes rule true rest ts) : Lexes rule o ('|' :: rest) (.pipe :: ts) :=
  .sign (by decide) rfl (by simp) h

theorem atSign (h : Lexes rule true rest ts) : Lexes rule o ('@' :: rest) (.atSign :: ts) :=
  .sign (by decide) rfl (by simp) h

theorem colonColon (h : Lexes rule true rest ts) : Lexes rule o (':' :: ':' :: rest) (.colonColon :: ts) :=
  .sign (by decide) rfl (by simp) h

theorem minus (h : Lexes rule true rest ts) : Lexes rule o ('-' :: rest) (.minus :: ts) :=
  .sign (by decide) rfl (by simp) h

theorem doubleSlash (h : Lexes rule true rest ts) : Lexes rule o ('/' :: '/' :: rest) (.doubleSlash :: ts) :=
  .sign (by decide) rfl (by simp) h

theorem slash (hrest : rest.head? ≠ some '/') (h : Lexes rule true rest ts) :
    Lexes rule o ('/' :: rest) (.slash :: ts) :=
  .sign (by decide) (signLexeme_slash hrest) (by simp) h

theorem dotDot (h : Lexes rule false rest ts) : Lexes rule o ('.' :: '.' :: rest) (.dotDot :: ts) :=
  .sign (by decide) rfl (by intro _ d hd; cases hd; rfl) h

theorem dot (hrest : Apart rest) (h : Lexes rule false rest ts) : Lexes rule o ('.' :: rest) (.dot :: ts) := by
  refine .sign (by decide) ?_ (fun _ d hd => (separators_stop d (hrest.head d hd)).2.1) h
  cases rest with
  | nil => rfl
  | cons c rest =>
    have hc : ('.' == c) = false := by
      rw [beq_eq_false_iff_ne]
      exact (separators_stop c (hrest.head c rfl)).2.2.1.symm
    simp [signLexeme, signs, List.isPrefixOf?, hc]

theorem number {s : String} (hs : IsNumber s.toList) (hrest : Apart rest) (h : Lexes rule false rest ts) :
    Lexes rule o (s.toList ++ rest) (.number s :: ts) := by
  have hbegins := beginsNumber_append hs rest
  have hread := readNumber_append hs hrest
  cases hcs : s.toList ++ rest with
  | nil =>
    rw [hcs] at hbegins
    cases hbegins
  | cons c more =>
    rw [hcs] at hbegins hread
    have hblank : isBlank c = false := by
      unfold beginsNumber at hbegins
      split at hbegins
      · rename_i hm
        rw [(List.cons.inj hm).1]
        rfl
      · rename_i hm
        rw [← (List.cons.inj hm).1] at hbegins
        exact isBlank_eq_false_of_isDigit hbegins
      · cases hbegins
    refine .token hblank ?_ h
    unfold lexeme
    rw [if_pos hbegins, hread]
    simp only [String.ofList_toList]

theorem literal {q : Char} {v : List Char} (hq : q = '\'' ∨ q = '"') (hv : q ∉ v)
    (hrest : ∀ c ∈ rest.head?, c ≠ q) (h : Lexes rule false rest ts) :
    Lexes rule o (q :: (v ++ q :: rest)) (.literal (String.ofList v) :: ts) := by
  have hclose : closeLiteral rule q (v ++ q :: rest) = some (v, rest) := by
    induction v with
    | nil =>
      cases rest with
      | nil => simp [closeLiteral]
      | cons d rest => simp [closeLiteral, hrest d rfl]
    | cons c v ih =>
      obtain ⟨hc, hv⟩ := not_or.mp (List.mem_cons.not.mp hv)
      have htail := ih hv
      cases v with
      | nil => simp_all [closeLiteral, Ne.symm hc]
      | cons d v => simp_all [closeLiteral, Ne.symm hc]
  have hdigit : beginsNumber (q :: (v ++ q :: rest)) = false := by
    rcases hq with rfl | rfl <;> rfl
  have hstar : q ≠ '*' := by
    rcases hq with rfl | rfl <;> decide
  have hblank : isBlank q = false := by
    rcases hq with rfl | rfl <;> rfl
  refine .token hblank ?_ h
  unfold lexeme
  rw [if_neg (by simp [hdigit]), if_neg hstar, if_pos hq, hclose]

theorem named {c : Char} {more after : List Char} {t : Token} (hc : isNameStart c = true)
    (hl : nameLexeme o (c :: more) = (t, after)) (h : Lexes rule t.allowsOperand after ts) :
    Lexes rule o (c :: more) (t :: ts) := by
  refine .token (isBlank_eq_false_of_isNameStart hc) ?_ h
  have hne : ∀ d, isNameStart d = false → c ≠ d := by
    intro d hd heq
    subst heq
    rw [hc] at hd
    cases hd
  have hdigit : beginsNumber (c :: more) = false := by
    unfold beginsNumber
    split
    · rename_i hm
      exact absurd (List.cons.inj hm).1 (hne '.' (by decide))
    · rename_i hm
      rw [← (List.cons.inj hm).1]
      exact isDigit_eq_false_of_isNameStart hc
    · rename_i hm
      cases hm
  unfold lexeme
  rw [if_neg (by simp [hdigit]), if_neg (hne '*' (by decide)),
    if_neg (not_or.mpr ⟨hne '\'' (by decide), hne '"' (by decide +kernel)⟩),
    if_neg (hne '$' (by decide)), if_pos hc, hl]

theorem star_no_name : isNameChar '*' = false := by decide

theorem nameLexeme_append {cs : List Char} (hcs : IsQName cs) (hrest : EndsName rest) :
    nameLexeme true (cs ++ rest) = (classifyName (String.ofList cs) rest, rest) := by
  unfold nameLexeme
  rw [readQName_append hcs hrest]
  simp only [Bool.not_true, Bool.false_and, Bool.false_eq_true, if_false]
  split
  · rename_i after hafter
    -- a star behind the colon is neither what ends a name nor the second part of one
    rcases hcs with h | ⟨p, l, rfl, hp, c, more, rfl, hc, -⟩
    · rw [readName_append h.all hrest.1] at hafter
      exact absurd rfl (hrest.2 '*' after hafter).2
    · have hcolon : ∀ d ∈ (':' :: (c :: more ++ rest)).head?, isNameChar d = false := by
        intro d heq
        cases heq
        exact colon_no_name
      rw [List.append_assoc, List.cons_append, readName_append hp.all hcolon] at hafter
      simp only [List.cons_append, List.cons.injEq, true_and] at hafter
      have hname := isNameChar_of_isNameStart hc
      rw [hafter.1, star_no_name] at hname
      cases hname
  · rfl

theorem nameLexeme_wildcard (rest : List Char) {p : List Char} (hp : IsNCName p) :
    nameLexeme true (p ++ ':' :: '*' :: rest)
      = (.nameTest (String.ofList (p ++ [':', '*'])), rest) := by
  have hcolon : ∀ d ∈ (':' :: '*' :: rest).head?, isNameChar d = false := by
    intro d heq
    cases heq
    exact colon_no_name
  unfold nameLexeme
  rw [readName_append hp.all hcolon]
  rfl

/-- A full name, told by what follows it. -/
theorem name {n : String} {t : Token} (hn : IsQName n.toList) (hrest : EndsName rest)
    (ht : classifyName n rest = t) (h : Lexes rule t.allowsOperand rest ts) :
    Lexes rule true (n.toList ++ rest) (t :: ts) := by
  have hl := nameLexeme_append hn hrest
  rw [String.ofList_toList, ht] at hl
  obtain ⟨c, more, hcs, hc⟩ := hn.cons
  rw [hcs] at hl ⊢
  exact named hc hl h

theorem nameTest {n : String} (hn : (Token.nameTest n).Fits) (hrest : Apart rest)
    (h : Lexes rule false rest ts) : Lexes rule true (n.toList ++ rest) (.nameTest n :: ts) := by
  rcases hn with hstar | ⟨p, hp, hn⟩ | hn
  · rw [hstar, ← String.ofList_toList (s := n), hstar]
    refine .token (by decide) ?_ h
    rfl
  · have hl := nameLexeme_wildcard rest hp
    rw [← hn, String.ofList_toList] at hl
    obtain ⟨c, more, rfl, hc, hmore⟩ := hp
    rw [hn, List.append_assoc]
    exact named hc hl h
  · refine name hn hrest.endsName ?_ h
    unfold classifyName
    split
    · rename_i hp
      exact absurd rfl (hrest.next '(' (by rw [hp]; rfl)).1
    · rename_i hp
      exact absurd rfl (hrest.next ':' (by rw [hp]; rfl)).2
    · rfl

theorem endsName_lparen : EndsName ('(' :: rest) := by
  refine ⟨?_, by intro d more hx; cases hx⟩
  intro c heq
  cases heq
  decide

theorem functionName {n : String} (hn : (Token.functionName n).Fits) (h : Lexes rule false ('(' :: rest) ts) :
    Lexes rule true (n.toList ++ '(' :: rest) (.functionName n :: ts) := by
  refine name hn.1 endsName_lparen ?_ h
  have hnode := hn.2
  unfold classifyName
  rw [skipBlanks_of_not_blank (by decide)]
  simp only [hnode, Bool.false_eq_true, if_false]

theorem isQName_of_letters {cs : List Char} (h : (cs.head?.any isNameStart && cs.all isNameChar) = true) :
    IsQName cs := by
  cases cs with
  | nil => cases h
  | cons c cs =>
    simp only [List.head?_cons, Option.any_some, List.all_cons, Bool.and_eq_true, List.all_eq_true] at h
    exact .inl ⟨c, cs, rfl, h.1, h.2.2⟩

theorem nodeTypes_are_names : ∀ n ∈ nodeTypes, IsQName n.toList := by
  intro n hn
  simp only [nodeTypes, List.mem_cons, List.not_mem_nil, or_false] at hn
  rcases hn with rfl | rfl | rfl | rfl <;> exact isQName_of_letters (by decide)

theorem nodeType {n : String} (hn : n ∈ nodeTypes) (h : Lexes rule false ('(' :: rest) ts) :
    Lexes rule true (n.toList ++ '(' :: rest) (.nodeType n :: ts) := by
  refine name (nodeTypes_are_names n hn) endsName_lparen ?_ h
  unfold classifyName
  rw [skipBlanks_of_not_blank (by decide)]
  simp only [List.contains_iff_mem.mpr hn, if_true]

theorem axisName {n : String} (hn : IsQName n.toList) (h : Lexes rule false (':' :: ':' :: rest) ts) :
    Lexes rule true (n.toList ++ ':' :: ':' :: rest) (.axisName n :: ts) := by
  have hrest : EndsName (':' :: ':' :: rest) := by
    refine ⟨?_, ?_⟩
    · intro c heq
      cases heq
      exact colon_no_name
    · intro d more heq
      cases heq
      exact ⟨by decide, by decide⟩
  refine name hn hrest ?_ h
  unfold classifyName
  rw [skipBlanks_of_not_blank (by decide)]
  rfl

theorem variableName {n : String} (hn : (Token.variableName n).Fits) (hrest : Apart rest)
    (h : Lexes rule false rest ts) :
    Lexes rule o ('$' :: (n.toList ++ rest)) (.variableName n :: ts) := by
  have hread := readQName_append hn hrest.endsName
  obtain ⟨c, more, hcs, hc⟩ := IsQName.cons hn
  rw [hcs, List.cons_append] at hread ⊢
  refine .token (by decide) ?_ h
  have hl : lexeme rule o '$' (c :: (more ++ rest)) =
      if isNameStart c = true then
        .ok (.variableName (String.ofList (readQName (c :: (more ++ rest))).1),
          (readQName (c :: (more ++ rest))).2)
      else .error .missingVariableName := rfl
  rw [hl, if_pos hc, hread, ← hcs, String.ofList_toList]

end Lexes

end Schematron.XPath
