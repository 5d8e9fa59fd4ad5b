import Schematron.Text.Alphabetic
import Schematron.Text.Blank
import Schematron.Text.Reader
import Schematron.XPath.Token

namespace Schematron.XPath

open Schematron.Text (isBlank skipBlanks)

def isNameStart (c : Char) : Bool := Text.isAlphabetic c || c = '_'

def isNameChar (c : Char) : Bool :=
  Text.isAlphanumeric c || c = '_' || c = '-' || c = '.' || c = '\u00B7'

def byteLength (cs : List Char) : Nat := cs.foldr (fun c n => c.utf8Size + n) 0

/-- Whether a quote inside a literal may be written twice. -/
inductive QuoteRule where
  | doubled
  | plain
  deriving DecidableEq

/-- The value up to the closing quote, and what follows the quote. -/
def closeLiteral (rule : QuoteRule) (quote : Char) : List Char → Option (List Char × List Char)
  | [] => none
  | [c] => if c = quote then some ([], []) else none
  | c :: d :: rest =>
    if c = quote then
      if rule = .doubled ∧ d = quote then
        (closeLiteral rule quote rest).map fun (v, r) => (quote :: v, r)
      else some ([], d :: rest)
    else (closeLiteral rule quote (d :: rest)).map fun (v, r) => (c :: v, r)

/-- A point joins a number unless a second one follows it. -/
def readNumber (cs : List Char) : List Char × List Char :=
  let whole := cs.takeWhile Char.isDigit
  match cs.dropWhile Char.isDigit with
  | '.' :: '.' :: rest => (whole, '.' :: '.' :: rest)
  | '.' :: rest => (whole ++ '.' :: rest.takeWhile Char.isDigit, rest.dropWhile Char.isDigit)
  | rest => (whole, rest)

def readName (cs : List Char) : List Char × List Char :=
  (cs.takeWhile isNameChar, cs.dropWhile isNameChar)

/-- A name and, behind a colon that stands between the two, a second one. -/
def readQName (cs : List Char) : List Char × List Char :=
  let (first, rest) := readName cs
  match rest with
  | ':' :: c :: more =>
    if isNameStart c then
      let (second, after) := readName (c :: more)
      (first ++ ':' :: second, after)
    else (first, rest)
  | _ => (first, rest)

def operatorNames : List String :=
  ["and", "or", "div", "mod", "union", "eq", "ne", "lt", "le", "gt", "ge"]

def nodeTypes : List String := ["node", "text", "comment", "processing-instruction"]

/-- What a full name stands for is told by the next character that is not blank. -/
def classifyName (name : String) (rest : List Char) : Token :=
  match skipBlanks rest with
  | '(' :: _ => if nodeTypes.contains name then .nodeType name else .functionName name
  | ':' :: ':' :: _ => .axisName name
  | _ => .nameTest name

def nameLexeme (operand : Bool) (cs : List Char) : Token × List Char :=
  let (first, rest) := readName cs
  if !operand && operatorNames.contains (String.ofList first) then
    (.operatorName (String.ofList first), rest)
  else
    match rest with
    | ':' :: '*' :: after => (.nameTest (String.ofList (first ++ [':', '*'])), after)
    | _ =>
      let (name, after) := readQName cs
      (classifyName (String.ofList name) after, after)

/-- Spellings of the signs, each before its own beginnings. -/
def signs : List (List Char × Token) := [
  (['!', '='], .notEq), (['<', '='], .ltEq), (['>', '='], .gtEq), ([':', ':'], .colonColon),
  (['/', '/'], .doubleSlash), (['.', '.'], .dotDot),
  (['('], .lparen), ([')'], .rparen), (['['], .lbracket), ([']'], .rbracket), (['@'], .atSign),
  ([','], .comma), (['|'], .pipe), (['+'], .plus), (['-'], .minus), (['='], .eq), (['<'], .lt),
  (['>'], .gt), (['/'], .slash), (['.'], .dot)]

def signLexeme : List (List Char × Token) → List Char → Option (Token × List Char)
  | [], _ => none
  | (spelling, t) :: more, cs =>
    match spelling.isPrefixOf? cs with
    | some rest => some (t, rest)
    | none => signLexeme more cs

def beginsNumber : List Char → Bool
  | '.' :: d :: _ => d.isDigit
  | c :: _ => c.isDigit
  | [] => false

/-- The token at the front of a text that begins with `c`, and what follows it. -/
def lexeme (rule : QuoteRule) (operand : Bool) (c : Char) (rest : List Char) :
    Except SyntaxCause (Token × List Char) :=
  if beginsNumber (c :: rest) then
    let (spelling, after) := readNumber (c :: rest)
    .ok (.number (String.ofList spelling), after)
  else if c = '*' then .ok (if operand then .nameTest "*" else .multiply, rest)
  else if c = '\'' ∨ c = '"' then
    match closeLiteral rule c rest with
    | some (value, after) => .ok (.literal (String.ofList value), after)
    | none => .error .unterminatedLiteral
  else if c = '$' then
    match rest with
    | d :: _ =>
      if isNameStart d then
        let (name, after) := readQName rest
        .ok (.variableName (String.ofList name), after)
      else .error .missingVariableName
    | [] => .error .missingVariableName
  else if isNameStart c then .ok (nameLexeme operand (c :: rest))
  else
    match signLexeme signs (c :: rest) with
    | some found => .ok found
    | none => .error (.unexpectedCharacter c)

theorem closeLiteral_length {rule : QuoteRule} {quote : Char} {cs v r : List Char}
    (h : closeLiteral rule quote cs = some (v, r)) : r.length < cs.length := by
  fun_induction closeLiteral rule quote cs generalizing v with
  | case1 => simp at h
  | case2 => simp at h; simp [← h.2]
  | case3 => simp at h
  | case4 d rest hq ih =>
    simp only [Option.map_eq_some_iff, Prod.mk.injEq, Prod.exists] at h
    obtain ⟨w, s, hw, -, rfl⟩ := h
    have := ih hw
    simp only [List.length_cons]
    omega
  | case5 d rest hq => simp at h; simp [← h.2]
  | case6 c d rest hc ih =>
    simp only [Option.map_eq_some_iff, Prod.mk.injEq, Prod.exists] at h
    obtain ⟨w, s, hw, -, rfl⟩ := h
    have := ih hw
    simp only [List.length_cons] at this ⊢
    omega

theorem length_dropWhile_of_head {p : Char → Bool} {c : Char} (rest : List Char) (h : p c = true) :
    ((c :: rest).dropWhile p).length ≤ rest.length := by
  rw [List.dropWhile_cons_of_pos h]
  exact Text.length_dropWhile_le p rest

theorem isNameChar_of_isNameStart {c : Char} (h : isNameStart c = true) : isNameChar c = true := by
  unfold isNameStart at h
  unfold isNameChar Text.isAlphanumeric
  simp only [Bool.or_eq_true] at h ⊢
  rcases h with h | h
  · exact .inl (.inl (.inl (.inl (.inl h))))
  · exact .inl (.inl (.inl (.inr h)))

theorem readName_length {c : Char} (rest : List Char) (h : isNameChar c = true) :
    (readName (c :: rest)).2.length ≤ rest.length :=
  length_dropWhile_of_head rest h

theorem readName_length_le (cs : List Char) : (readName cs).2.length ≤ cs.length :=
  Text.length_dropWhile_le isNameChar cs

theorem readQName_length_le (cs : List Char) : (readQName cs).2.length ≤ (readName cs).2.length := by
  unfold readQName
  split
  rename_i first rest hr
  simp only [hr]
  split
  · rename_i c more
    split
    · have := readName_length_le (c :: more)
      simp only [List.length_cons] at this ⊢
      omega
    · simp
  · exact Nat.le_refl _

theorem readNumber_length {c : Char} {rest : List Char} (h : beginsNumber (c :: rest) = true) :
    (readNumber (c :: rest)).2.length ≤ rest.length := by
  have hd := Text.length_dropWhile_le Char.isDigit (c :: rest)
  by_cases hc : c.isDigit = true
  · have hlen := length_dropWhile_of_head rest hc
    unfold readNumber
    split
    · rename_i more hm
      rw [hm] at hlen
      exact hlen
    · rename_i more _ hm
      rw [hm] at hlen
      have := Text.length_dropWhile_le Char.isDigit more
      simp only [List.length_cons] at hlen ⊢
      omega
    · exact hlen
  · have hdot : c = '.' := by
      unfold beginsNumber at h
      split at h
      · simp_all
      · simp_all
      · simp_all
    subst hdot
    unfold readNumber
    simp only [List.dropWhile_cons_of_neg hc]
    split
    · rename_i more hm
      simp only [List.cons.injEq, true_and] at hm
      simp [beginsNumber, hm] at h
    · rename_i more _ hm
      simp only [List.cons.injEq, true_and] at hm
      subst hm
      exact Text.length_dropWhile_le _ _
    · rename_i hm
      exact absurd rfl (hm rest)

theorem nameLexeme_length (operand : Bool) {c : Char} (rest : List Char) (h : isNameStart c = true) :
    (nameLexeme operand (c :: rest)).2.length ≤ rest.length := by
  have hn := readName_length rest (isNameChar_of_isNameStart h)
  have hq := readQName_length_le (c :: rest)
  unfold nameLexeme
  split
  rename_i first after hr
  rw [hr] at hn hq
  simp only at hn hq
  split
  · exact hn
  · split
    · simp only [List.length_cons] at hn ⊢
      omega
    · simp only
      omega

theorem signLexeme_eq {table : List (List Char × Token)} {cs rest : List Char} {t : Token}
    (h : signLexeme table cs = some (t, rest)) :
    ∃ spelling, (spelling, t) ∈ table ∧ cs = spelling ++ rest := by
  induction table with
  | nil => simp [signLexeme] at h
  | cons entry more ih =>
    obtain ⟨spelling, u⟩ := entry
    unfold signLexeme at h
    split at h
    · rename_i r hp
      simp only [Option.some.injEq, Prod.mk.injEq] at h
      obtain ⟨rfl, rfl⟩ := h
      exact ⟨spelling, List.mem_cons_self, Reader.eq_append_of_isPrefixOf? hp⟩
    · obtain ⟨s, hs, hcs⟩ := ih h
      exact ⟨s, List.mem_cons_of_mem _ hs, hcs⟩

theorem signs_spelled : ∀ e ∈ signs, e.1 ≠ [] := by decide

/-- A token takes at least one character. -/
theorem lexeme_length {rule : QuoteRule} {operand : Bool} {c : Char} {rest after : List Char} {t : Token}
    (h : lexeme rule operand c rest = .ok (t, after)) : after.length ≤ rest.length := by
  unfold lexeme at h
  split at h
  · rename_i hn
    have := readNumber_length hn
    simp only [Except.ok.injEq, Prod.mk.injEq] at h
    rw [← h.2]
    exact this
  split at h
  · simp only [Except.ok.injEq, Prod.mk.injEq] at h
    exact Nat.le_of_eq (congrArg List.length h.2.symm)
  split at h
  · split at h
    · rename_i hl
      simp only [Except.ok.injEq, Prod.mk.injEq] at h
      have := closeLiteral_length hl
      rw [← h.2]
      omega
    · simp at h
  split at h
  · split at h
    · split at h
      · simp only [Except.ok.injEq, Prod.mk.injEq] at h
        rw [← h.2]
        exact Nat.le_trans (readQName_length_le _) (readName_length_le _)
      · simp at h
    · simp at h
  split at h
  · rename_i hs
    have := nameLexeme_length operand rest hs
    simp only [Except.ok.injEq] at h
    rw [h] at this
    exact this
  split at h
  · rename_i found hf
    simp only [Except.ok.injEq] at h
    subst h
    obtain ⟨spelling, hm, hcs⟩ := signLexeme_eq hf
    have hne := signs_spelled _ hm
    have hl := congrArg List.length hcs
    have : 0 < spelling.length := List.length_pos_iff.mpr hne
    simp only [List.length_cons, List.length_append] at hl
    omega
  · simp at h

end Schematron.XPath
