import Mathlib.Tactic.SplitIfs
import Schematron.Proofs.Splitting
import Schematron.Proofs.XPath.Lexing
import Schematron.Proofs.XPath.Syntax
import Schematron.XPath.Printer

/-!
The tokens of the text that an expression is printed as.
-/

namespace Schematron.XPath

open Schematron.Text (isBlank skipBlanks)

variable {rule : QuoteRule}

namespace Expr

mutual
/-- An expression where comparisons by order go through `compareFunction`, as its text has them. -/
def compared (comparisons : Bool) : Expr → Expr
  | literal value => literal value
  | number spelling => number spelling
  | variableRef name => variableRef name
  | call name args => call name (comparedAll comparisons args)
  | negate e => negate (compared comparisons e)
  | binary op a b =>
    let left := compared comparisons a
    let right := compared comparisons b
    if comparisons && needsCompare op a b then
      binary op (call compareFunction [left, right]) (number "0")
    else binary op left right
  | union a b => union (compared comparisons a) (compared comparisons b)
  | group e => group (compared comparisons e)
  | sequence items => sequence (comparedAll comparisons items)
  | filter e preds => filter (compared comparisons e) (comparedAll comparisons preds)
  | absolute steps => absolute (comparedSteps comparisons steps)
  | relative steps => relative (comparedSteps comparisons steps)
  | continued e steps => continued (compared comparisons e) (comparedSteps comparisons steps)

def comparedAll (comparisons : Bool) : List Expr → List Expr
  | [] => []
  | e :: es => compared comparisons e :: comparedAll comparisons es

def comparedSteps (comparisons : Bool) : List (Step Expr) → List (Step Expr)
  | [] => []
  | ⟨axis, test, preds⟩ :: steps =>
    ⟨axis, test, comparedAll comparisons preds⟩ :: comparedSteps comparisons steps
end

/-- The text of an expression ends in the slash of a root, behind which a step could stand. -/
def endsBare : Expr → Bool
  | absolute [] => true
  | negate e => e.endsBare
  | binary _ _ b | union _ b => b.endsBare
  | _ => false

end Expr

def BinaryOp.token : BinaryOp → Token
  | or => .operatorName "or"
  | and => .operatorName "and"
  | eq => .eq
  | notEq => .notEq
  | lt => .lt
  | ltEq => .ltEq
  | gt => .gt
  | gtEq => .gtEq
  | add => .plus
  | sub => .minus
  | mul => .multiply
  | div => .operatorName "div"
  | mod => .operatorName "mod"

/-- Pieces of a text that apostrophes join. -/
def spellPieces : List String → List Token
  | [] => []
  | [p] => [.literal p]
  | p :: q :: more => .literal p :: .comma :: .literal "'" :: .comma :: spellPieces (q :: more)

def spellLiteral (value : String) : List Token :=
  if !value.toList.contains '\'' || !value.toList.contains '"' then [.literal value]
  else .functionName "concat" :: .lparen :: (spellPieces (Text.pieces '\'' value) ++ [.rparen])

def NodeTest.tokens : NodeTest → List Token
  | .wildcard => [.nameTest "*"]
  | .wildcardIn p => [.nameTest (p ++ ":*")]
  | .name n => [.nameTest n]
  | .node => [.nodeType "node", .lparen, .rparen]
  | .text => [.nodeType "text", .lparen, .rparen]
  | .comment => [.nodeType "comment", .lparen, .rparen]
  | .instruction none => [.nodeType "processing-instruction", .lparen, .rparen]
  | .instruction (some target) =>
    .nodeType "processing-instruction" :: .lparen :: (spellLiteral target ++ [.rparen])

def spellHead (axis : Axis) (test : NodeTest) (bare : Bool) : List Token :=
  match axis, test with
  | .self, .node => if bare then [.dot] else .axisName "self" :: .colonColon :: NodeTest.tokens .node
  | .parent, .node => if bare then [.dotDot] else .axisName "parent" :: .colonColon :: NodeTest.tokens .node
  | .child, t => t.tokens
  | .attributes, t => .atSign :: t.tokens
  | a, t => .axisName a.name :: .colonColon :: t.tokens

/-- A run of slashes; two of them are one token. -/
def slashes : Nat → List Token
  | 0 => []
  | 1 => [.slash]
  | n + 2 => .doubleSlash :: slashes n

mutual
/-- The tokens of the text of an expression. -/
def spell : Expr → List Token
  | .literal value => spellLiteral value
  | .number spelling => [.number spelling]
  | .variableRef name => [.variableName name]
  | .call name args => .functionName name :: .lparen :: (spellAll .comma args ++ [.rparen])
  | .negate e => .minus :: spell e
  | .binary op a b => spell a ++ op.token :: spell b
  | .union a b => spell a ++ .pipe :: spell b
  | .group e => .lparen :: (spell e ++ [.rparen])
  | .sequence [] => [.slash, .dotDot]
  | .sequence (e :: es) => .lparen :: (spell e ++ (spellMore .pipe es ++ [.rparen]))
  | .filter e preds => spell e ++ spellPredicates preds
  | .absolute steps => spellSteps 1 steps
  | .relative steps => spellSteps 0 steps
  | .continued e steps => spell e ++ spellSteps 1 steps

/-- Expressions with `sep` between them. -/
def spellAll (sep : Token) : List Expr → List Token
  | [] => []
  | e :: es => spell e ++ spellMore sep es

/-- Expressions with `sep` before each. -/
def spellMore (sep : Token) : List Expr → List Token
  | [] => []
  | e :: es => sep :: (spell e ++ spellMore sep es)

def spellPredicates : List Expr → List Token
  | [] => []
  | e :: es => .lbracket :: (spell e ++ .rbracket :: spellPredicates es)

/-- Steps behind `pending` slashes. -/
def spellSteps (pending : Nat) : List (Step Expr) → List Token
  | [] => slashes pending
  | ⟨axis, test, preds⟩ :: rest =>
    if !rest.isEmpty && 0 < pending && Step.isDescendantOrSelf ⟨axis, test, preds⟩ then
      spellSteps (pending + 1) rest
    else
      slashes pending ++ (spellHead axis test preds.isEmpty ++
        (spellPredicates preds ++ if rest.isEmpty then [] else spellSteps 1 rest))
end

namespace Lexes

variable {o : Bool} {rest : List Char} {ts : List Token}

/-- The text does not go on with a slash where its next token is none. -/
theorem head_ne_slash {cs : List Char} {t : Token} (h : Lexes rule o cs (t :: ts))
    (ht : Grammar.stepOp t = none) : cs.head? ≠ some '/' := by
  intro hcs
  cases cs with
  | nil => cases hcs
  | cons c cs =>
    cases hcs
    cases h with
    | more hskip hl _ =>
      rw [skipBlanks_of_not_blank (by decide)] at hskip
      cases hskip
      by_cases hnext : cs.head? = some '/'
      · cases cs with
        | nil => cases hnext
        | cons d cs =>
          cases hnext
          cases hl
          cases ht
      · rw [lexeme_sign (by decide) (signLexeme_slash hnext) (by simp)] at hl
        cases hl
        cases ht

theorem slashes {n : Nat} {cs : List Char} (hcs : cs.head? ≠ some '/') (hn : n = 0 → o = true)
    (h : Lexes rule true cs ts) :
    Lexes rule o (List.replicate n '/' ++ cs) (XPath.slashes n ++ ts) := by
  induction n using Nat.twoStepInduction generalizing o with
  | zero => exact hn rfl ▸ h
  | one => exact .slash hcs h
  | more n ih _ => exact .doubleSlash (ih fun _ => rfl)

/-- A text without apostrophes between apostrophes, or without double quotes between those. -/
theorem quoted {q : Char} {v : String} (hq : q = '\'' ∨ q = '"') (hv : q ∉ v.toList)
    (hrest : ∀ c ∈ rest.head?, c ≠ q) (h : Lexes rule false rest ts) :
    Lexes rule o (q :: (v.toList ++ q :: rest)) (.literal v :: ts) := by
  have hl := Lexes.literal (o := o) hq hv hrest h
  rwa [String.ofList_toList] at hl

end Lexes

theorem apart_rparen (rest : List Char) : Apart (')' :: rest) :=
  apart_cons (by decide) (by decide)

theorem lexes_spellPieces {ps : List String} (hps : ∀ p ∈ ps, '\'' ∉ p.toList) (hne : ps ≠ [])
    {rest : List Char} {ts : List Token} (h : Lexes rule false (')' :: rest) ts) :
    Lexes rule true ((", \"'\", ".intercalate (ps.map fun p => "'" ++ p ++ "'")).toList ++ ')' :: rest)
      (spellPieces ps ++ ts) := by
  induction ps with
  | nil => exact absurd rfl hne
  | cons p ps ih =>
    have hp := hps p List.mem_cons_self
    cases ps with
    | nil =>
      have hquoted := Lexes.quoted (o := true) (.inl rfl) hp (by intro c hx; cases hx; decide) h
      simpa [spellPieces] using hquoted
    | cons q more =>
      have htail := ih (fun r hr => hps r (List.mem_cons_of_mem _ hr)) (by simp)
      have hcomma : Lexes rule false (", ".toList ++ ((", \"'\", ".intercalate ((q :: more).map fun p => "'" ++ p ++ "'")).toList
          ++ ')' :: rest)) (.comma :: (spellPieces (q :: more) ++ ts)) := .comma htail.blank
      have happ := Lexes.quoted (o := true) (q := '"') (v := "'") (.inr rfl) (by decide)
        (by intro c hx; cases hx; decide) hcomma
      have hjoin : Lexes rule false (", \"'".toList ++ '"' :: _) _ := .comma happ.blank
      have hquoted := Lexes.quoted (o := true) (.inl rfl) hp (by intro c hx; cases hx; decide) hjoin
      simpa [spellPieces, String.intercalate_cons_cons] using hquoted

theorem fits_concat : (Token.functionName "concat").Fits :=
  ⟨Lexes.isQName_of_letters (by decide), by decide⟩

theorem lexes_spellLiteral (value : String) {rest : List Char} {ts : List Token} (hrest : Apart rest)
    (h : Lexes rule false rest ts) :
    Lexes rule true ((quoteLiteral value).toList ++ rest) (spellLiteral value ++ ts) := by
  have hstop := fun c hc => separators_stop c (hrest.head c hc)
  unfold quoteLiteral spellLiteral
  by_cases hquote : '\'' ∈ value.toList
  · by_cases hquotes : '"' ∈ value.toList
    · have hparts : ∀ p ∈ Text.pieces '\'' value, '\'' ∉ p.toList := fun p hp => Text.notMem_of_mem_pieces hp
      have hpieces := lexes_spellPieces hparts (Text.pieces_ne_nil _ _) h.rparen
      have hcall := Lexes.functionName fits_concat hpieces.lparen
      simpa [hquote, hquotes] using hcall
    · have hquoted := Lexes.quoted (o := true) (.inr rfl) hquotes
        (fun c hc => (hstop c hc).2.2.2.2.2) h
      simpa [hquote, hquotes] using hquoted
  · have hquoted := Lexes.quoted (o := true) (.inl rfl) hquote
      (fun c hc => (hstop c hc).2.2.2.2.1) h
    simpa [hquote] using hquoted

/-- The name in a node test is one that a text may have. -/
def NodeTest.Fits : NodeTest → Prop
  | .wildcardIn p => (Token.nameTest (p ++ ":*")).Fits
  | .name n => (Token.nameTest n).Fits
  | _ => True

/-- A name stands for the test that is spelled as it. -/
theorem nameTest_eq (n : String) :
    Grammar.nameTest n = .wildcard ∧ n = "*"
      ∨ (∃ p, Grammar.nameTest n = .wildcardIn p ∧ n = p ++ ":*") ∨ Grammar.nameTest n = .name n := by
  unfold Grammar.nameTest
  split
  · rename_i h
    exact .inl ⟨rfl, h⟩
  · split
    · rename_i p hp
      refine .inr (.inl ⟨_, rfl, ?_⟩)
      have hn := congrArg List.reverse hp
      rw [List.reverse_reverse] at hn
      rw [← String.ofList_toList (s := n), hn]
      simp
    · exact .inr (.inr rfl)

theorem nameTest_tokens (n : String) : (Grammar.nameTest n).tokens = [.nameTest n] := by
  rcases nameTest_eq n with ⟨h, rfl⟩ | ⟨p, h, rfl⟩ | h <;> rw [h] <;> rfl

theorem fits_nameTest {n : String} (h : (Token.nameTest n).Fits) : (Grammar.nameTest n).Fits := by
  rcases nameTest_eq n with ⟨hn, rfl⟩ | ⟨p, hn, rfl⟩ | hn <;> rw [hn]
  · trivial
  · exact h
  · exact h

theorem lexes_test {test : NodeTest} (hfits : test.Fits) {rest : List Char} {ts : List Token}
    (hrest : Apart rest) (h : Lexes rule false rest ts) :
    Lexes rule true (test.spelled.toList ++ rest) (test.tokens ++ ts) := by
  cases test with
  | wildcard => exact .nameTest (.inl rfl) hrest h
  | wildcardIn p => exact .nameTest hfits hrest h
  | name n => exact .nameTest hfits hrest h
  | node =>
    have htest := Lexes.nodeType (n := "node") (by simp [nodeTypes]) h.rparen.lparen
    show Lexes rule true ("node()".toList ++ rest) (.nodeType "node" :: .lparen :: .rparen :: ts)
    simpa using htest
  | text =>
    have htest := Lexes.nodeType (n := "text") (by simp [nodeTypes]) h.rparen.lparen
    show Lexes rule true ("text()".toList ++ rest) (.nodeType "text" :: .lparen :: .rparen :: ts)
    simpa using htest
  | comment =>
    have htest := Lexes.nodeType (n := "comment") (by simp [nodeTypes]) h.rparen.lparen
    show Lexes rule true ("comment()".toList ++ rest) (.nodeType "comment" :: .lparen :: .rparen :: ts)
    simpa using htest
  | instruction target =>
    cases target with
    | none =>
      have htest := Lexes.nodeType (n := "processing-instruction") (by simp [nodeTypes]) h.rparen.lparen
      show Lexes rule true ("processing-instruction()".toList ++ rest)
        (.nodeType "processing-instruction" :: .lparen :: .rparen :: ts)
      simpa using htest
    | some value =>
      have hvalue := lexes_spellLiteral value (apart_rparen rest) h.rparen
      have htest := Lexes.nodeType (n := "processing-instruction") (by simp [nodeTypes]) hvalue.lparen
      show Lexes rule true (("processing-instruction(" ++ quoteLiteral value ++ ")").toList ++ rest)
        (.nodeType "processing-instruction" :: .lparen :: (spellLiteral value ++ [.rparen]) ++ ts)
      simpa using htest

theorem axis_names (a : Axis) : IsQName a.name.toList := by
  cases a <;> exact Lexes.isQName_of_letters (by decide)

theorem lexes_axis (a : Axis) {test : NodeTest} (hfits : test.Fits) {rest : List Char} {ts : List Token}
    (hrest : Apart rest) (h : Lexes rule false rest ts) :
    Lexes rule true ((a.name ++ "::" ++ test.spelled).toList ++ rest)
      (.axisName a.name :: .colonColon :: (test.tokens ++ ts)) := by
  have haxis := Lexes.axisName (axis_names a) (lexes_test hfits hrest h).colonColon
  simpa using haxis

theorem lexes_head (a : Axis) {test : NodeTest} (bare : Bool) (hfits : test.Fits) {rest : List Char}
    {ts : List Token} (hrest : Apart rest) (h : Lexes rule false rest ts) :
    Lexes rule true ((stepHead a test bare).toList ++ rest) (spellHead a test bare ++ ts) := by
  have hgeneral := lexes_axis a hfits hrest h
  cases a
  case self =>
    cases test
    case node =>
      cases bare with
      | true => exact .dot hrest h
      | false => exact hgeneral
    all_goals exact hgeneral
  case parent =>
    cases test
    case node =>
      cases bare with
      | true => exact .dotDot h
      | false => exact hgeneral
    all_goals exact hgeneral
  case child => exact lexes_test hfits hrest h
  case attributes =>
    have hat := Lexes.atSign (o := true) (lexes_test hfits hrest h)
    simpa [stepHead, spellHead] using hat
  all_goals exact hgeneral

theorem operatorNames_are_names : ∀ w ∈ operatorNames,
    w.toList.all isNameChar = true ∧ w.toList.head?.any isNameStart = true := by
  decide

theorem lexes_word {w : String} (hw : w ∈ operatorNames) {rest : List Char} {ts : List Token}
    (h : Lexes rule true rest ts) : Lexes rule false (w.toList ++ ' ' :: rest) (.operatorName w :: ts) := by
  obtain ⟨hall, hhead⟩ := operatorNames_are_names w hw
  have hspace : ∀ c ∈ (' ' :: rest).head?, isNameChar c = false := by
    intro c heq
    cases heq
    decide
  have hl : nameLexeme false (w.toList ++ ' ' :: rest) = (.operatorName w, ' ' :: rest) := by
    unfold nameLexeme
    rw [readName_append (List.all_eq_true.mp hall) hspace]
    simp only [String.ofList_toList, Bool.not_false, Bool.true_and, List.contains_iff_mem.mpr hw, if_true]
  cases hcs : w.toList with
  | nil =>
    rw [hcs] at hhead
    cases hhead
  | cons c more =>
    rw [hcs] at hhead hl
    exact .named hhead hl h.blank

/-- An operator between blanks. A word and the star are operators only where no operand is due. -/
theorem lexes_operator (op : BinaryOp) {o : Bool} (hop : op.token.isInfix = true → o = false)
    {rest : List Char} {ts : List Token} (h : Lexes rule true rest ts) :
    Lexes rule o ((" " ++ op.symbol ++ " ").toList ++ rest) (op.token :: ts) := by
  have hword : ∀ w, w ∈ operatorNames → o = false →
      Lexes rule o ((" " ++ w ++ " ").toList ++ rest) (.operatorName w :: ts) := by
    intro w hw heq
    subst heq
    simpa using (lexes_word hw h).blank
  have hsign : ∀ (w : String) (c : Char) (more : List Char) (t : Token), w.toList = c :: more →
      c ∈ signStarts → c ≠ '.' → t.allowsOperand = true →
      signLexeme signs (c :: (more ++ ' ' :: rest)) = some (t, ' ' :: rest) →
      Lexes rule o ((" " ++ w ++ " ").toList ++ rest) (t :: ts) := by
    intro w c more t hw hc hdot ht hl
    have hnext : Lexes rule t.allowsOperand (' ' :: rest) ts := ht ▸ h.blank
    have hsign := Lexes.sign (o := o) hc hl (fun hd => absurd hd hdot) hnext
    simpa [hw] using hsign.blank
  cases op
  case or => exact hword "or" (by simp [operatorNames]) (hop rfl)
  case and => exact hword "and" (by simp [operatorNames]) (hop rfl)
  case div => exact hword "div" (by simp [operatorNames]) (hop rfl)
  case mod => exact hword "mod" (by simp [operatorNames]) (hop rfl)
  case mul =>
    rw [hop rfl]
    exact .blank (.token (by decide) rfl h.blank)
  case eq => exact hsign "=" '=' [] .eq rfl (by decide) (by decide) rfl rfl
  case notEq => exact hsign "!=" '!' ['='] .notEq rfl (by decide) (by decide) rfl rfl
  case lt => exact hsign "<" '<' [] .lt rfl (by decide) (by decide) rfl rfl
  case ltEq => exact hsign "<=" '<' ['='] .ltEq rfl (by decide) (by decide) rfl rfl
  case gt => exact hsign ">" '>' [] .gt rfl (by decide) (by decide) rfl rfl
  case gtEq => exact hsign ">=" '>' ['='] .gtEq rfl (by decide) (by decide) rfl rfl
  case add => exact hsign "+" '+' [] .plus rfl (by decide) (by decide) rfl rfl
  case sub => exact hsign "-" '-' [] .minus rfl (by decide) (by decide) rfl rfl

theorem apart_blank {c : Char} (hblank : isBlank c = false) (hparen : c ≠ '(') (hcolon : c ≠ ':')
    (rest : List Char) : Apart (' ' :: c :: rest) where
  head := by
    intro d heq
    cases heq
    decide
  next := by
    have hskip : skipBlanks (' ' :: c :: rest) = c :: rest := by
      unfold skipBlanks
      rw [List.dropWhile_cons_of_pos (by decide), List.dropWhile_cons_of_neg (by simp [hblank])]
    rw [hskip]
    intro d heq
    cases heq
    exact ⟨hparen, hcolon⟩

theorem apart_operator (op : BinaryOp) (rest : List Char) :
    Apart ((" " ++ op.symbol ++ " ").toList ++ rest) := by
  obtain ⟨c, more, hsymbol, hblank, hparen, hcolon⟩ : ∃ c more, op.symbol.toList = c :: more ∧
      isBlank c = false ∧ c ≠ '(' ∧ c ≠ ':' := by
    cases op <;> exact ⟨_, _, rfl, by decide, by decide, by decide⟩
  have hapart := apart_blank hblank hparen hcolon (more ++ ' ' :: rest)
  simpa [hsymbol] using hapart

open Schematron.XPath.Expr (compared comparedAll comparedSteps)

attribute [local simp] compared comparedAll comparedSteps Expr.endsBare emit emitAll emitPredicates
  emitSteps spell spellAll spellMore spellPredicates spellSteps

section

variable (rule) (comparisons : Bool)

/-- The text of an expression has the tokens of the expression, whatever follows it that is no more of
it. -/
def Written (e : Expr) : Prop :=
  ∀ rest ts, Apart rest → ((compared comparisons e).endsBare = true → rest.head? ≠ some '/') →
    Lexes rule (compared comparisons e).endsBare rest ts →
    Lexes rule true ((emit comparisons e).toList ++ rest) (spell (compared comparisons e) ++ ts)

def WrittenPredicates (es : List Expr) : Prop :=
  ∀ rest ts, Lexes rule false rest ts →
    Lexes rule false ((emitPredicates comparisons es).toList ++ rest)
      (spellPredicates (comparedAll comparisons es) ++ ts)

/-- What stands between two of a row of expressions. -/
def separator : Token → String
  | .comma => ", "
  | _ => " | "

/-- Expressions with commas, or with bars, between them. -/
def WrittenItems (es : List Expr) : Prop :=
  es ≠ [] ∧ ∀ sep rest ts, sep = .comma ∨ sep = .pipe → Apart rest → rest.head? ≠ some '/' →
    (∀ operand, Lexes rule operand rest ts) →
    Lexes rule true (((separator sep).intercalate (emitAll comparisons es)).toList ++ rest)
      (spellAll sep (comparedAll comparisons es) ++ ts)

/-- The joint behind so many slashes. -/
def jointAt : Nat → Joint
  | 0 => .start
  | _ + 1 => .slash

theorem jointAt_one : jointAt 1 = .slash := rfl

/-- Steps behind any number of slashes that are written already. -/
def WrittenSteps (ss : List (Step Expr)) : Prop :=
  ss ≠ [] ∧ ∀ n operand rest ts, (n = 0 → operand = true) → Apart rest → Lexes rule false rest ts →
    Lexes rule operand (List.replicate n '/' ++ ((emitSteps comparisons (jointAt n) ss).toList ++ rest))
      (spellSteps n (comparedSteps comparisons ss) ++ ts)

variable {rule comparisons}

theorem Written.of_eq {e : Expr} (hc : compared comparisons e = e) (hb : e.endsBare = false)
    (h : ∀ rest ts, Apart rest → Lexes rule false rest ts →
      Lexes rule true ((emit comparisons e).toList ++ rest) (spell e ++ ts)) : Written rule comparisons e := by
  intro rest ts hrest _ hl
  rw [hc, hb] at hl
  rw [hc]
  exact h rest ts hrest hl

theorem written_literal (value : String) : Written rule comparisons (.literal value) :=
  .of_eq rfl rfl fun _ _ hrest hl => lexes_spellLiteral value hrest hl

theorem written_number {spelling : String} (h : (Token.number spelling).Fits) :
    Written rule comparisons (.number spelling) :=
  .of_eq rfl rfl fun _ _ hrest hl => .number h hrest hl

theorem written_variableRef {name : String} (h : (Token.variableName name).Fits) :
    Written rule comparisons (.variableRef name) := by
  refine .of_eq rfl rfl fun rest ts hrest hl => ?_
  have hvariable := Lexes.variableName (o := true) h hrest hl
  simpa using hvariable

/-- What stands between the parentheses of a call. -/
def WrittenArguments (rule : QuoteRule) (comparisons : Bool) (args : List Expr) : Prop :=
  ∀ rest ts, Lexes rule false rest ts →
    Lexes rule true ((", ".intercalate (emitAll comparisons args)).toList ++ ')' :: rest)
      (spellAll .comma (comparedAll comparisons args) ++ .rparen :: ts)

theorem writtenArguments_nil : WrittenArguments rule comparisons [] := by
  intro rest ts hl
  simpa using hl.rparen

theorem WrittenItems.arguments {es : List Expr} (h : WrittenItems rule comparisons es) :
    WrittenArguments rule comparisons es := fun rest _ hl =>
  h.2 .comma _ _ (.inl rfl) (apart_rparen rest) (by simp) fun _ => hl.rparen

theorem written_call {name : String} {args : List Expr} (hname : (Token.functionName name).Fits)
    (h : WrittenArguments rule comparisons args) : Written rule comparisons (.call name args) := by
  intro rest ts _ _ hl
  have hcall := Lexes.functionName hname (h rest ts hl).lparen
  simpa using hcall

theorem written_negate {e : Expr} (h : Written rule comparisons e) : Written rule comparisons (.negate e) := by
  intro rest ts hrest hslash hl
  have hminus := Lexes.minus (o := true) (h rest ts hrest hslash hl)
  simpa using hminus

theorem fits_compareFunction : (Token.functionName compareFunction).Fits :=
  ⟨Lexes.isQName_of_letters (by decide), by decide⟩

theorem written_binary {op : BinaryOp} {a b : Expr} (ha : Written rule comparisons a)
    (hb : Written rule comparisons b)
    (hop : op.token.isInfix = true → (compared comparisons a).endsBare = false) :
    Written rule comparisons (.binary op a b) := by
  intro rest ts hrest hslash hl
  cases hc : (comparisons && needsCompare op a b) with
  | true =>
    simp only [compared, hc, if_true, Expr.endsBare] at hl ⊢
    have hzero := Lexes.number (o := true) (s := "0") (.inl ⟨by decide, forall_of_all (by decide)⟩) hrest hl
    have hoperator := lexes_operator op (o := false) (fun _ => rfl) hzero
    have hright := hb _ _ (apart_rparen _) (by simp) hoperator.rparen
    have hleft := ha _ _ (apart_cons (c := ',') (by decide) (by decide)) (by simp) hright.blank.comma
    have hcall := Lexes.functionName fits_compareFunction hleft.lparen
    simpa [hc] using hcall
  | false =>
    simp only [compared, hc, Bool.false_eq_true, if_false, Expr.endsBare] at hl hslash ⊢
    have hright := hb rest ts hrest hslash hl
    have hleft := ha _ _ (apart_operator op _) (by simp) (lexes_operator op hop hright)
    simpa [hc] using hleft

theorem written_union {a b : Expr} (ha : Written rule comparisons a) (hb : Written rule comparisons b) :
    Written rule comparisons (.union a b) := by
  intro rest ts hrest hslash hl
  have hright := hb rest ts hrest hslash hl
  have hleft := ha _ _ (apart_blank (c := '|') (by decide) (by decide) (by decide) _) (by simp)
    hright.blank.pipe.blank
  simpa using hleft

theorem written_group {e : Expr} (h : Written rule comparisons e) : Written rule comparisons (.group e) := by
  intro rest ts _ _ hl
  have hgroup := (h _ _ (apart_rparen rest) (by simp) hl.rparen).lparen (o := true)
  simpa using hgroup

theorem written_emptySequence : Written rule comparisons (.sequence []) := by
  intro rest ts _ _ hl
  have hslash := hl.dotDot.slash (o := true) (by simp)
  simpa using hslash

theorem WrittenItems.sequence {es : List Expr} (h : WrittenItems rule comparisons es) :
    Written rule comparisons (.sequence es) := by
  intro rest ts _ _ hl
  have hitems := h.2 .pipe _ _ (.inr rfl) (apart_rparen rest) (by simp) fun _ => hl.rparen
  cases es with
  | nil => exact absurd rfl h.1
  | cons e es =>
    simpa [separator] using hitems.lparen (o := true)

theorem writtenItems_singleton {e : Expr} (h : Written rule comparisons e) :
    WrittenItems rule comparisons [e] := by
  refine ⟨by simp, fun sep rest ts _ hrest hslash hl => ?_⟩
  have hitem := h rest ts hrest (fun _ => hslash) (hl _)
  simpa using hitem

theorem writtenItems_cons {e : Expr} {es : List Expr} (h : Written rule comparisons e)
    (hes : WrittenItems rule comparisons es) : WrittenItems rule comparisons (e :: es) := by
  refine ⟨by simp, fun sep rest ts hsep hrest hslash hl => ?_⟩
  have hmore := hes.2 sep rest ts hsep hrest hslash hl
  cases es with
  | nil => exact absurd rfl hes.1
  | cons f es =>
    rcases hsep with rfl | rfl
    · have hitem := h _ _ (apart_cons (c := ',') (by decide) (by decide)) (by simp) hmore.blank.comma
      simpa [separator, String.intercalate_cons_cons] using hitem
    · have hitem := h _ _ (apart_blank (c := '|') (by decide) (by decide) (by decide) _) (by simp)
        hmore.blank.pipe.blank
      simpa [separator, String.intercalate_cons_cons] using hitem

theorem writtenPredicates_nil : WrittenPredicates rule comparisons [] := by
  intro rest ts hl
  simpa using hl

theorem writtenPredicates_cons {e : Expr} {es : List Expr} (h : Written rule comparisons e)
    (hes : WrittenPredicates rule comparisons es) : WrittenPredicates rule comparisons (e :: es) := by
  intro rest ts hl
  have hmore := hes rest ts hl
  have hinside := h _ _ (apart_cons (c := ']') (by decide) (by decide)) (by simp) hmore.rbracket
  have hbracket := hinside.lbracket (o := false)
  simpa using hbracket

theorem apart_predicates (es : List Expr) {rest : List Char} (h : Apart rest) :
    Apart ((emitPredicates comparisons es).toList ++ rest) := by
  cases es with
  | nil => simpa using h
  | cons e es =>
    have hbracket : Apart ('[' :: ((emit comparisons e).toList ++
        ']' :: ((emitPredicates comparisons es).toList ++ rest))) :=
      apart_cons (by decide) (by decide)
    simpa using hbracket

theorem spellHead_cons (a : Axis) (test : NodeTest) (bare : Bool) :
    ∃ t us, spellHead a test bare = t :: us ∧ Grammar.stepOp t = none := by
  have htest : ∃ t us, test.tokens = t :: us ∧ Grammar.stepOp t = none := by
    cases test
    case instruction target => cases target <;> exact ⟨_, _, rfl, rfl⟩
    all_goals exact ⟨_, _, rfl, rfl⟩
  cases a
  case self => cases test <;> cases bare <;> exact ⟨_, _, rfl, rfl⟩
  case parent => cases test <;> cases bare <;> exact ⟨_, _, rfl, rfl⟩
  case child => exact htest
  all_goals exact ⟨_, _, rfl, rfl⟩

theorem isEmpty_comparedAll (es : List Expr) : (comparedAll comparisons es).isEmpty = es.isEmpty := by
  cases es <;> simp

theorem isEmpty_comparedSteps (ss : List (Step Expr)) :
    (comparedSteps comparisons ss).isEmpty = ss.isEmpty := by
  cases ss <;> simp

theorem isDescendantOrSelf_compared (a : Axis) (test : NodeTest) (preds : List Expr) :
    Step.isDescendantOrSelf ⟨a, test, comparedAll comparisons preds⟩
      = Step.isDescendantOrSelf ⟨a, test, preds⟩ := by
  unfold Step.isDescendantOrSelf
  rw [isEmpty_comparedAll]

/-- A step that is written out, behind the slashes before it. -/
theorem lexes_step {a : Axis} {test : NodeTest} {preds : List Expr} (hfits : test.Fits)
    (hpreds : WrittenPredicates rule comparisons preds) {n : Nat} {operand : Bool} {rest : List Char}
    {ts : List Token} (hn : n = 0 → operand = true) (hrest : Apart rest) (hl : Lexes rule false rest ts) :
    Lexes rule operand (List.replicate n '/' ++ ((stepHead a test preds.isEmpty).toList ++
        ((emitPredicates comparisons preds).toList ++ rest)))
      (slashes n ++ (spellHead a test preds.isEmpty ++
        (spellPredicates (comparedAll comparisons preds) ++ ts))) := by
  have hhead := lexes_head a preds.isEmpty hfits (apart_predicates preds hrest) (hpreds rest ts hl)
  obtain ⟨t, us, hspell, ht⟩ := spellHead_cons a test preds.isEmpty
  rw [hspell] at hhead ⊢
  exact .slashes (hhead.head_ne_slash ht) hn hhead

theorem writtenSteps_singleton {a : Axis} {test : NodeTest} {preds : List Expr} (hfits : test.Fits)
    (hpreds : WrittenPredicates rule comparisons preds) : WrittenSteps rule comparisons [⟨a, test, preds⟩] := by
  refine ⟨by simp, fun n operand rest ts hn hrest hl => ?_⟩
  have hstep := lexes_step (a := a) hfits hpreds hn hrest hl
  have hjoint : (jointAt n).text = "" := by cases n <;> rfl
  simpa [hjoint, isEmpty_comparedAll] using hstep

theorem emitSteps_item {ss : List (Step Expr)} (h : ss ≠ []) :
    emitSteps comparisons .item ss = "/" ++ emitSteps comparisons .slash ss := by
  cases ss with
  | nil => exact absurd rfl h
  | cons s ss =>
    simp only [emitSteps, ne_eq, reduceCtorEq, not_false_eq_true, decide_true, Bool.and_true, if_true,
      if_false, Joint.text]
    split <;> simp [← String.toList_inj]

theorem writtenSteps_cons {a : Axis} {test : NodeTest} {preds : List Expr} {ss : List (Step Expr)}
    (hfits : test.Fits) (hpreds : WrittenPredicates rule comparisons preds)
    (hss : WrittenSteps rule comparisons ss) : WrittenSteps rule comparisons (⟨a, test, preds⟩ :: ss) := by
  refine ⟨by simp, fun n operand rest ts hn hrest hl => ?_⟩
  have hmore : ss.isEmpty = false := by simpa using hss.1
  by_cases hfold : 0 < n ∧ Step.isDescendantOrSelf ⟨a, test, preds⟩ = true
  · obtain ⟨hpos, hstep⟩ := hfold
    obtain ⟨m, rfl⟩ : ∃ m, n = m + 1 := ⟨n - 1, by omega⟩
    have htail := hss.2 (m + 2) operand rest ts (by simp) hrest hl
    rw [List.replicate_succ'] at htail
    simpa [jointAt, hmore, hstep, isEmpty_comparedSteps, isDescendantOrSelf_compared] using htail
  · have htail := hss.2 1 false rest ts (by simp) hrest hl
    have hstep := lexes_step (a := a) hfits hpreds hn (apart_cons (c := '/') (by decide) (by decide)) htail
    have hjoint : (jointAt n).text = "" := by cases n <;> rfl
    have hwhole : (decide (jointAt n ≠ .start) && Step.isDescendantOrSelf ⟨a, test, preds⟩) = false := by
      cases n with
      | zero => rfl
      | succ n => simpa [jointAt] using hfold
    have hwhole' : (decide (0 < n) && Step.isDescendantOrSelf ⟨a, test, preds⟩) = false := by
      simpa using hfold
    rw [emitSteps, comparedSteps, spellSteps, isEmpty_comparedSteps, isDescendantOrSelf_compared,
      isEmpty_comparedAll, hmore, Bool.not_false, Bool.true_and, Bool.true_and, hwhole, hwhole']
    simpa [hjoint, jointAt_one, emitSteps_item hss.1] using hstep

theorem written_filter {e : Expr} {preds : List Expr} (h : Written rule comparisons e)
    (hbare : (compared comparisons e).endsBare = false) (hpreds : WrittenPredicates rule comparisons preds) :
    Written rule comparisons (.filter e preds) := by
  intro rest ts hrest _ hl
  have hbehind := hpreds rest ts hl
  have hprimary := h _ _ (apart_predicates preds hrest) (by simp [hbare]) (hbare ▸ hbehind)
  simpa using hprimary

theorem written_root : Written rule comparisons (.absolute []) := by
  intro rest ts _ hslash hl
  have hroot := hl.slash (o := true) (hslash rfl)
  simpa [slashes] using hroot

theorem written_absolute {ss : List (Step Expr)} (h : WrittenSteps rule comparisons ss) :
    Written rule comparisons (.absolute ss) := by
  intro rest ts hrest _ hl
  cases ss with
  | nil => exact absurd rfl h.1
  | cons s ss =>
    have hsteps := h.2 1 true rest ts (by simp) hrest hl
    simpa [jointAt] using hsteps

theorem written_relative {ss : List (Step Expr)} (h : WrittenSteps rule comparisons ss) :
    Written rule comparisons (.relative ss) := by
  intro rest ts hrest _ hl
  have hsteps := h.2 0 true rest ts (by simp) hrest hl
  simpa [jointAt] using hsteps

theorem written_continued {e : Expr} {ss : List (Step Expr)} (h : Written rule comparisons e)
    (hbare : (compared comparisons e).endsBare = false) (hss : WrittenSteps rule comparisons ss) :
    Written rule comparisons (.continued e ss) := by
  intro rest ts hrest _ hl
  have hsteps := hss.2 1 false rest ts (by simp) hrest hl
  have hstart := h _ _ (apart_cons (c := '/') (by decide) (by decide)) (by simp [hbare]) (hbare ▸ hsteps)
  simpa [jointAt, emitSteps_item hss.1] using hstart

end

namespace Grammar

/-- What an operator joins its operands to, and how it is written. -/
theorem Level.join_eq {l : Level} {t : Token} {join : Expr → Expr → Expr}
    (h : l.operator t = some join) :
    (l = .union ∧ join = .union) ∨
      ∃ op, join = .binary op ∧ l.operator op.token = some (.binary op) ∧
        (op.token.isInfix = true → t.isInfix = true) ∧ (op.isOrdering = true → l = .relational) := by
  cases l <;> cases t <;>
    simp only [operator, orOp, andOp, equalityOp, relationalOp, additiveOp, multiplicativeOp, unionOp,
      reduceCtorEq] at h <;>
    (try split_ifs at h) <;> cases h <;>
    first
    | exact .inl ⟨rfl, rfl⟩
    | exact .inr ⟨_, rfl, rfl, fun _ => rfl, by simp [BinaryOp.isOrdering]⟩
    | exact .inr ⟨_, rfl, rfl, by simp [BinaryOp.token, Token.isInfix], by simp [BinaryOp.isOrdering]⟩

section

variable (rule) (comparisons : Bool)

/-- An expression whose text ends in a bare slash is read from tokens that do, and stands between no
brackets of its own. -/
def BareEnd : (k : Part) → List Token → k.Tree → Prop
  | .expr l, ts, e => (compared comparisons e).endsBare = true →
    ts.getLast? = some .slash ∧ l ≠ .filter ∧ l ≠ .primary
  | _, _, _ => True

theorem Reads.bareEnd {k : Part} {ts : List Token} {x : k.Tree} (h : Reads k ts x) :
    BareEnd comparisons k ts x := by
  induction h with
  | @tighter l _ _ _ ih =>
    intro hbare
    obtain ⟨hlast, hfilter, hprimary⟩ := ih hbare
    refine ⟨hlast, ?_, ?_⟩ <;> intro heq <;> subst heq <;> exact absurd rfl hprimary
  | @binary l t join ts us a b op _ _ _ ih =>
    intro hbare
    have hlevel : l ≠ .filter ∧ l ≠ .primary := by
      constructor <;> intro heq <;> subst heq <;> cases op
    suffices hright : (compared comparisons b).endsBare = true by
      obtain ⟨hlast, -⟩ := ih hright
      exact ⟨by simp [List.getLast?_append, List.getLast?_cons, hlast], hlevel⟩
    rcases Level.join_eq op with ⟨-, rfl⟩ | ⟨o, rfl, -⟩
    · exact hbare
    · unfold compared at hbare
      cases hc : (comparisons && needsCompare o a b) <;> simp [hc] at hbare
      exact hbare
  | negate _ ih =>
    intro hbare
    obtain ⟨hlast, -⟩ := ih hbare
    exact ⟨by simp [List.getLast?_cons, hlast], by simp, by simp⟩
  | root => exact fun _ => ⟨rfl, by simp, by simp⟩
  | @absolute t between ts ss ht h =>
    intro hbare
    cases hss : between ++ ss with
    | nil =>
      cases h <;> simp at hss
    | cons s more =>
      rw [hss] at hbare
      cases hbare
  | relative | continued | filter | variableRef | literal | number | call | group | sequence =>
    intro hbare
    cases hbare
  | noArguments | arguments | lastItem | item | lastStep | joined | self | parent | tested | noPredicates
    | predicate => trivial

theorem TestReads.fits {ts : List Token} {test : NodeTest} (h : TestReads ts test) (hfit : Fit ts) :
    test.Fits := by
  cases h with
  | name => exact fits_nameTest hfit.of_cons.1
  | type h =>
    unfold typeTest? at h
    split_ifs at h <;> cases h <;> trivial
  | instruction => trivial
  | target => trivial

/-- The text of a part has the tokens of the part. -/
def WrittenPart : (k : Part) → k.Tree → Prop
  | .expr _, e => Written rule comparisons e
  | .items, es => WrittenItems rule comparisons es
  | .arguments, es => es = [] ∨ WrittenItems rule comparisons es
  | .steps, ss => WrittenSteps rule comparisons ss
  | .step, s => s.test.Fits ∧ WrittenPredicates rule comparisons s.predicates
  | .predicates, es => WrittenPredicates rule comparisons es

theorem writtenSteps_between {t : Token} {between : List (Step Expr)} {ss : List (Step Expr)}
    (ht : stepOp t = some between) (h : WrittenSteps rule comparisons ss) :
    WrittenSteps rule comparisons (between ++ ss) := by
  cases t <;> cases ht
  · exact h
  · exact writtenSteps_cons trivial writtenPredicates_nil h

theorem Reads.written {k : Part} {ts : List Token} {x : k.Tree} (h : Reads k ts x) (hfit : Fit ts) :
    WrittenPart rule comparisons k x := by
  induction h with
  | tighter _ ih => exact ih hfit
  | @binary l t join ts us a b op left _ hleft hright =>
    obtain ⟨hts, hus⟩ := hfit.of_append
    have ha := hleft hts
    have hb := hright hus.of_cons.2
    rcases Level.join_eq op with ⟨-, rfl⟩ | ⟨o, rfl, -, hword, -⟩
    · exact written_union ha hb
    · refine written_binary ha hb fun ho => ?_
      cases hbare : (compared comparisons a).endsBare with
      | false => rfl
      | true =>
        obtain ⟨hlast, -⟩ := left.bareEnd comparisons hbare
        exact absurd (hfit.allowsOperand_eq_false hlast (hword ho)) (by decide)
  | negate _ ih => exact written_negate (ih hfit.of_cons.2)
  | root => exact written_root
  | absolute ht _ ih => exact written_absolute (writtenSteps_between rule comparisons ht (ih hfit.of_cons.2))
  | relative _ ih => exact written_relative (ih hfit)
  | @continued t between ts us e ss start ht _ hstart hsteps =>
    obtain ⟨hts, hus⟩ := hfit.of_append
    refine written_continued (hstart hts) ?_ (writtenSteps_between rule comparisons ht (hsteps hus.of_cons.2))
    exact Bool.eq_false_iff.mpr fun hbare => (start.bareEnd comparisons hbare).2.1 rfl
  | filter primary _ _ ih hpreds =>
    obtain ⟨hts, hus⟩ := hfit.of_append
    refine written_filter (ih hts) ?_ (hpreds hus)
    exact Bool.eq_false_iff.mpr fun hbare => (primary.bareEnd comparisons hbare).2.2 rfl
  | variableRef => exact written_variableRef hfit.of_cons.1
  | literal value => exact written_literal value
  | number => exact written_number hfit.of_cons.1
  | call name _ ih =>
    obtain ⟨hname, hrest⟩ := hfit.of_cons
    refine written_call hname ?_
    rcases ih hrest.of_cons.2.of_append.1 with rfl | hitems
    · exact writtenArguments_nil
    · exact hitems.arguments
  | group _ ih => exact written_group (ih hfit.of_cons.2.of_append.1)
  | sequence _ _ ih =>
    rcases ih hfit.of_cons.2.of_append.1 with rfl | hitems
    · exact written_emptySequence
    · exact hitems.sequence
  | noArguments => exact .inl rfl
  | arguments _ ih => exact .inr (ih hfit)
  | lastItem _ ih => exact writtenItems_singleton (ih hfit)
  | item _ _ ih more =>
    obtain ⟨hts, hus⟩ := hfit.of_append
    exact writtenItems_cons (ih hts) (more hus.of_cons.2)
  | lastStep _ ih =>
    obtain ⟨htest, hpreds⟩ := ih hfit
    exact writtenSteps_singleton htest hpreds
  | joined _ ht _ ih more =>
    obtain ⟨hts, hus⟩ := hfit.of_append
    obtain ⟨htest, hpreds⟩ := ih hts
    exact writtenSteps_cons htest hpreds (writtenSteps_between rule comparisons ht (more hus.of_cons.2))
  | self => exact ⟨trivial, writtenPredicates_nil⟩
  | parent => exact ⟨trivial, writtenPredicates_nil⟩
  | tested _ ht _ ih =>
    obtain ⟨htest, hpreds⟩ := hfit.of_append.2.of_append
    exact ⟨ht.fits htest, ih hpreds⟩
  | noPredicates => exact writtenPredicates_nil
  | predicate _ _ ih more =>
    obtain ⟨hts, hus⟩ := hfit.of_cons.2.of_append
    exact writtenPredicates_cons (ih hts) (more hus.of_cons.2)

end

end Grammar

end Schematron.XPath
