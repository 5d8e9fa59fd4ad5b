import Schematron.XPath.Lexical

namespace Schematron.XPath

open Schematron.Text (skipBlanks)

/-- The tokens of `cs`, the end of a text of `total` bytes. -/
def scan (rule : QuoteRule) (total : Nat) (operand : Bool) (cs : List Char) :
    Except (Nat × SyntaxCause) (List Spanned) :=
  match _h : skipBlanks cs with
  | [] => .ok []
  | c :: rest =>
    let offset := total - byteLength (c :: rest)
    match _hl : lexeme rule operand c rest with
    | .error cause => .error (offset, cause)
    | .ok (t, after) =>
      match scan rule total t.allowsOperand after with
      | .error e => .error e
      | .ok ts => .ok (⟨t, offset⟩ :: ts)
termination_by cs.length
decreasing_by
  have h1 := Text.length_skipBlanks_le cs
  have h2 := lexeme_length _hl
  rw [_h] at h1
  simp only [List.length_cons] at h1
  omega

def tokenizeWith (rule : QuoteRule) (source : String) : Except ParseError (List Spanned) :=
  (scan rule (byteLength source.toList) true source.toList).mapError fun (offset, cause) =>
    ⟨source, offset, cause⟩

/-- The tokens of an expression; a quote inside a literal may be written twice. -/
def tokenize (source : String) : Except ParseError (List Spanned) := tokenizeWith .doubled source

end Schematron.XPath
