import Schematron.Text.Blank
import Schematron.Text.Word
import Schematron.Text.Reader

/-!
The processing instructions in front of a document that associate it with schemas. They are found in the
text itself, so a document that is not well-formed has its associations too.
-/

namespace Schematron.Loading

/-- The text before the first start of a tag. -/
def prolog : List Char → List Char
  | [] => []
  | '<' :: rest =>
    match rest with
    | '?' :: _ | '!' :: _ => '<' :: prolog rest
    | _ => []
  | c :: rest => c :: prolog rest

namespace Association

def mark : List Char := "<?xml-model".toList

/-- What follows the target of an instruction and the white space behind it. -/
def behindTarget? (cs : List Char) : Option (List Char) :=
  match mark.isPrefixOf? cs with
  | some (c :: rest) => if Text.isBlank c then some (Text.skipBlanks rest) else none
  | _ => none

/-- The first instruction in a text: what it holds, and the text after it. -/
def next? : List Char → Option (List Char × List Char)
  | [] => none
  | c :: rest =>
    match (behindTarget? (c :: rest)).bind (Reader.cut ['?', '>']) with
    | some found => some found
    | none => next? rest

theorem behindTarget?_length {cs rest : List Char} (h : behindTarget? cs = some rest) :
    rest.length < cs.length := by
  unfold behindTarget? at h
  split at h
  · rename_i c more hp
    have h1 := Reader.length_of_isPrefixOf? hp
    have h2 := Text.length_skipBlanks_le more
    split at h
    · simp only [Option.some.injEq] at h
      simp only [List.length_cons] at h1
      rw [← h]
      omega
    · simp at h
  · simp at h

theorem next?_length {cs inside after : List Char} (h : next? cs = some (inside, after)) :
    after.length < cs.length := by
  induction cs with
  | nil => simp [next?] at h
  | cons c cs ih =>
    unfold next? at h
    split at h
    · rename_i found hf
      obtain ⟨body, hb, hc⟩ := Option.bind_eq_some_iff.mp hf
      have h1 := behindTarget?_length hb
      rw [Option.some.inj h] at hc
      exact Nat.lt_of_le_of_lt (Reader.cut_length hc) h1
    · exact Nat.lt_succ_of_lt (ih h)

/-- What the instructions of a text hold, in order. -/
def instructions (cs : List Char) : List (List Char) :=
  match _h : next? cs with
  | some (inside, after) => inside :: instructions after
  | none => []
termination_by cs.length
decreasing_by exact next?_length _h

def isNameStart (c : Char) : Bool := ('A' ≤ c && c ≤ 'Z') || ('a' ≤ c && c ≤ 'z') || c = '_'

def isNameChar (c : Char) : Bool := Text.isWordChar c || c = '.' || c = '-'

/-- A value between quotes of one kind, and what follows it. -/
def value? : List Char → Option (List Char × List Char)
  | '"' :: rest => Reader.cut ['"'] rest
  | '\'' :: rest => Reader.cut ['\''] rest
  | _ => none

/-- The pseudo-attribute that a text begins with, and what follows it. -/
def pseudo? : List Char → Option ((String × String) × List Char)
  | [] => none
  | c :: rest =>
    if isNameStart c then
      match Text.skipBlanks (rest.dropWhile isNameChar) with
      | '=' :: more =>
        (value? (Text.skipBlanks more)).map fun (value, after) =>
          ((String.ofList (c :: rest.takeWhile isNameChar), String.ofList value), after)
      | _ => none
    else none

theorem value?_length {cs value after : List Char} (h : value? cs = some (value, after)) :
    after.length ≤ cs.length := by
  unfold value? at h
  split at h
  · exact Nat.le_succ_of_le (Reader.cut_length h)
  · exact Nat.le_succ_of_le (Reader.cut_length h)
  · simp at h

theorem pseudo?_length {cs after : List Char} {found : String × String}
    (h : pseudo? cs = some (found, after)) : after.length < cs.length := by
  unfold pseudo? at h
  split at h
  · simp at h
  · rename_i c rest
    split at h
    · split at h
      · rename_i more hs
        obtain ⟨⟨value, left⟩, hv, he⟩ := Option.map_eq_some_iff.mp h
        simp only [Prod.mk.injEq] at he
        have h1 := value?_length hv
        have h2 := Text.length_skipBlanks_le more
        have h3 := Text.length_skipBlanks_le (rest.dropWhile isNameChar)
        have h4 := Text.length_dropWhile_le isNameChar rest
        rw [hs] at h3
        simp only [List.length_cons] at h3 ⊢
        rw [← he.2]
        omega
      · simp at h
    · simp at h

/-- The pseudo-attributes in a text, wherever one begins. -/
def pseudos (cs : List Char) : List (String × String) :=
  match cs with
  | [] => []
  | c :: rest =>
    match _h : pseudo? (c :: rest) with
    | some (found, after) => found :: pseudos after
    | none => pseudos rest
termination_by cs.length
decreasing_by
  · exact pseudo?_length _h
  · simp

/-- The value of a pseudo-attribute. The last of a name counts. -/
def valueOf? (name : String) (found : List (String × String)) : Option String :=
  found.reverse.lookup name

end Association

end Schematron.Loading
