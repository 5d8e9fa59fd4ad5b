/-!
Patterns of file paths. A path is matched byte by byte, and wildcards other than the double star do not
cross a slash.
-/

namespace Schematron.Files

abbrev Bytes := List UInt8

def slash : UInt8 := 47

def bytesOf (s : String) : Bytes := s.toUTF8.toList

inductive GlobToken where
  | literal (c : Char)
  /-- One byte. -/
  | any
  /-- Any number of bytes. -/
  | star
  /-- A double star at the front: any directories, or none. -/
  | anyAbove
  /-- A double star at the end, behind a slash. -/
  | anyBelow
  /-- A double star between slashes: any directories, or none. -/
  | anyBetween
  | oneOf (negated : Bool) (ranges : List (Char × Char))
  | alternatives (branches : List (List GlobToken))

namespace GlobToken

/-- A set of characters, as the set of the bytes that they are written with. -/
def rangeHas (b : UInt8) (range : Char × Char) : Bool :=
  let first := bytesOf range.1.toString
  if range.1 = range.2 then first.contains b
  else
    let last := bytesOf range.2.toString
    (first.dropLast.contains b) || (last.drop 1).contains b ||
      (first.getLast?.any (· ≤ b) && last.head?.any (b ≤ ·))

/-- What may be left of `bytes` once a step that takes one byte has been repeated. -/
def tails (bytes : Bytes) : List Bytes :=
  match bytes with
  | [] => [[]]
  | b :: rest => (b :: rest) :: tails rest

/-- What may be left after bytes of one name. -/
def nameTails (bytes : Bytes) : List Bytes :=
  match bytes with
  | [] => [[]]
  | b :: rest => if b = slash then [b :: rest] else (b :: rest) :: nameTails rest

/-- What may be left after a slash that stands anywhere. -/
def afterSlashes (bytes : Bytes) : List Bytes :=
  match bytes with
  | [] => []
  | b :: rest => if b = slash then rest :: afterSlashes rest else afterSlashes rest

/-- How many items a set of characters has, counting the bytes at the ends of its ranges. -/
def classItems (ranges : List (Char × Char)) : Nat :=
  (ranges.flatMap fun (first, last) =>
    if first = last then bytesOf first.toString
    else bytesOf first.toString ++ (bytesOf last.toString).drop 1).length

/-- What something in a pattern asks for: the number of items in a row, and how deep the deepest of
them is nested. -/
structure Shape where
  items : Nat
  depth : Nat

namespace Shape

def empty : Shape := ⟨0, 0⟩

def beside (a b : Shape) : Shape := ⟨a.items + b.items, max a.depth b.depth⟩

/-- The depth of something that holds a row or a choice, which for a single item is the item itself. -/
def whole (s : Shape) : Nat := if s.items < 2 then s.depth else s.depth + 1

end Shape

mutual
def shape : GlobToken → Shape
  | literal c => ⟨(bytesOf c.toString).length, 0⟩
  | any => ⟨1, 1⟩
  | star => ⟨1, 2⟩
  | anyAbove => ⟨1, 4⟩
  | anyBelow => ⟨2, 1⟩
  | anyBetween => ⟨1, 4⟩
  | oneOf _ ranges => ⟨1, if classItems ranges = 1 then 1 else 2⟩
  | alternatives branches =>
    let s := branchesShape branches
    if s.items = 0 then .empty else ⟨1, s.whole + 1⟩

def rowShape : List GlobToken → Shape
  | [] => .empty
  | t :: ts => t.shape.beside (rowShape ts)

/-- The branches that ask for anything, each as one item. -/
def branchesShape : List (List GlobToken) → Shape
  | [] => .empty
  | row :: more =>
    let s := rowShape row
    if s.items = 0 then branchesShape more else (⟨1, s.whole⟩ : Shape).beside (branchesShape more)
end

/-- Nothing is asked for. -/
def isVoid (row : List GlobToken) : Bool := (rowShape row).items == 0

mutual
/-- What may be left of `bytes` behind a match of a token. Where no branch asks for anything, nothing is
taken. -/
def rests : GlobToken → Bytes → List Bytes
  | literal c, bytes => ((bytesOf c.toString).isPrefixOf? bytes).toList
  | any, b :: rest => if b = slash then [] else [rest]
  | any, [] => []
  | star, bytes => nameTails bytes
  | anyAbove, bytes => bytes :: afterSlashes bytes
  | anyBelow, b :: rest => if b = slash then tails rest else []
  | anyBelow, [] => []
  | anyBetween, b :: rest => if b = slash then rest :: afterSlashes rest else []
  | anyBetween, [] => []
  | oneOf negated ranges, b :: rest => if ranges.any (rangeHas b) != negated then [rest] else []
  | oneOf _ _, [] => []
  | alternatives branches, bytes => if branches.all isVoid then [bytes] else branchRests branches bytes

/-- What may be left of one of `texts` behind a match of tokens in a row. -/
def rowRests : List GlobToken → List Bytes → List Bytes
  | [], texts => texts
  | t :: ts, texts => rowRests ts (texts.flatMap t.rests).eraseDups

/-- What may be left behind a match of an alternative, of which a void one does not count. -/
def branchRests : List (List GlobToken) → Bytes → List Bytes
  | [], _ => []
  | row :: more, bytes =>
    if isVoid row then branchRests more bytes else rowRests row [bytes] ++ branchRests more bytes
end

end GlobToken

inductive GlobError where
  | unclosedClass
  | invalidRange (first last : Char)
  | unopenedAlternatives
  | unclosedAlternatives
  | danglingEscape
  deriving DecidableEq, Repr

namespace Glob

/-- The part of a pattern that has been read: the row of tokens at hand, and around it the finished
alternatives and the row of each open group. All rows are kept last token first. -/
structure Builder where
  row : List GlobToken
  groups : List (List (List GlobToken) × List GlobToken)

namespace Builder

def push (b : Builder) (t : GlobToken) : Builder := { b with row := t :: b.row }

def openGroup (b : Builder) : Builder := ⟨[], ([], b.row) :: b.groups⟩

/-- Ends an alternative and begins the next. -/
def nextBranch (b : Builder) : Option Builder :=
  match b.groups with
  | [] => none
  | (branches, outer) :: groups => some ⟨[], (branches ++ [b.row.reverse], outer) :: groups⟩

def closeGroup (b : Builder) : Option Builder :=
  match b.groups with
  | [] => none
  | (branches, outer) :: groups =>
    some ⟨.alternatives (branches ++ [b.row.reverse]) :: outer, groups⟩

end Builder

/-- The ranges of a set of characters up to the bracket that closes it, and what follows the bracket.
`ranges` holds those already read, the last one first; `first` tells that nothing has been read;
`pending` that a range is open at its end. -/
def readClass (ranges : List (Char × Char)) (first pending : Bool) :
    List Char → Except GlobError (List (Char × Char) × List Char)
  | [] => .error .unclosedClass
  | c :: rest =>
    if c = ']' ∧ first = false then
      .ok ((if pending then ('-', '-') :: ranges else ranges).reverse, rest)
    else if c = ']' then readClass ((c, c) :: ranges) false pending rest
    else if c = '-' ∧ first = false ∧ pending = false then readClass ranges false true rest
    else
      match pending, ranges with
      | true, (low, _) :: more =>
        if c < low then .error (.invalidRange low c) else readClass ((low, c) :: more) false false rest
      | _, _ => readClass ((c, c) :: ranges) false false rest

theorem readClass_length {ranges : List (Char × Char)} {first pending : Bool} {cs rest : List Char}
    {found : List (Char × Char)} (h : readClass ranges first pending cs = .ok (found, rest)) :
    rest.length < cs.length := by
  induction cs generalizing ranges first pending with
  | nil => simp [readClass] at h
  | cons c cs ih =>
    unfold readClass at h
    simp only [List.length_cons]
    split at h
    · injection h with h
      injection h with _ h
      simp [h]
    split at h
    · exact Nat.lt_succ_of_lt (ih h)
    split at h
    · exact Nat.lt_succ_of_lt (ih h)
    split at h
    · split at h
      · cases h
      · exact Nat.lt_succ_of_lt (ih h)
    · exact Nat.lt_succ_of_lt (ih h)

/-- A double star that is not alone between slashes is two single ones. -/
def pushStars (b : Builder) : Builder := (b.push .star).push .star

/-- Puts in place of the last token, a slash, the double star that stands behind it. One double star
swallows another. -/
def replaceSlash (b : Builder) (t : GlobToken) : Builder :=
  match b.row with
  | .anyAbove :: _ | .anyBelow :: _ => b
  | _ :: row => { b with row := t :: row }
  | [] => b.push t

/-- What a double star adds, and the text after it. `previous` is the character before it. -/
def doubleStar (b : Builder) (previous : Option Char) (rest : List Char) : Builder × List Char :=
  let nested := !b.groups.isEmpty
  if b.row.isEmpty then
    match rest with
    | [] => (b.push .anyAbove, [])
    | '/' :: more => (b.push .anyAbove, more)
    | _ => (pushStars b, rest)
  else if previous ≠ some '/' ∧ !(nested ∧ (previous = some ',' ∨ previous = some '{')) then
    (pushStars b, rest)
  else
    match rest with
    | [] => (replaceSlash b .anyBelow, [])
    | '/' :: more => (replaceSlash b .anyBetween, more)
    | c :: _ => if nested ∧ (c = ',' ∨ c = '}') then (replaceSlash b .anyBelow, rest) else (pushStars b, rest)

theorem doubleStar_length (b : Builder) (previous : Option Char) (rest : List Char) :
    (doubleStar b previous rest).2.length ≤ rest.length := by
  unfold doubleStar
  dsimp only
  split
  · split <;> simp
  split
  · simp
  · split
    · simp
    · simp
    · split <;> simp

def orElse {α : Type} (found : Option α) (e : GlobError) : Except GlobError α :=
  match found with
  | some a => .ok a
  | none => .error e

/-- Reads the rest of a pattern. -/
def readFrom (b : Builder) (previous : Option Char) : List Char → Except GlobError Builder
  | [] => .ok b
  | '?' :: rest => readFrom (b.push .any) (some '?') rest
  | '*' :: '*' :: rest =>
    match _h : doubleStar b previous rest with
    | (b', after) =>
      readFrom b' (if after.length < rest.length then some '/' else some '*') after
  | '*' :: rest => readFrom (b.push .star) (some '*') rest
  | '[' :: rest =>
    match rest with
    | c :: more =>
      let negated := c == '!' || c == '^'
      match _h : readClass [] true false (if negated then more else c :: more) with
      | .error e => .error e
      | .ok (ranges, after) => readFrom (b.push (.oneOf negated ranges)) (some ']') after
    | [] => .error .unclosedClass
  | '{' :: rest => readFrom b.openGroup (some '{') rest
  | '}' :: rest =>
    match b.closeGroup with
    | some b' => readFrom b' (some '}') rest
    | none => .error .unopenedAlternatives
  | ',' :: rest => readFrom (b.nextBranch.getD (b.push (.literal ','))) (some ',') rest
  | '\\' :: c :: rest => readFrom (b.push (.literal c)) (some c) rest
  | '\\' :: [] => .error .danglingEscape
  | c :: rest => readFrom (b.push (.literal c)) (some c) rest
termination_by cs => cs.length
decreasing_by
  all_goals simp only [List.length_cons]
  all_goals try omega
  · have shorter := doubleStar_length b previous rest
    rw [_h] at shorter
    exact Nat.lt_of_le_of_lt shorter (by omega)
  · have shorter := readClass_length _h
    split at shorter
    · omega
    · simp only [List.length_cons] at shorter
      omega

end Glob

structure Glob where
  tokens : List GlobToken

namespace Glob

def ofText (pattern : String) : Except GlobError Glob :=
  match readFrom ⟨[], []⟩ none pattern.toList with
  | .error e => .error e
  | .ok b => if b.groups.isEmpty then .ok ⟨b.row.reverse⟩ else .error .unclosedAlternatives

/-- How deep a pattern may be nested. -/
def nestingLimit : Nat := 250

/-- Whether a pattern is nested too deep to be matched; all of it is one row. -/
def isTooDeep (g : Glob) : Bool := nestingLimit ≤ (GlobToken.rowShape g.tokens).depth

/-- Whether a pattern matches all of a path. A lone double star matches every path. -/
def covers (g : Glob) (path : String) : Bool :=
  match g.tokens with
  | [.anyAbove] => true
  | ts => (GlobToken.rowRests ts [bytesOf path]).any (·.isEmpty)

end Glob

end Schematron.Files
