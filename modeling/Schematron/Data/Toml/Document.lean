import Schematron.Data.Toml.Lexical

/-!
Documents of tables. A table is written under a header, by keys with dots or between braces; it cannot
be written twice, nor in two of these ways.
-/

namespace Schematron.Data.Toml

open Schematron.Reader

/-- How a table has come about. -/
inductive Mode where
  /-- As the table around another. -/
  | implied
  | dotted
  | headed
  deriving DecidableEq, Repr

inductive Item where
  | value (d : Data)
  | table (mode : Mode) (entries : List (String × Item))
  /-- The tables of a list, each under a header of its own. -/
  | tables (elements : List (List (String × Item)))

abbrev Items := List (String × Item)

mutual
def Item.data : Item → Data
  | .value d => d
  | .table _ entries => .record (fieldsOf entries)
  | .tables elements => .list (recordsOf elements)

def fieldsOf : Items → List (String × Data)
  | [] => []
  | (k, item) :: rest => (k, item.data) :: fieldsOf rest

def recordsOf : List Items → List Data
  | [] => []
  | entries :: rest => .record (fieldsOf entries) :: recordsOf rest
end

namespace Items

def replace (k : String) (item : Item) (items : Items) : Items :=
  items.map fun (key, old) => if key = k then (key, item) else (key, old)

/-- Changes what is under a key. -/
def alter (k : String) (f : Option Item → Option Item) (items : Items) : Option Items :=
  match items.lookup k with
  | some old => (f (some old)).map fun item => items.replace k item
  | none => (f none).map fun item => items ++ [(k, item)]

/-- Changes the table that a header leads to; of a list of tables that is the last one. -/
def within (f : Items → Option Items) : List String → Items → Option Items
  | [], items => f items
  | k :: path, items => items.alter k fun
    | none => (within f path []).map (.table .implied ·)
    | some (.table mode inner) => (within f path inner).map (.table mode ·)
    | some (.tables elements) =>
      match elements.getLast? with
      | some last => (within f path last).map fun inner => .tables (elements.dropLast ++ [inner])
      | none => none
    | some (.value _) => none

/-- A value under a key with dots. Of a list of tables the last one is gone into, but nothing is put
right under it. -/
def assign (d : Data) : List String → Items → Option Items
  | [], _ => none
  | [k], items => items.alter k fun
    | none => some (.value d)
    | some _ => none
  | k :: path, items => items.alter k fun
    | none => (assign d path []).map (.table .dotted ·)
    | some (.table mode inner) =>
      if mode = .headed ∨ (path.length = 1 ∧ mode ≠ .dotted) then none
      else (assign d path inner).map (.table mode ·)
    | some (.tables elements) =>
      match elements.getLast? with
      | some last =>
        if path.length = 1 then none
        else (assign d path last).map fun inner => .tables (elements.dropLast ++ [inner])
      | none => none
    | some (.value _) => none

/-- The table that a header begins. -/
def openTable (k : String) (items : Items) : Option Items := items.alter k fun
  | none => some (.table .headed [])
  | some (.table .implied inner) => some (.table .headed inner)
  | some _ => none

/-- The next table of a list that a header begins. -/
def openElement (k : String) (items : Items) : Option Items := items.alter k fun
  | none => some (.tables [[]])
  | some (.tables elements) => some (.tables (elements ++ [[]]))
  | some _ => none

end Items

mutual
/-- A value; `room` is how deep values may be nested in it. -/
def value : (fuel room : Nat) → Reader Data
  | 0, _ => failure
  | fuel + 1, room => do
    match ← get, room with
    | '"' :: _, _ | '\'' :: _, _ => return .text (← text)
    | '[' :: rest, inside + 1 =>
      set rest
      return .list (← elements fuel inside)
    | '\x7b' :: rest, inside + 1 =>
      set rest
      return .record (fieldsOf (← fields fuel inside []))
    | _, _ => scalar

/-- The elements of a list up to its bracket. -/
def elements : (fuel room : Nat) → Reader (List Data)
  | 0, _ => failure
  | fuel + 1, room => do
    gap
    if ← nextIs [']'] then
      word [']']
      return []
    let v ← value fuel room
    gap
    if ← nextIs [','] then
      word [',']
      return v :: (← elements fuel room)
    word [']']
    return [v]

/-- The fields of a table between braces. -/
def fields : (fuel room : Nat) → Items → Reader Items
  | 0, _, _ => failure
  | fuel + 1, room, items => do
    gap
    if ← nextIs ['\x7d'] then
      word ['\x7d']
      return items
    let k ← key
    gap
    word ['=']
    gap
    let v ← value fuel room
    let items ← items.assign v k
    gap
    if ← nextIs [','] then
      word [',']
      fields fuel room items
    else
      word ['\x7d']
      return items
end

inductive Statement where
  | header (path : List String)
  | elementHeader (path : List String)
  | assignment (path : List String) (d : Data)
  | nothing

def statement (fuel : Nat) : Reader Statement := do
  match ← get with
  | '[' :: '[' :: rest =>
    set rest
    blanks
    let path ← key
    blanks
    word [']', ']']
    return .elementHeader path
  | '[' :: rest =>
    set rest
    blanks
    let path ← key
    blanks
    word [']']
    return .header path
  | [] | '\n' :: _ | '\r' :: _ | '#' :: _ => return .nothing
  | _ =>
    let path ← key
    blanks
    word ['=']
    blanks
    return .assignment path (← value fuel nestingLimit)

/-- A line, or more where a value goes over several. -/
def lines (fuel : Nat) : Reader Statement := do
  blanks
  let s ← statement fuel
  blanks
  comment
  if !(← get).isEmpty then lineBreak
  return s

/-- A document so far: its tables, and the header that assignments stand under. -/
structure State where
  items : Items
  current : List String

def State.obey (s : State) : Statement → Option State
  | .nothing => some s
  | .assignment path d => do return { s with items := ← s.items.within (·.assign d path) s.current }
  | .header path => do
    return ⟨← s.items.within (·.openTable (← path.getLast?)) path.dropLast, path⟩
  | .elementHeader path => do
    return ⟨← s.items.within (·.openElement (← path.getLast?)) path.dropLast, path⟩

/-- The record that a TOML document spells. -/
def parse (s : String) : Option Data := do
  let cs := match s.toList with
    | '\uFEFF' :: rest => rest
    | cs => cs
  let (statements, rest) := many (lines (2 * cs.length + 2)) cs
  if !rest.isEmpty then none
  let last ← statements.foldlM State.obey ⟨[], []⟩
  return .record (fieldsOf last.items)

end Schematron.Data.Toml
