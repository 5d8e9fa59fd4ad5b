import Schematron.Files.Host

/-!
A file system held in memory. Its links lead on by their texts; a path that goes through too many of
them leads nowhere.
-/

namespace Schematron.Files

inductive Entry where
  /-- A file without a text holds bytes that spell none. -/
  | file (text : Option String)
  | directory (entries : List (String × Entry))
  | link (target : String)

abbrev Entries := List (String × Entry)

/-- An entry put in the place of the one of its name. -/
def Entries.replace (name : String) (e : Entry) (entries : Entries) : Entries :=
  entries.filter (·.1 ≠ name) ++ [(name, e)]

/-- An entry put at a path, with the directories that lead there. -/
def Entries.put (e : Entry) : List String → Entries → Entries
  | [], entries => entries
  | [name], entries => entries.replace name e
  | name :: more, entries =>
    let inner : Entries :=
      match entries.lookup name with
      | some (.directory inner) => inner
      | _ => []
    entries.replace name (.directory (Entries.put e more inner))

structure Disk where
  root : Entries
  /-- The path that paths without a leading slash start from. -/
  current : String

namespace Disk

/-- As many links are followed on the way along one path. -/
def linkLimit : Nat := 40

/-- Where a path leads. The directories on the way to a directory, itself included, come last first. -/
inductive Place where
  | file (text : Option String)
  | directory (way : List Entries)

/-- A place and how many more links may be followed from there. -/
structure Arrival where
  place : Place
  links : Nat

def here (root : Entries) (way : List Entries) : Entries := way.head?.getD root

def isRooted (path : String) : Bool := path.toList.head? = some '/'

/-- Follows the steps of a path from a directory. -/
def locate (root : Entries) (links : Nat) (way : List Entries) :
    List String → Except ReadFailure Arrival
  | [] => .ok ⟨.directory way, links⟩
  | step :: steps =>
    if step = "" ∨ step = "." then locate root links way steps
    else if step = ".." then locate root links way.tail steps
    else
      match (here root way).lookup step with
      | none => .error .missing
      | some (.file text) => if steps.isEmpty then .ok ⟨.file text, links⟩ else .error .unreadable
      | some (.directory entries) => locate root links (entries :: way) steps
      | some (.link target) =>
        match links with
        | 0 => .error .unreadable
        | links + 1 =>
          locate root links (if isRooted target then [] else way) (Text.pieces '/' target ++ steps)
termination_by steps => (links, steps.length)

theorem locate_links {root : Entries} {links : Nat} {way : List Entries} {steps : List String}
    {arrival : Arrival} (h : locate root links way steps = .ok arrival) : arrival.links ≤ links := by
  fun_induction locate root links way steps <;> simp_all
  all_goals first | (subst h; simp) | omega

/-- Where a path leads from the current directory. -/
def find (d : Disk) (path : String) : Except ReadFailure Arrival :=
  if path = "" then .error .missing
  else
    let start := if isRooted path then [] else Text.pieces '/' d.current
    locate d.root linkLimit [] (start ++ Text.pieces '/' path)

/-- The trees of the entries of a directory. A link that is followed stands for what it leads to, and for
a file if it leads nowhere; `depth` is how many directories more are looked into. -/
def listing (root : Entries) (follow : Bool) (links : Nat) (way : List Entries) (depth : Option Nat) :
    Entries → List (String × Tree)
  | [] => []
  | (name, .file _) :: rest => (name, .file) :: listing root follow links way depth rest
  | (name, .directory entries) :: rest =>
    let inner :=
      match below? depth with
      | some depth => listing root follow links (entries :: way) depth entries
      | none => []
    (name, .directory inner) :: listing root follow links way depth rest
  | (name, .link target) :: rest =>
    let tree : Tree :=
      if follow then
        match links with
        | 0 => .file
        | links + 1 =>
          match _h : locate root links (if isRooted target then [] else way) (Text.pieces '/' target) with
          | .ok ⟨.directory way, left⟩ =>
            match below? depth with
            | some depth => .directory (listing root follow left way depth (here root way))
            | none => .directory []
          | _ => .file
      else .link
    (name, tree) :: listing root follow links way depth rest
termination_by entries => (links, sizeOf entries)
decreasing_by
  case _ | _ | _ =>
    refine Prod.Lex.right _ ?_
    simp only [List.cons.sizeOf_spec, Prod.mk.sizeOf_spec, Entry.directory.sizeOf_spec]
    omega
  · exact Prod.Lex.left _ _ (Nat.lt_succ_of_le (locate_links _h))
  · refine Prod.Lex.right _ ?_
    simp only [List.cons.sizeOf_spec, Prod.mk.sizeOf_spec]
    omega

def tree (d : Disk) (follow : Bool) (depth : Option Nat) (path : String) : Option Tree :=
  match d.find path with
  | .ok ⟨.file _, _⟩ => some .file
  | .ok ⟨.directory way, links⟩ =>
    some (.directory (listing d.root follow links way depth (here d.root way)))
  | .error _ => none

def read (d : Disk) (path : String) : Except ReadFailure String :=
  match d.find path with
  | .ok ⟨.file (some text), _⟩ => .ok text
  | .ok _ => .error .unreadable
  | .error e => .error e

/-- All names on such a disk are texts. -/
def host {m : Type → Type} [Monad m] (d : Disk) : Host m where
  tree follow depth path := return d.tree follow depth path
  read path := return path.text?.elim (.error .missing) d.read

end Disk

end Schematron.Files
