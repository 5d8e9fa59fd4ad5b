import Schematron.Files.Filter

/-!
Trees of files, and the search for the files below a directory. What a search finds is in the order of
paths and so does not depend on the order in which directories list their entries.
-/

namespace Schematron.Files

inductive Tree where
  | file
  /-- A link that is not to be followed. -/
  | link
  | directory (entries : List (String × Tree))

/-- The limit inside a directory; at a limit of zero, directories are not entered. -/
def below? : Option Nat → Option (Option Nat)
  | none => some none
  | some 0 => none
  | some (n + 1) => some (some n)

mutual
/-- How many directories a tree has. -/
def Tree.directories : Tree → Nat
  | .directory entries => directoriesIn entries + 1
  | _ => 0

def directoriesIn : List (String × Tree) → Nat
  | [] => 0
  | (_, t) :: rest => t.directories + directoriesIn rest
end

/-- A directory that is still to be read, so many directories below the start. -/
structure Pending where
  path : String
  depth : Nat
  entries : List (String × Tree)

/-- How far a search has come: the files it has found, and the directories still to be read. -/
structure Sweep where
  found : List String
  pending : List Pending

namespace Sweep

/-- How many directories a search has still before it. -/
def remaining (s : Sweep) : Nat := s.pending.foldr (fun dir n => directoriesIn dir.entries + 1 + n) 0

/-- An entry of the directory `dir`: a file is found if the filter accepts it, and a directory is put off unless it is
too deep. -/
def visit (filter : Filter) (limit : Option Nat) (dir : Pending) (s : Sweep) (entry : String × Tree) : Sweep :=
  match entry.2 with
  | .link => s
  | .directory entries =>
    if limit.all (dir.depth < ·) then
      { s with pending := ⟨entryText dir.path entry.1, dir.depth + 1, entries⟩ :: s.pending }
    else s
  | .file =>
    if filter.accepts (entryText dir.path entry.1) then { s with found := s.found ++ [entryText dir.path entry.1] }
    else s

def read (filter : Filter) (limit : Option Nat) (dir : Pending) (s : Sweep) : Sweep :=
  dir.entries.foldl (visit filter limit dir) s

theorem remaining_visit_le (filter : Filter) (limit : Option Nat) (dir : Pending) (s : Sweep)
    (entry : String × Tree) : (s.visit filter limit dir entry).remaining ≤ s.remaining + entry.2.directories := by
  obtain ⟨name, t⟩ := entry
  cases t with
  | link => exact Nat.le_add_right _ _
  | file =>
    simp only [visit]
    split <;> exact Nat.le_add_right _ _
  | directory entries =>
    simp only [visit, Tree.directories]
    split
    · simp only [remaining, List.foldr_cons]
      omega
    · omega

theorem remaining_read_le (filter : Filter) (limit : Option Nat) (dir : Pending) (s : Sweep) :
    (s.read filter limit dir).remaining ≤ s.remaining + directoriesIn dir.entries := by
  unfold read
  generalize dir.entries = entries
  induction entries generalizing s with
  | nil => exact Nat.le_add_right _ _
  | cons entry entries ih =>
    have hvisit := remaining_visit_le filter limit dir s entry
    have hmore := ih (s.visit filter limit dir entry)
    rw [List.foldl_cons, directoriesIn]
    omega

/-- Reads directories until none is left, the one put off last first. -/
def run (filter : Filter) (limit : Option Nat) : Sweep → List String
  | ⟨found, []⟩ => found
  | ⟨found, dir :: rest⟩ => run filter limit (read filter limit dir ⟨found, rest⟩)
termination_by s => s.remaining
decreasing_by
  have hle := remaining_read_le filter limit dir ⟨found, rest⟩
  have hnow : remaining ⟨found, dir :: rest⟩ = directoriesIn dir.entries + 1 + remaining ⟨found, rest⟩ := rfl
  omega

end Sweep

def namesAtMost : List String → List String → Bool
  | [], _ => true
  | _ :: _, [] => false
  | a :: as, b :: bs => a < b || (a = b && namesAtMost as bs)

/-- The order of paths: step by step, each step by its characters. -/
def pathAtMost (a b : String) : Bool :=
  namesAtMost ((Path.ofText a).steps.map Path.stepText) ((Path.ofText b).steps.map Path.stepText)

/-- The files at or below a path that a filter accepts, at most `limit` directories further down. -/
def discover (filter : Filter) (limit : Option Nat) (path : String) : Tree → List String
  | .directory entries => (Sweep.run filter limit ⟨[], [⟨path, 0, entries⟩]⟩).mergeSort pathAtMost
  | _ => if filter.accepts path then [path] else []

end Schematron.Files
