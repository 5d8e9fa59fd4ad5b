import Mathlib.Data.List.Basic
import Mathlib.Data.List.Induction
import Mathlib.Logic.Relation
import Schematron.Files.Path

/-!
What a path means while links are not looked at, and how much of that its normal form keeps: all of it but for
steps up at the root, which lead nowhere and stay.
-/

namespace Schematron.Files

/-- A place by the steps up that lead out of where a path begins, and the names to go down from there. -/
structure Place where
  above : Nat
  names : List Raw

namespace Place

def steps (p : Place) : List Step := List.replicate p.above .up ++ p.names.map .name

/-- One step from a place. A step up takes back a name, if there is one. -/
def go (p : Place) : Step → Place
  | .name s => { p with names := p.names ++ [s] }
  | .up => if p.names = [] then { p with above := p.above + 1 } else { p with names := p.names.dropLast }

/-- Where steps lead. -/
def reached (way : List Step) : Place := way.foldl go ⟨0, []⟩

theorem go_up_concat (above : Nat) (names : List Raw) (s : Raw) :
    go ⟨above, names ++ [s]⟩ .up = ⟨above, names⟩ := by
  simp [go]

theorem foldStep_steps (p : Place) (s : Step) : Path.foldStep p.steps s = (p.go s).steps := by
  obtain ⟨above, names⟩ := p
  cases s with
  | name s => simp [Path.foldStep, steps, go]
  | up =>
    rcases List.eq_nil_or_concat' names with rfl | ⟨names, s, rfl⟩
    · cases above with
      | zero => rfl
      | succ above => simp [Path.foldStep, steps, go, List.replicate_succ']
    · rw [go_up_concat]
      have hlast : steps ⟨above, names ++ [s]⟩ = steps ⟨above, names⟩ ++ [.name s] := by simp [steps]
      simp [Path.foldStep, hlast]

theorem foldl_foldStep (p : Place) (way : List Step) :
    way.foldl Path.foldStep p.steps = (way.foldl go p).steps := by
  induction way generalizing p with
  | nil => rfl
  | cons s way ih => rw [List.foldl_cons, List.foldl_cons, foldStep_steps, ih]

theorem foldl_go_names (above : Nat) (names more : List Raw) :
    (more.map Step.name).foldl go ⟨above, names⟩ = ⟨above, names ++ more⟩ := by
  induction more generalizing names with
  | nil => simp
  | cons s more ih =>
    rw [List.map_cons, List.foldl_cons, go, ih, List.append_assoc]
    rfl

/-- Each place is reached by its own steps. -/
theorem reached_steps (p : Place) : reached p.steps = p := by
  obtain ⟨above, names⟩ := p
  have hup : (List.replicate above Step.up).foldl go ⟨0, []⟩ = ⟨above, []⟩ := by
    induction above with
    | zero => rfl
    | succ above ih =>
      rw [List.replicate_succ', List.foldl_append, ih, List.foldl_cons, List.foldl_nil, go, if_pos rfl]
  rw [reached, steps, List.foldl_append, hup, foldl_go_names, List.nil_append]

/-- From farther above the same steps lead equally much farther above. -/
theorem foldl_go_above (p : Place) (more : Nat) (way : List Step) :
    way.foldl go ⟨p.above + more, p.names⟩ = ⟨(way.foldl go p).above + more, (way.foldl go p).names⟩ := by
  induction way generalizing p with
  | nil => rfl
  | cons s way ih =>
    rw [List.foldl_cons, List.foldl_cons, ← ih]
    congr 1
    cases s with
    | name s => rfl
    | up =>
      by_cases hnames : p.names = []
      · simp only [go, if_pos hnames]
        rw [Nat.add_right_comm]
      · simp only [go, if_neg hnames]

end Place

namespace Path

/-- A path in normal form has its steps up first. -/
theorem folded_eq (p : Path) : p.folded = ⟨p.rooted, (Place.reached p.steps).steps⟩ := by
  rw [folded, Place.reached, ← Place.foldl_foldStep]
  rfl

theorem folded_folded (p : Path) : p.folded.folded = p.folded := by
  rw [folded_eq p, folded_eq, Place.reached_steps]

theorem mem_of_mem_foldl {s : Step} {way done : List Step} (h : s ∈ way.foldl foldStep done) :
    s ∈ done ∨ s ∈ way := by
  induction way generalizing done with
  | nil => exact .inl h
  | cons t way ih =>
    rcases ih h with h | h
    · have hstep : s ∈ done ∨ s = t := by
        unfold foldStep at h
        split at h
        · exact .inl (List.dropLast_subset _ h)
        · simpa using h
      exact hstep.imp_right fun heq => List.mem_cons.mpr (.inl heq)
    · exact .inr (List.mem_cons_of_mem _ h)

/-- Folding makes no steps of its own. -/
theorem mem_of_mem_folded {p : Path} {s : Step} (h : s ∈ p.folded.steps) : s ∈ p.steps := by
  rcases mem_of_mem_foldl h with h | h
  · cases h
  · exact h

end Path

/-- A path as it is spelled: whether it begins with a slash, and the pieces between its slashes. -/
structure Spelling where
  rooted : Bool
  pieces : List Raw
  deriving DecidableEq, Repr

namespace Spelling

def ofRaw (r : Raw) : Spelling := ⟨r.signs.head? = some (.char '/'), r.pieces⟩

/-- A path that does not begin at the root goes on where `base` ends. -/
def join (base s : Spelling) : Spelling := if s.rooted then s else { base with pieces := base.pieces ++ s.pieces }

def path (s : Spelling) : Path := ⟨s.rooted, s.pieces.filterMap Path.stepOf?⟩

/-- How many steps up find no name to take back. -/
def above (s : Spelling) : Nat := (Place.reached s.path.steps).above

/-- A shorter way to the same place: no piece and a single dot stay where they are, two dots take back the name
before them, and at the root they stay there. -/
inductive Shortens : Spelling → Spelling → Prop
  | stay {rooted : Bool} {before after : List Raw} {piece : Raw} (h : piece = .ofText "" ∨ piece = .ofText ".") :
    Shortens ⟨rooted, before ++ piece :: after⟩ ⟨rooted, before ++ after⟩
  | back {rooted : Bool} {before after : List Raw} {piece : Raw} (h : piece ∉ ["", ".", ".."].map Raw.ofText) :
    Shortens ⟨rooted, before ++ piece :: .ofText ".." :: after⟩ ⟨rooted, before ++ after⟩
  | root {after : List Raw} : Shortens ⟨true, .ofText ".." :: after⟩ ⟨true, after⟩

/-- Two spellings mean the same if shortening leads from one to the other, back and forth. -/
def SameMeaning : Spelling → Spelling → Prop := Relation.EqvGen Shortens

variable {s t : Spelling}

theorem path_join (base s : Spelling) : (base.join s).path = base.path.join s.path := by
  obtain ⟨rooted, pieces⟩ := s
  cases rooted with
  | true => rfl
  | false => simp [join, Path.join, path]

theorem path_ofRaw (r : Raw) : (ofRaw r).path = .ofRaw r := rfl

theorem stepOf?_eq_none_iff {piece : Raw} : Path.stepOf? piece = none ↔ piece = .ofText "" ∨ piece = .ofText "." := by
  unfold Path.stepOf?
  split
  · rename_i hstay
    exact iff_of_true rfl hstay
  · rename_i hstay
    refine iff_of_false ?_ hstay
    split <;> exact Option.some_ne_none _

theorem stepOf?_name {piece : Raw} (h : piece ∉ ["", ".", ".."].map Raw.ofText) :
    Path.stepOf? piece = some (.name piece) := by
  simp only [List.map_cons, List.map_nil, List.mem_cons, List.not_mem_nil, or_false, not_or] at h
  simp [Path.stepOf?, h]

/-- The step that a piece stands for is the piece itself, and is a step up for two dots only. -/
theorem of_stepOf?_eq_some {piece : Raw} {step : Step} (h : Path.stepOf? piece = some step) :
    Path.stepRaw step = piece ∧ (step = .up ∨ piece ∉ ["", ".", ".."].map Raw.ofText) := by
  unfold Path.stepOf? at h
  split at h
  · cases h
  rename_i hstay
  split at h
  · rename_i hup
    cases h
    exact ⟨hup.symm, .inl rfl⟩
  · rename_i hup
    cases h
    exact ⟨rfl, .inr (by simpa [and_assoc] using And.intro hstay hup)⟩

/-- What a path means: the root or none, the names and, without a root, the steps up before them. -/
structure Agree (s t : Spelling) : Prop where
  rooted : s.rooted = t.rooted
  names : (Place.reached s.path.steps).names = (Place.reached t.path.steps).names
  above : s.rooted = false → s.above = t.above

theorem agree_of_reached (hrooted : s.rooted = t.rooted)
    (h : Place.reached s.path.steps = Place.reached t.path.steps) : Agree s t :=
  ⟨hrooted, congrArg Place.names h, fun _ => congrArg Place.above h⟩

theorem Shortens.agree (h : Shortens s t) : Agree s t := by
  cases h with
  | @stay rooted before after piece h =>
    refine agree_of_reached rfl ?_
    simp [path, stepOf?_eq_none_iff.mpr h]
  | @back rooted before after piece h =>
    refine agree_of_reached rfl ?_
    have hback (p : Place) : (p.go (.name piece)).go .up = p := Place.go_up_concat p.above p.names piece
    have hup : Path.stepOf? (.ofText "..") = some .up := rfl
    simp only [path, Place.reached, List.filterMap_append, List.filterMap_cons, stepOf?_name h, hup,
      List.foldl_append, List.foldl_cons, hback]
  | @root after =>
    refine ⟨rfl, ?_, nofun⟩
    have hup : Place.go ⟨0, []⟩ .up = ⟨0 + 1, []⟩ := rfl
    have hsteps : path ⟨true, .ofText ".." :: after⟩ = ⟨true, .up :: (path ⟨true, after⟩).steps⟩ := rfl
    rw [hsteps, Place.reached, List.foldl_cons, hup, Place.foldl_go_above ⟨0, []⟩ 1]
    rfl

theorem SameMeaning.agree (h : SameMeaning s t) : Agree s t := by
  induction h with
  | rel s t h => exact h.agree
  | refl s => exact ⟨rfl, rfl, fun _ => rfl⟩
  | symm s t _ ih =>
    refine ⟨ih.rooted.symm, ih.names.symm, fun h => (ih.above ?_).symm⟩
    rw [ih.rooted]
    exact h
  | trans s t u _ _ ih ih' =>
    refine ⟨ih.rooted.trans ih'.rooted, ih.names.trans ih'.names, fun h => (ih.above h).trans (ih'.above ?_)⟩
    rw [← ih.rooted]
    exact h

theorem Shortens.append (h : Shortens s t) (more : List Raw) :
    Shortens ⟨s.rooted, s.pieces ++ more⟩ ⟨t.rooted, t.pieces ++ more⟩ := by
  cases h with
  | stay h =>
    simp only [List.append_assoc, List.cons_append]
    exact .stay h
  | back h =>
    simp only [List.append_assoc, List.cons_append]
    exact .back h
  | root => exact .root

theorem SameMeaning.append (h : SameMeaning s t) (more : List Raw) :
    SameMeaning ⟨s.rooted, s.pieces ++ more⟩ ⟨t.rooted, t.pieces ++ more⟩ := by
  induction h with
  | rel s t h => exact .rel _ _ (h.append more)
  | refl s => exact .refl _
  | symm s t _ ih => exact .symm _ _ ih
  | trans s t u _ _ ih ih' => exact .trans _ _ _ ih ih'

/-- The normal form of a path, spelled out. -/
def normal (s : Spelling) : Spelling := ⟨s.rooted, s.path.folded.steps.map Path.stepRaw⟩

/-- What a path means is what its normal form means. -/
theorem sameMeaning_normal (s : Spelling) : SameMeaning s s.normal := by
  obtain ⟨rooted, pieces⟩ := s
  induction pieces using List.reverseRecOn with
  | nil => exact .refl _
  | append_singleton pieces piece ih =>
    refine .trans _ _ _ (ih.append [piece]) ?_
    -- The last piece is put behind the normal form of the others, and is at most one step of shortening away.
    have hsteps : (path ⟨rooted, pieces ++ [piece]⟩).folded.steps =
        (Path.stepOf? piece).toList.foldl Path.foldStep (path ⟨rooted, pieces⟩).folded.steps := by
      cases hstep : Path.stepOf? piece <;> simp [path, Path.folded, hstep]
    have hmem (n : Raw) (h : .name n ∈ (path ⟨rooted, pieces⟩).folded.steps) :
        n ∉ ["", ".", ".."].map Raw.ofText := by
      obtain ⟨piece', -, hpiece'⟩ := List.mem_filterMap.mp (Path.mem_of_mem_folded h)
      obtain ⟨rfl, hup | hname⟩ := of_stepOf?_eq_some hpiece'
      · cases hup
      · exact hname
    unfold normal
    rw [hsteps]
    generalize (path ⟨rooted, pieces⟩).folded.steps = done at hmem
    cases hstep : Path.stepOf? piece with
    | none =>
      have hshort : Shortens ⟨rooted, done.map Path.stepRaw ++ [piece]⟩ ⟨rooted, done.map Path.stepRaw ++ []⟩ :=
        .stay (stepOf?_eq_none_iff.mp hstep)
      rw [List.append_nil] at hshort
      exact .rel _ _ hshort
    | some step =>
      obtain ⟨rfl, -⟩ := of_stepOf?_eq_some hstep
      show SameMeaning _ ⟨rooted, (Path.foldStep done step).map Path.stepRaw⟩
      unfold Path.foldStep
      split
      · rename_i n hlast
        obtain ⟨before, rfl⟩ := List.getLast?_eq_some_iff.mp hlast
        have hshort : Shortens ⟨rooted, before.map Path.stepRaw ++ n :: .ofText ".." :: []⟩
            ⟨rooted, before.map Path.stepRaw ++ []⟩ := .back (hmem n (by simp))
        rw [List.append_nil] at hshort
        rw [List.dropLast_concat, List.map_append, List.append_assoc]
        exact .rel _ _ hshort
      · rw [List.map_append]
        exact .refl _

/-- Paths have one normal form if they mean the same and, where they begin at the root, have equally many steps up
there. -/
theorem folded_eq_iff :
    s.path.folded = t.path.folded ↔ SameMeaning s t ∧ (s.rooted = false ∨ s.above = t.above) := by
  rw [Path.folded_eq, Path.folded_eq, Path.mk.injEq]
  constructor
  · rintro ⟨hrooted, hsteps⟩
    have hreached : Place.reached s.path.steps = Place.reached t.path.steps := by
      rw [← Place.reached_steps (Place.reached s.path.steps), hsteps, Place.reached_steps]
    have hnormal : s.normal = t.normal := by
      have hrooted' : s.rooted = t.rooted := hrooted
      simp only [normal, Path.folded_eq, hsteps, hrooted']
    refine ⟨.trans _ _ _ s.sameMeaning_normal ?_, .inr (congrArg Place.above hreached)⟩
    rw [hnormal]
    exact .symm _ _ t.sameMeaning_normal
  · rintro ⟨hsame, habove⟩
    obtain ⟨hrooted, hnames, habove'⟩ := hsame.agree
    have heq : s.above = t.above := habove.elim habove' id
    refine ⟨hrooted, congrArg Place.steps ?_⟩
    rw [show Place.reached s.path.steps = ⟨s.above, (Place.reached s.path.steps).names⟩ from rfl, heq, hnames]
    rfl

end Spelling

end Schematron.Files
