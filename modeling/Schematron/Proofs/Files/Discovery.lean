import Mathlib.Data.List.Flatten
import Mathlib.Data.List.Nodup
import Mathlib.Data.String.Basic
import Schematron.Files.Disk
import Schematron.Proofs.Files.Folding
import Schematron.Proofs.Files.Raw
import Schematron.Proofs.Splitting

/-!
What a search for files finds. It puts off the directories that it meets and reads them one after the other; what
it has found and what is below the directories put off is together the same at every step, up to the order.
-/

namespace Schematron.Files

/-- A directory with these entries has a file under it, at the end of the way with these names. -/
inductive HasFile : List (String × Tree) → List String → Prop
  | entry {entries : List (String × Tree)} {name : String} (h : (name, .file) ∈ entries) : HasFile entries [name]
  | inside {entries inner : List (String × Tree)} {name : String} {names : List String}
    (h : (name, .directory inner) ∈ entries) (hfile : HasFile inner names) : HasFile entries (name :: names)

/-- The path to what is reached from a directory by these names. -/
def pathBelow (path : String) (names : List String) : String := names.foldl entryText path

mutual
/-- The names on the ways to the files of a tree, which is an entry of this name, in the order of the listings. -/
def Tree.ways (name : String) : Tree → List (List String)
  | .file => [[name]]
  | .link => []
  | .directory entries => (waysIn entries).map (name :: ·)

def waysIn : List (String × Tree) → List (List String)
  | [] => []
  | (name, t) :: rest => t.ways name ++ waysIn rest
end

theorem waysIn_eq_flatMap (entries : List (String × Tree)) :
    waysIn entries = entries.flatMap fun entry => entry.2.ways entry.1 := by
  induction entries with
  | nil => rfl
  | cons entry rest ih => rw [waysIn, ih, List.flatMap_cons]

theorem head?_of_mem_ways {name : String} {names : List String} {t : Tree} (h : names ∈ t.ways name) :
    names.head? = some name := by
  cases t with
  | file =>
    rw [List.mem_singleton.mp h]
    rfl
  | link => cases h
  | directory entries =>
    obtain ⟨more, -, rfl⟩ := List.mem_map.mp h
    rfl

theorem mem_waysIn {entries : List (String × Tree)} {names : List String} :
    names ∈ waysIn entries ↔ HasFile entries names := by
  rw [waysIn_eq_flatMap]
  constructor
  · intro h
    induction names generalizing entries with
    | nil =>
      obtain ⟨entry, -, hway⟩ := List.mem_flatMap.mp h
      cases head?_of_mem_ways hway
    | cons first names ih =>
      obtain ⟨⟨name, t⟩, hentry, hway⟩ := List.mem_flatMap.mp h
      cases t with
      | file =>
        rw [List.mem_singleton.mp hway]
        exact .entry hentry
      | link => cases hway
      | directory inner =>
        obtain ⟨more, hmore, heq⟩ := List.mem_map.mp hway
        cases heq
        rw [waysIn_eq_flatMap] at hmore
        exact .inside hentry (ih hmore)
  · intro h
    rw [List.mem_flatMap]
    induction h with
    | entry h => exact ⟨_, h, List.mem_singleton_self _⟩
    | inside h _ ih =>
      refine ⟨_, h, List.mem_map.mpr ⟨_, ?_, rfl⟩⟩
      rw [waysIn_eq_flatMap]
      exact List.mem_flatMap.mpr ih

/-- No more directories lead to a file than a search may go down from the depth it has reached. -/
def within (limit : Option Nat) (depth : Nat) (names : List String) : Bool :=
  limit.all (depth + names.length ≤ · + 1)

theorem within_comp_cons (limit : Option Nat) (depth : Nat) (name : String) :
    within limit depth ∘ (name :: ·) = within limit (depth + 1) := by
  funext names
  simp only [Function.comp, within, List.length_cons, Nat.add_assoc, Nat.add_comm 1]

/-- In a directory that is too deep no file is near enough. -/
theorem filter_within_eq_nil {limit : Option Nat} {depth : Nat} (h : limit.all (depth < ·) = false)
    (entries : List (String × Tree)) : (waysIn entries).filter (within limit (depth + 1)) = [] := by
  refine List.filter_eq_nil_iff.mpr fun names hnames => ?_
  have hlength : 0 < names.length := by
    cases mem_waysIn.mp hnames <;> exact Nat.succ_pos _
  cases limit with
  | none => cases h
  | some n =>
    simp only [Option.all_some, decide_eq_false_iff_not] at h
    simp only [within, Option.all_some, decide_eq_true_eq]
    omega

/-- What a search is to find in a directory that it has put off. -/
def Pending.files (filter : Filter) (limit : Option Nat) (dir : Pending) : List String :=
  (((waysIn dir.entries).filter (within limit dir.depth)).map (pathBelow dir.path)).filter filter.accepts

namespace Sweep

variable {filter : Filter} {limit : Option Nat} {dir : Pending} {s : Sweep}

/-- What a search has found and what it is still to find. -/
def files (filter : Filter) (limit : Option Nat) (s : Sweep) : List String :=
  s.found ++ s.pending.flatMap (Pending.files filter limit)

/-- No directory is put off that is deeper than the limit. -/
def Within (limit : Option Nat) (s : Sweep) : Prop := ∀ dir ∈ s.pending, limit.all (dir.depth ≤ ·) = true

theorem files_cons (entry : String × Tree) (rest : List (String × Tree)) (path : String) (depth : Nat) :
    Pending.files filter limit ⟨path, depth, entry :: rest⟩ =
      Pending.files filter limit ⟨path, depth, [entry]⟩ ++ Pending.files filter limit ⟨path, depth, rest⟩ := by
  simp [Pending.files, waysIn]

/-- A directory that is put off holds what it held as an entry. -/
theorem files_directory (path name : String) (depth : Nat) (inner : List (String × Tree)) :
    Pending.files filter limit ⟨path, depth, [(name, .directory inner)]⟩ =
      Pending.files filter limit ⟨entryText path name, depth + 1, inner⟩ := by
  have hpath : pathBelow path ∘ (name :: ·) = pathBelow (entryText path name) := rfl
  have hways : waysIn [(name, .directory inner)] = (waysIn inner).map (name :: ·) := List.append_nil _
  simp only [Pending.files, hways, List.filter_map, List.map_map, within_comp_cons, hpath]

/-- A directory that is too deep to be read holds nothing that is to be found. -/
theorem files_directory_eq_nil {path name : String} {depth : Nat} {inner : List (String × Tree)}
    (h : limit.all (depth < ·) = false) :
    Pending.files filter limit ⟨path, depth, [(name, .directory inner)]⟩ = [] := by
  rw [files_directory, Pending.files, filter_within_eq_nil h]
  rfl

/-- One entry of a directory moves what it holds to what the search has found or put off. -/
theorem files_visit (hdir : limit.all (dir.depth ≤ ·) = true) (entry : String × Tree) :
    ((s.visit filter limit dir entry).files filter limit).Perm
      (s.files filter limit ++ Pending.files filter limit ⟨dir.path, dir.depth, [entry]⟩) := by
  obtain ⟨name, t⟩ := entry
  cases t with
  | link =>
    rw [show Pending.files filter limit ⟨dir.path, dir.depth, [(name, .link)]⟩ = [] from rfl, List.append_nil]
    exact .refl _
  | file =>
    have hwithin : within limit dir.depth [name] = true := by
      cases limit with
      | none => rfl
      | some n => simpa [within] using hdir
    have hfiles : Pending.files filter limit ⟨dir.path, dir.depth, [(name, .file)]⟩ =
        [entryText dir.path name].filter filter.accepts := by
      simp [Pending.files, waysIn, Tree.ways, hwithin, pathBelow]
    rw [hfiles]
    by_cases haccepts : filter.accepts (entryText dir.path name) = true
    · have hvisit : s.visit filter limit dir (name, .file) =
          { s with found := s.found ++ [entryText dir.path name] } := if_pos haccepts
      rw [hvisit, List.filter_cons_of_pos haccepts, files, files, List.append_assoc, List.append_assoc]
      exact List.perm_append_comm.append_left _
    · have hvisit : s.visit filter limit dir (name, .file) = s := if_neg haccepts
      rw [hvisit, List.filter_cons_of_neg haccepts, List.filter_nil, List.append_nil]
  | directory inner =>
    cases hdeep : limit.all (dir.depth < ·) with
    | true =>
      have hvisit : s.visit filter limit dir (name, .directory inner) =
          { s with pending := ⟨entryText dir.path name, dir.depth + 1, inner⟩ :: s.pending } := if_pos hdeep
      rw [hvisit, files_directory, files, files, List.flatMap_cons, List.append_assoc]
      exact List.perm_append_comm.append_left _
    | false =>
      have hvisit : s.visit filter limit dir (name, .directory inner) = s :=
        if_neg (by rw [hdeep]; exact Bool.false_ne_true)
      rw [hvisit, files_directory_eq_nil hdeep, List.append_nil]

theorem within_visit (h : s.Within limit) (entry : String × Tree) : (s.visit filter limit dir entry).Within limit := by
  obtain ⟨name, t⟩ := entry
  cases t with
  | link => exact h
  | file =>
    simp only [visit]
    split <;> exact h
  | directory inner =>
    simp only [visit]
    split
    · rename_i hdeep
      intro later hlater
      rcases List.mem_cons.mp hlater with rfl | hlater
      · simpa only [Nat.succ_le_iff] using hdeep
      · exact h later hlater
    · exact h

/-- Reading a directory moves all that it holds. -/
theorem files_foldl_visit (hdir : limit.all (dir.depth ≤ ·) = true) (entries : List (String × Tree))
    (h : s.Within limit) :
    (entries.foldl (visit filter limit dir) s).Within limit ∧
      ((entries.foldl (visit filter limit dir) s).files filter limit).Perm
        (s.files filter limit ++ Pending.files filter limit ⟨dir.path, dir.depth, entries⟩) := by
  induction entries generalizing s with
  | nil => exact ⟨h, .of_eq (List.append_nil _).symm⟩
  | cons entry entries ih =>
    obtain ⟨hwithin, hmore⟩ := ih (within_visit h entry)
    refine ⟨hwithin, hmore.trans ?_⟩
    rw [files_cons, ← List.append_assoc]
    exact (files_visit hdir entry).append_right _

/-- A search finds what there is to be found, each file as often. -/
theorem run_perm (filter : Filter) {limit : Option Nat} {s : Sweep} (h : s.Within limit) :
    (run filter limit s).Perm (s.files filter limit) := by
  fun_induction run filter limit s with
  | case1 found => exact .of_eq (List.append_nil _).symm
  | case2 found dir rest ih =>
    have hrest : Within limit ⟨found, rest⟩ := fun later hlater => h later (List.mem_cons_of_mem _ hlater)
    obtain ⟨hwithin, hread⟩ := files_foldl_visit (h dir List.mem_cons_self) dir.entries hrest
    refine (ih hwithin).trans (hread.trans ?_)
    rw [files, files, List.flatMap_cons, List.append_assoc]
    exact List.perm_append_comm.append_left _

end Sweep

/-- The name of an entry of a directory. -/
structure IsName (name : String) : Prop where
  named : name ∉ ["", ".", ".."]
  whole : '/' ∉ name.toList

instance (name : String) : Decidable (IsName name) :=
  decidable_of_iff (name ∉ ["", ".", ".."] ∧ '/' ∉ name.toList) ⟨fun h => ⟨h.1, h.2⟩, fun h => ⟨h.named, h.whole⟩⟩

/-- The steps of a path as they are spelled, by which paths are compared. -/
def stepTexts (path : String) : List String := (Path.ofText path).steps.map Path.stepText

theorem stepTexts_eq (path : String) : stepTexts path =
    ((Text.pieces '/' path).filterMap fun piece => Path.stepOf? (.ofText piece)).map Path.stepText := by
  rw [stepTexts, Path.ofText_eq]

theorem stepTexts_between (before after : String) :
    stepTexts (before ++ "/" ++ after) = stepTexts before ++ stepTexts after := by
  have hpieces : Text.pieces '/' (before ++ "/" ++ after) = Text.pieces '/' before ++ Text.pieces '/' after :=
    Text.pieces_between '/' before after
  rw [stepTexts_eq, hpieces, List.filterMap_append, List.map_append, ← stepTexts_eq, ← stepTexts_eq]

theorem stepTexts_name {name : String} (h : IsName name) : stepTexts name = [name] := by
  have hnamed : Raw.ofText name ∉ ["", ".", ".."].map Raw.ofText :=
    mt (List.mem_map_of_injective Raw.ofText_injective).mp h.named
  rw [stepTexts_eq, Text.pieces_of_notMem h.whole, List.filterMap_cons, Spelling.stepOf?_name hnamed]
  exact congrArg (· :: []) (Raw.shown_ofText name)

/-- The path to an entry has the steps of the directory and the name. -/
theorem stepTexts_entryText (path : String) {name : String} (h : IsName name) :
    stepTexts (entryText path name) = stepTexts path ++ [name] := by
  have hempty : stepTexts "" = [] := rfl
  unfold entryText
  split
  · rename_i hjoined
    rcases hjoined with rfl | hslash
    · rw [String.empty_append, stepTexts_name h, hempty, List.nil_append]
    · obtain ⟨cs, hcs⟩ := List.getLast?_eq_some_iff.mp hslash
      have hpath : path = String.ofList cs ++ "/" := by
        rw [← String.toList_inj, hcs]
        simp
      have hdir : stepTexts path = stepTexts (String.ofList cs) := by
        have hbetween := stepTexts_between (String.ofList cs) ""
        rwa [String.append_empty, ← hpath, hempty, List.append_nil] at hbetween
      rw [hdir, hpath, stepTexts_between, stepTexts_name h]
  · rw [stepTexts_between, stepTexts_name h]

theorem stepTexts_pathBelow (path : String) {names : List String} (h : ∀ name ∈ names, IsName name) :
    stepTexts (pathBelow path names) = stepTexts path ++ names := by
  induction names generalizing path with
  | nil => exact (List.append_nil _).symm
  | cons name names ih =>
    have hmore := ih (entryText path name) fun n hn => h n (List.mem_cons_of_mem _ hn)
    rw [pathBelow, List.foldl_cons]
    rw [pathBelow] at hmore
    rw [hmore, stepTexts_entryText path (h name List.mem_cons_self), List.append_assoc, List.singleton_append]

theorem namesAtMost_iff {as bs : List String} : namesAtMost as bs = true ↔ as ≤ bs := by
  fun_induction namesAtMost as bs with
  | case1 bs => exact iff_of_true rfl (not_lt.mp (List.not_lt_nil bs))
  | case2 a as => exact iff_of_false Bool.false_ne_true (not_le.mpr (List.nil_lt_cons a as))
  | case3 a as b bs ih =>
    rw [Bool.or_eq_true, Bool.and_eq_true, decide_eq_true_eq, decide_eq_true_eq, ih, ← not_lt, ← not_lt,
      List.cons_lt_cons_iff]
    rcases lt_trichotomy a b with hlt | rfl | hgt
    · simp only [hlt, hlt.not_gt, hlt.ne', false_and, or_self, not_false_eq_true, true_or]
    · simp only [lt_irrefl, true_and, false_or]
    · simp only [hgt, hgt.not_gt, hgt.ne', false_and, or_self, true_or, not_true_eq_false]

theorem pathAtMost_iff {p q : String} : pathAtMost p q = true ↔ stepTexts p ≤ stepTexts q := namesAtMost_iff

/-- The entries of a directory have names, no two the same, and so have those of the directories below it. -/
inductive Proper : List (String × Tree) → Prop
  | intro {entries : List (String × Tree)} (hnames : ∀ entry ∈ entries, IsName entry.1)
    (hdistinct : (entries.map Prod.fst).Nodup)
    (hbelow : ∀ name inner, (name, Tree.directory inner) ∈ entries → Proper inner) : Proper entries

theorem HasFile.isName {entries : List (String × Tree)} {names : List String} (h : HasFile entries names)
    (hproper : Proper entries) : ∀ name ∈ names, IsName name := by
  induction h with
  | entry h =>
    obtain ⟨hnames, -, -⟩ := hproper
    intro n hn
    rw [List.mem_singleton.mp hn]
    exact hnames _ h
  | inside h hfile ih =>
    obtain ⟨hnames, -, hbelow⟩ := hproper
    intro n hn
    rcases List.mem_cons.mp hn with rfl | hn
    · exact hnames _ h
    · exact ih (hbelow _ _ h) n hn

/-- No way leads to two files. -/
theorem nodup_waysIn {entries : List (String × Tree)} (h : Proper entries) : (waysIn entries).Nodup := by
  induction h with
  | @intro entries hnames hdistinct hbelow ih =>
    rw [waysIn_eq_flatMap, List.nodup_flatMap]
    constructor
    · rintro ⟨name, t⟩ hentry
      cases t with
      | file => exact List.nodup_singleton _
      | link => exact List.nodup_nil
      | directory inner => exact (ih name inner hentry).map fun _ _ heq => (List.cons.inj heq).2
    · refine (List.pairwise_map.mp hdistinct).imp fun {e e'} hne => ?_
      intro names hnames hnames'
      have hhead := head?_of_mem_ways hnames
      rw [head?_of_mem_ways hnames'] at hhead
      exact hne (Option.some.inj hhead).symm

/-- What a search is to find are paths with different steps. -/
theorem nodup_stepTexts_files {filter : Filter} {limit : Option Nat} {dir : Pending} (h : Proper dir.entries) :
    ((dir.files filter limit).map stepTexts).Nodup := by
  have hfiles : ((dir.files filter limit).map stepTexts).Sublist
      ((((waysIn dir.entries).filter (within limit dir.depth)).map (pathBelow dir.path)).map stepTexts) :=
    List.filter_sublist.map _
  refine hfiles.nodup ?_
  rw [List.map_map]
  refine List.Nodup.map_on ?_ ((nodup_waysIn h).filter _)
  intro names hnames more hmore heq
  have hname := (mem_waysIn.mp (List.mem_filter.mp hnames).1).isName h
  have hname' := (mem_waysIn.mp (List.mem_filter.mp hmore).1).isName h
  simp only [Function.comp] at heq
  rw [stepTexts_pathBelow _ hname, stepTexts_pathBelow _ hname'] at heq
  exact List.append_cancel_left heq

theorem discover_perm (filter : Filter) (limit : Option Nat) (path : String) (entries : List (String × Tree)) :
    (discover filter limit path (.directory entries)).Perm (Pending.files filter limit ⟨path, 0, entries⟩) := by
  have hwithin : Sweep.Within limit ⟨[], [⟨path, 0, entries⟩]⟩ := by
    intro dir hdir
    rw [List.mem_singleton.mp hdir]
    cases limit <;> rfl
  have hfiles : Sweep.files filter limit ⟨[], [⟨path, 0, entries⟩]⟩ =
      Pending.files filter limit ⟨path, 0, entries⟩ := List.append_nil _
  have hrun := Sweep.run_perm filter hwithin
  rw [hfiles] at hrun
  exact (List.mergeSort_perm _ _).trans hrun

theorem pairwise_discover (filter : Filter) (limit : Option Nat) (path : String) (entries : List (String × Tree)) :
    (discover filter limit path (.directory entries)).Pairwise (fun p q => stepTexts p ≤ stepTexts q) := by
  have htrans (p q r : String) (hpq : pathAtMost p q = true) (hqr : pathAtMost q r = true) :
      pathAtMost p r = true := by
    rw [pathAtMost_iff] at hpq hqr ⊢
    exact hpq.trans hqr
  have htotal (p q : String) : (pathAtMost p q || pathAtMost q p) = true := by
    rw [Bool.or_eq_true, pathAtMost_iff, pathAtMost_iff]
    exact le_total _ _
  exact (List.pairwise_mergeSort htrans htotal _).imp pathAtMost_iff.mp

theorem nodup_stepTexts_discover (filter : Filter) (limit : Option Nat) (path : String)
    {entries : List (String × Tree)} (h : Proper entries) :
    ((discover filter limit path (.directory entries)).map stepTexts).Nodup :=
  ((discover_perm filter limit path entries).map stepTexts).nodup_iff.mpr (nodup_stepTexts_files h)

theorem mem_files {filter : Filter} {limit : Option Nat} {path p : String} {entries : List (String × Tree)} :
    p ∈ Pending.files filter limit ⟨path, 0, entries⟩ ↔
      ∃ dirs name, HasFile entries (dirs ++ [name]) ∧ (∀ n, limit = some n → dirs.length ≤ n) ∧
        p = pathBelow path (dirs ++ [name]) ∧ filter.accepts p = true := by
  have hwithin (dirs : List String) (name : String) :
      within limit 0 (dirs ++ [name]) = true ↔ ∀ n, limit = some n → dirs.length ≤ n := by
    cases limit with
    | none => exact iff_of_true rfl nofun
    | some n => simp [within]
  simp only [Pending.files, List.mem_filter, List.mem_map, mem_waysIn]
  constructor
  · rintro ⟨⟨names, ⟨hfile, hnames⟩, rfl⟩, haccepts⟩
    have hne : names ≠ [] := by
      rintro rfl
      cases hfile
    obtain ⟨dirs, name, rfl⟩ := (List.eq_nil_or_concat' names).resolve_left hne
    exact ⟨dirs, name, hfile, (hwithin dirs name).mp hnames, rfl, haccepts⟩
  · rintro ⟨dirs, name, hfile, hdirs, rfl, haccepts⟩
    exact ⟨⟨_, ⟨hfile, (hwithin dirs name).mpr hdirs⟩, rfl⟩, haccepts⟩

/-- What the directories of a tree may be listed as: their entries in any order and, where they are too deep, not at
all. -/
inductive Listed : Option Nat → List (String × Tree) → List (String × Tree) → Prop
  | refl (limit : Option Nat) (entries : List (String × Tree)) : Listed limit entries entries
  | swap (limit : Option Nat) (e e' : String × Tree) (rest : List (String × Tree)) :
    Listed limit (e :: e' :: rest) (e' :: e :: rest)
  | cons {limit : Option Nat} {rest rest' : List (String × Tree)} (e : String × Tree) (h : Listed limit rest rest') :
    Listed limit (e :: rest) (e :: rest')
  | inside {limit inner : Option Nat} {entries entries' : List (String × Tree)} (name : String)
    (rest : List (String × Tree)) (hbelow : below? limit = some inner) (h : Listed inner entries entries') :
    Listed limit ((name, .directory entries) :: rest) ((name, .directory entries') :: rest)
  | cut {limit : Option Nat} (name : String) (entries rest : List (String × Tree)) (hbelow : below? limit = none) :
    Listed limit ((name, .directory entries) :: rest) ((name, .directory []) :: rest)
  | trans {limit : Option Nat} {entries entries' entries'' : List (String × Tree)} (h : Listed limit entries entries')
    (h' : Listed limit entries' entries'') : Listed limit entries entries''

/-- The ways that are not too long are the same in all listings. -/
theorem Listed.perm {limit : Option Nat} {entries listed : List (String × Tree)} (h : Listed limit entries listed) :
    ((waysIn listed).filter (within limit 0)).Perm ((waysIn entries).filter (within limit 0)) := by
  induction h with
  | refl limit entries => exact .refl _
  | swap limit e e' rest =>
    simp only [waysIn, List.filter_append, ← List.append_assoc]
    exact List.perm_append_comm.append_right _
  | cons e h ih =>
    simp only [waysIn, List.filter_append]
    exact ih.append_left _
  | @inside limit inner entries entries' name rest hbelow h ih =>
    have hinner : within limit (0 + 1) = within inner 0 := by
      funext names
      unfold below? at hbelow
      split at hbelow <;> cases hbelow
      · rfl
      · simp [within, Nat.add_comm 1]
    simp only [waysIn, Tree.ways, List.filter_append, List.filter_map, within_comp_cons, hinner]
    exact (ih.map _).append_right _
  | @cut limit name entries rest hbelow =>
    have hdeep : limit.all (0 < ·) = false := by
      unfold below? at hbelow
      split at hbelow <;> cases hbelow
      rfl
    simp only [waysIn, Tree.ways, List.filter_append, List.filter_map, within_comp_cons, filter_within_eq_nil hdeep]
    exact .refl _
  | trans h h' ih ih' => exact ih'.trans ih

/-- A search finds the same however the directories are listed. -/
theorem discover_eq_of_listed (filter : Filter) (path : String) {limit : Option Nat}
    {entries listed : List (String × Tree)} (h : Proper entries) (hlisted : Listed limit entries listed) :
    discover filter limit path (.directory listed) = discover filter limit path (.directory entries) := by
  have hfiles : (Pending.files filter limit ⟨path, 0, listed⟩).Perm (Pending.files filter limit ⟨path, 0, entries⟩) :=
    (hlisted.perm.map _).filter _
  have hperm := (discover_perm filter limit path listed).trans
    (hfiles.trans (discover_perm filter limit path entries).symm)
  refine hperm.eq_of_pairwise ?_ (pairwise_discover ..) (pairwise_discover ..)
  intro p q hp hq hpq hqp
  have hnodup := nodup_stepTexts_discover filter limit path h
  exact List.inj_on_of_nodup_map hnodup (hperm.mem_iff.mp hp) hq (le_antisymm hpq hqp)

namespace Disk

/-- Entries that are read down to a limit, out of all there are. -/
theorem listed_listing (root : Entries) (links : Nat) (way : List Entries) (limit : Option Nat) :
    ∀ entries : Entries, Listed limit (listing root false links way none entries)
      (listing root false links way limit entries)
  | [] => by
    rw [listing, listing]
    exact .refl _ _
  | (name, .file text) :: rest => by
    rw [listing, listing]
    exact .cons _ (listed_listing root links way limit rest)
  | (name, .link target) :: rest => by
    have hlink (limit : Option Nat) : listing root false links way limit ((name, .link target) :: rest) =
        (name, .link) :: listing root false links way limit rest := by
      rw [listing.eq_def]
      rfl
    rw [hlink, hlink]
    exact .cons _ (listed_listing root links way limit rest)
  | (name, .directory entries) :: rest => by
    rw [listing.eq_def _ _ _ _ none (_ :: _), listing.eq_def _ _ _ _ limit (_ :: _)]
    refine .trans (.cons _ (listed_listing root links way limit rest)) ?_
    cases hbelow : below? limit with
    | none => exact .cut _ _ _ hbelow
    | some inner => exact .inside _ _ hbelow (listed_listing root links (entries :: way) inner entries)

/-- Of a disk no more needs to be read than the limit lets a search see. -/
theorem discover_tree {d : Disk} {path : String} {entries : List (String × Tree)} (filter : Filter)
    (limit : Option Nat) (h : d.tree false none path = some (.directory entries)) (hproper : Proper entries) :
    ∃ t, d.tree false limit path = some t ∧
      discover filter limit path t = discover filter limit path (.directory entries) := by
  unfold tree at h ⊢
  split at h
  · cases h
  · cases h
    exact ⟨_, rfl, discover_eq_of_listed filter path hproper (listed_listing ..)⟩
  · cases h

end Disk

/-- A search below a directory finds the files that the filter accepts with no more directories on the way than the
limit, and puts them in strict order, so that each comes once. It finds the same in whichever order the directories
list their entries. -/
theorem discover_files (filter : Filter) (limit : Option Nat) (path : String) {entries : List (String × Tree)}
    (h : Proper entries) :
    (∀ p, p ∈ discover filter limit path (.directory entries) ↔
      ∃ dirs name, HasFile entries (dirs ++ [name]) ∧ (∀ n, limit = some n → dirs.length ≤ n) ∧
        p = pathBelow path (dirs ++ [name]) ∧ filter.accepts p = true) ∧
    (discover filter limit path (.directory entries)).Pairwise (fun p q => stepTexts p < stepTexts q) ∧
    ∀ listed, Listed limit entries listed →
      discover filter limit path (.directory listed) = discover filter limit path (.directory entries) := by
  have hnodup := nodup_stepTexts_discover filter limit path h
  refine ⟨fun p => (discover_perm filter limit path entries).mem_iff.trans mem_files, ?_,
    fun listed hlisted => discover_eq_of_listed filter path h hlisted⟩
  have hstrict := (pairwise_discover filter limit path entries).and (List.pairwise_map.mp hnodup)
  exact hstrict.imp fun hle => lt_of_le_of_ne hle.1 hle.2

/-- A directory with a file, a directory in it and another one in that, each with a file. -/
def nested : List (String × Tree) :=
  [("b.xml", .file), ("notes.txt", .file),
    ("a", .directory [("c.xml", .file), ("deep", .directory [("d.xml", .file)])])]

theorem proper_nested : Proper nested := by
  have hdeep : Proper [("d.xml", .file)] := .intro (by decide) (by decide) (by simp)
  have hinner : Proper [("c.xml", .file), ("deep", .directory [("d.xml", .file)])] :=
    .intro (by decide) (by decide) (by simpa using hdeep)
  exact .intro (by decide) (by decide) (by simpa [nested] using hinner)

/-- With a limit of one directory, and with the listings turned around. -/
theorem discover_files_nested :
    discover ⟨["xml"], [], []⟩ (some 1) "r" (.directory nested) = ["r/a/c.xml", "r/b.xml"] ∧
    discover ⟨["xml"], [], []⟩ (some 1) "r"
      (.directory [("b.xml", .file), ("a", .directory [("deep", .directory []), ("c.xml", .file)]),
        ("notes.txt", .file)]) = ["r/a/c.xml", "r/b.xml"] := by
  obtain ⟨-, hsorted, hlisted⟩ := discover_files ⟨["xml"], [], []⟩ (some 1) "r" proper_nested
  have hfiles : Pending.files ⟨["xml"], [], []⟩ (some 1) ⟨"r", 0, nested⟩ = ["r/b.xml", "r/a/c.xml"] := by
    decide +kernel
  have hfound : discover ⟨["xml"], [], []⟩ (some 1) "r" (.directory nested) = ["r/a/c.xml", "r/b.xml"] := by
    have hperm := discover_perm ⟨["xml"], [], []⟩ (some 1) "r" nested
    rw [hfiles] at hperm
    refine (hperm.trans (.swap ..)).eq_of_pairwise ?_ hsorted ?_
    · exact fun p q _ _ hpq hqp => absurd hqp hpq.not_gt
    · decide +kernel
  refine ⟨hfound, (hlisted _ ?_).trans hfound⟩
  refine .cons _ (.trans (.swap ..) ?_)
  refine .inside _ _ rfl (.trans (.swap ..) ?_)
  exact .cut _ _ _ rfl

end Schematron.Files
