import Schematron.Loading.Reference
import Schematron.Proofs.Files.Folding
import Schematron.Proofs.Files.Raw
import Schematron.Proofs.Splitting
import Schematron.Proofs.Xml.Location

/-!
Which names lead to one schema. Two names of a file resolve to one path, and are kept under one key, if they mean
the same and have equally many steps up at the root.
-/

namespace Schematron

namespace Files

/-- A step of a path that is read from a text: its own text has no slash, is not empty and, for a name, is not
that of a step up. -/
structure Step.IsPlain (s : Step) : Prop where
  whole : Path.stepText s ≠ "" ∧ '/' ∉ (Path.stepText s).toList
  named : s = .up ∨ Path.stepText s ≠ ".."
  text : Path.stepRaw s = .ofText (Path.stepText s)

theorem Step.IsPlain.eq_of_stepText_eq {s t : Step} (hs : s.IsPlain) (ht : t.IsPlain)
    (h : Path.stepText s = Path.stepText t) : s = t := by
  cases s with
  | up =>
    rcases ht.named with rfl | ht
    · rfl
    · exact absurd h.symm ht
  | name n =>
    cases t with
    | up => exact absurd h (hs.named.resolve_left nofun)
    | name m => exact congrArg Step.name (hs.text.trans (h ▸ ht.text.symm))

namespace Path

/-- A path tells by its text whether it begins at the root. -/
theorem head?_toText {p : Path} (h : ∀ s ∈ p.steps, s.IsPlain) :
    p.toText.toList.head? = some '/' ↔ p.rooted = true := by
  rw [toText_eq]
  obtain ⟨rooted, steps⟩ := p
  cases rooted with
  | true => simp
  | false =>
    cases steps with
    | nil => simp
    | cons s steps =>
      obtain ⟨hne, hslash⟩ := (h s List.mem_cons_self).whole
      obtain ⟨c, cs, hcs⟩ := List.exists_cons_of_ne_nil (mt String.toList_eq_nil_iff.mp hne)
      have hc : c ≠ '/' := by
        rintro rfl
        exact hslash (by simp [hcs])
      cases steps <;> simp [hcs, hc, String.intercalate_cons_cons]

theorem eq_of_map_stepText_eq {ss ts : List Step} (hs : ∀ s ∈ ss, s.IsPlain) (ht : ∀ t ∈ ts, t.IsPlain)
    (h : ss.map stepText = ts.map stepText) : ss = ts := by
  induction ss generalizing ts with
  | nil => exact (List.map_eq_nil_iff.mp h.symm).symm
  | cons s ss ih =>
    cases ts with
    | nil => cases h
    | cons t ts =>
      rw [List.forall_mem_cons] at hs ht
      rw [List.map_cons, List.map_cons, List.cons.injEq] at h
      rw [hs.1.eq_of_stepText_eq ht.1 h.1, ih hs.2 ht.2 h.2]

/-- Paths that are read from texts are told apart by their own texts. -/
theorem eq_of_toText_eq {p q : Path} (hp : ∀ s ∈ p.steps, s.IsPlain) (hq : ∀ s ∈ q.steps, s.IsPlain)
    (h : p.toText = q.toText) : p = q := by
  have hrooted : p.rooted = q.rooted := by
    rw [Bool.eq_iff_iff, ← head?_toText hp, ← head?_toText hq, h]
  have htexts {p : Path} (hp : ∀ s ∈ p.steps, s.IsPlain) :
      ∀ text ∈ p.steps.map stepText, text ≠ "" ∧ '/' ∉ text.toList := by
    intro _ htext
    obtain ⟨s, hs, rfl⟩ := List.mem_map.mp htext
    exact (hp s hs).whole
  have hsteps : p.steps = q.steps := by
    refine eq_of_map_stepText_eq hp hq (Xml.eq_of_intercalate_eq (htexts hp) (htexts hq) ?_)
    rw [toText_eq, toText_eq, hrooted] at h
    exact (String.append_right_inj _).mp h
  obtain ⟨rooted, steps⟩ := p
  obtain ⟨rooted', steps'⟩ := q
  rw [show rooted = rooted' from hrooted, show steps = steps' from hsteps]

end Path

theorem Path.isPlain_ofText {text : String} {step : Step} (h : step ∈ (Path.ofText text).steps) : step.IsPlain := by
  rw [Path.ofText_eq] at h
  obtain ⟨piece, hmem, hstep⟩ := List.mem_filterMap.mp h
  obtain ⟨hraw, hup⟩ := Spelling.of_stepOf?_eq_some hstep
  have htext : Path.stepText step = piece := by rw [Path.stepText, hraw, Raw.shown_ofText]
  have hslash := Text.notMem_of_mem_pieces hmem
  subst htext
  rcases hup with rfl | hname
  · exact ⟨⟨by decide, hslash⟩, .inl rfl, hraw⟩
  · rw [List.mem_map_of_injective Raw.ofText_injective] at hname
    simp only [List.mem_cons, List.not_mem_nil, or_false, not_or] at hname
    exact ⟨⟨hname.1, hslash⟩, .inr hname.2.2, hraw⟩

end Files

namespace Loading

open Schematron.Files

/-- A name as it is spelled from a directory; one that begins at the root takes the place of the directory. -/
def spelledFrom (base : Raw) (href : String) : Spelling :=
  (Spelling.ofRaw base).join (.ofRaw (.ofText (Source.withoutScheme href)))

namespace Source

variable {base base' : Raw} {href href' : String}

theorem resolve_eq_folded (h : isRemote href = false) :
    resolve (.ofRaw base) href = .file (spelledFrom base href).path.folded := by
  have hremote : ¬ isRemote href = true := by rw [h]; exact Bool.false_ne_true
  rw [resolve, if_neg hremote, spelledFrom, Spelling.path_join, Spelling.path_ofRaw, Spelling.path_ofRaw]
  rfl

/-- A source whose key tells where it is: a path by texts, or a URL. -/
def IsPlain : Source → Prop
  | file path => ∀ s ∈ path.steps, s.IsPlain
  | remote url => isRemote url = true

theorem isPlain_resolve {base : Path} (h : ∀ s ∈ base.steps, s.IsPlain) (href : String) :
    (resolve base href).IsPlain := by
  unfold resolve
  split
  · assumption
  · intro s hs
    have hjoined := Path.mem_of_mem_folded hs
    unfold Path.join at hjoined
    split at hjoined
    · exact Path.isPlain_ofText hjoined
    · exact (List.mem_append.mp hjoined).elim (h s) Path.isPlain_ofText

/-- What a document at a path by texts names, it names plainly. -/
theorem isPlain_of_mem_allIn {text : String} {document : Path} {r : Reference}
    (h : ∀ s ∈ document.steps, s.IsPlain) (hr : r ∈ Reference.allIn text document) : r.source.IsPlain := by
  have hdirectory : ∀ s ∈ document.directory.steps, s.IsPlain := by
    intro s hs
    unfold Path.directory at hs
    split at hs
    · cases hs
    · exact h s (List.dropLast_subset _ hs)
  obtain ⟨inside, -, hinside⟩ := List.mem_filterMap.mp hr
  unfold Reference.ofInstruction? at hinside
  dsimp only at hinside
  split at hinside
  · split at hinside
    · cases hinside
      exact isPlain_resolve hdirectory _
    · cases hinside
  · cases hinside

/-- No URL is a name under which a file is kept. -/
theorem isRemote_key_file (path : Path) : isRemote (key (.file path)) = false := by
  simp [isRemote, key, List.isPrefixOf]

theorem IsPlain.eq_of_key_eq {source source' : Source} (h : source.IsPlain) (h' : source'.IsPlain)
    (hkey : source.key = source'.key) : source = source' := by
  cases source with
  | file path =>
    cases source' with
    | file path' => exact congrArg file (Path.eq_of_toText_eq h h' ((String.append_right_inj _).mp hkey))
    | remote url =>
      rw [show url = key (.file path) from hkey.symm, IsPlain, isRemote_key_file] at h'
      cases h'
  | remote url =>
    cases source' with
    | file path =>
      rw [show url = key (.file path) from hkey, IsPlain, isRemote_key_file] at h
      cases h
    | remote url' => exact congrArg remote hkey

/-- Two names of files lead to one path just if they mean the same and, where they begin at the root, have equally
many steps up there: these are kept, though they lead nowhere. One path has one key, and where the directories are
texts one key has one path. What has a normal form already keeps it. -/
theorem resolve_eq_iff (h : isRemote href = false) (h' : isRemote href' = false) :
    (resolve (.ofRaw base) href = resolve (.ofRaw base') href' ↔
        (spelledFrom base href).SameMeaning (spelledFrom base' href') ∧
          ((spelledFrom base href).rooted = false ∨ (spelledFrom base href).above = (spelledFrom base' href').above)) ∧
      (resolve (.ofRaw base) href = resolve (.ofRaw base') href' →
        (resolve (.ofRaw base) href).key = (resolve (.ofRaw base') href').key) ∧
      (∀ directory directory' : String,
        (resolve (.ofText directory) href).key = (resolve (.ofText directory') href').key ↔
          resolve (.ofText directory) href = resolve (.ofText directory') href') ∧
      ∀ p : Path, p.folded.folded = p.folded := by
  have hplain (directory href : String) : (resolve (.ofText directory) href).IsPlain :=
    isPlain_resolve (fun _ => Path.isPlain_ofText) href
  refine ⟨?_, congrArg key, fun directory directory' => ?_, Path.folded_folded⟩
  · rw [resolve_eq_folded h, resolve_eq_folded h', Source.file.injEq]
    exact Spelling.folded_eq_iff
  · exact ⟨(hplain directory href).eq_of_key_eq (hplain directory' href'), congrArg key⟩

theorem resolve_eq_iff_dots :
    (isRemote "../rules/./doc.sch" = false ∧ isRemote "file:///data//rules/x/../doc.sch" = false) ∧
      resolve (.ofText "/data/in") "../rules/./doc.sch" =
        resolve (.ofText "docs") "file:///data//rules/x/../doc.sch" ∧
      (spelledFrom "/data/in" "../rules/./doc.sch").SameMeaning
        (spelledFrom "docs" "file:///data//rules/x/../doc.sch") ∧
      (resolve (.ofText "/data/in") "../rules/./doc.sch").key =
        (resolve (.ofText "docs") "file:///data//rules/x/../doc.sch").key := by
  have hlocal : isRemote "../rules/./doc.sch" = false := by decide +kernel
  have hlocal' : isRemote "file:///data//rules/x/../doc.sch" = false := by decide +kernel
  obtain ⟨hiff, hkey, -⟩ := @resolve_eq_iff "/data/in" "docs" _ _ hlocal hlocal'
  have heq : resolve (.ofText "/data/in") "../rules/./doc.sch" =
      resolve (.ofText "docs") "file:///data//rules/x/../doc.sch" := by
    decide +kernel
  exact ⟨⟨hlocal, hlocal'⟩, heq, (hiff.mp heq).1, hkey heq⟩

/-- A step up at the root leads nowhere, and yet is kept in the path and in the key. -/
theorem resolve_ne_upAtRoot :
    (spelledFrom "/" "/../doc.sch").SameMeaning (spelledFrom "/" "/doc.sch") ∧
      resolve (.ofText "/") "/../doc.sch" ≠ resolve (.ofText "/") "/doc.sch" ∧
      (resolve (.ofText "/") "/../doc.sch").key = "local:/../doc.sch" ∧
      (resolve (.ofText "/") "/doc.sch").key = "local:/doc.sch" := by
  have hup : spelledFrom "/" "/../doc.sch" = ⟨true, [] ++ .ofText "" :: [.ofText "..", .ofText "doc.sch"]⟩ := by
    decide +kernel
  have hdown : spelledFrom "/" "/doc.sch" = ⟨true, [] ++ .ofText "" :: [.ofText "doc.sch"]⟩ := by decide +kernel
  have hsame : Spelling.SameMeaning ⟨true, [.ofText "..", .ofText "doc.sch"]⟩ ⟨true, [.ofText "doc.sch"]⟩ :=
    .rel _ _ .root
  refine ⟨?_, by decide +kernel, by decide +kernel, by decide +kernel⟩
  rw [hup, hdown]
  refine .trans _ _ _ (.rel _ _ (.stay (.inl rfl))) (.trans _ _ _ hsame ?_)
  exact .symm _ _ (.rel _ _ (.stay (.inl rfl)))

end Source

end Loading

end Schematron
