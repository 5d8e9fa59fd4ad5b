import Schematron.Proofs.Reading
import Schematron.Proofs.XPath.Lexing
import Schematron.Loading.Reference

/-!
The pseudo-attributes of an instruction as they are written, and what is read from them.
-/

namespace Schematron.Loading

open Schematron.Files
open Schematron.Text (isBlank skipBlanks isBlank_of_skipBlanks)
open Schematron.XPath (mem_of_inRanges skipBlanks_of_not_blank)

/-- A pseudo-attribute as it is written, with the white space in front of it and around its equals sign. -/
structure PseudoAttribute where
  before : List Char
  name : String
  left : List Char
  right : List Char
  quote : Char
  value : String

namespace PseudoAttribute

def written (a : PseudoAttribute) : List Char :=
  a.before ++ (a.name.toList ++ (a.left ++ '=' :: (a.right ++ a.quote :: (a.value.toList ++ [a.quote]))))

def entry (a : PseudoAttribute) : String × String := (a.name, a.value)

structure WellFormed (a : PseudoAttribute) : Prop where
  before : ∀ c ∈ a.before, isBlank c = true
  start : ∃ c ∈ a.name.toList.head?, Association.isNameStart c = true
  name : ∀ c ∈ a.name.toList, Association.isNameChar c = true
  left : ∀ c ∈ a.left, isBlank c = true
  right : ∀ c ∈ a.right, isBlank c = true
  quote : a.quote = '"' ∨ a.quote = '\''
  value : a.quote ∉ a.value.toList

/-- The last of the attributes with this name has this value. -/
def Gives (attributes : List PseudoAttribute) (name value : String) : Prop :=
  ∃ a ∈ (attributes.filter (·.name = name)).getLast?, a.value = value

/-- The attributes say that `href` is a Schematron schema: by the namespace they give or, if they give none,
by the ending of the name. -/
def NamesSchematron (attributes : List PseudoAttribute) (href : String) : Prop :=
  Gives attributes "schematypens" Schema.isoNamespace ∨
  Gives attributes "schematypens" Schema.earlyNamespace ∨
  (∀ a ∈ attributes, a.name ≠ "schematypens") ∧ ".sch".toList <:+ href.toList

end PseudoAttribute

namespace Association

theorem blanks_in_no_name : ∀ n ∈ Text.blankRanges.flatMap (fun r => List.range' r.1 (r.2 + 1 - r.1)),
    isNameChar (Char.ofNat n) = false ∧ isNameStart (Char.ofNat n) = false := by
  decide +kernel

theorem no_name_of_isBlank {c : Char} (h : isBlank c = true) : isNameChar c = false ∧ isNameStart c = false := by
  have hname := blanks_in_no_name _ (mem_of_inRanges h)
  rwa [Char.ofNat_toNat] at hname

theorem skipBlanks_append {blanks : List Char} (h : ∀ c ∈ blanks, isBlank c = true) (rest : List Char) :
    skipBlanks (blanks ++ rest) = skipBlanks rest :=
  List.dropWhile_append_of_pos h

/-- What a part of a text without the mark ends before the mark. -/
theorem cut_singleton {quote : Char} {cs : List Char} (h : quote ∉ cs) (rest : List Char) :
    Reader.cut [quote] (cs ++ quote :: rest) = some (cs, rest) := by
  induction cs with
  | nil => simp [Reader.cut, List.isPrefixOf?]
  | cons c cs ih =>
    obtain ⟨hc, hcs⟩ := not_or.mp (mt List.mem_cons.mpr h)
    simp [Reader.cut, List.isPrefixOf?, hc, ih hcs]

theorem value?_quoted {quote : Char} {value : List Char} (hquote : quote = '"' ∨ quote = '\'')
    (hvalue : quote ∉ value) (rest : List Char) :
    value? (quote :: (value ++ quote :: rest)) = some (value, rest) := by
  rcases hquote with rfl | rfl
  · exact cut_singleton hvalue rest
  · exact cut_singleton hvalue rest

theorem pseudo?_written {a : PseudoAttribute} (h : a.WellFormed) (hbefore : a.before = []) (rest : List Char) :
    pseudo? (a.written ++ rest) = some (a.entry, rest) := by
  obtain ⟨c, hstart, hc⟩ := h.start
  obtain ⟨more, hname⟩ := List.head?_eq_some_iff.mp hstart
  have hmore : ∀ d ∈ more, isNameChar d = true := fun d hd => h.name d (hname ▸ List.mem_cons_of_mem c hd)
  have hquote : isBlank a.quote = false := by
    rcases h.quote with hq | hq <;> rw [hq] <;> decide
  let behind := a.left ++ '=' :: (a.right ++ a.quote :: (a.value.toList ++ a.quote :: rest))
  have htext : a.written ++ rest = c :: (more ++ behind) := by
    simp [PseudoAttribute.written, hbefore, hname, behind]
  have hend : ∀ d ∈ behind.head?, isNameChar d = false := by
    cases hleft : a.left with
    | nil => simp [behind, hleft]; decide
    | cons b left =>
      have hb := h.left b (hleft ▸ List.mem_cons_self)
      simp [behind, hleft, (no_name_of_isBlank hb).1]
  obtain ⟨htake, hdrop⟩ := takeWhile_append_of_all hmore hend
  have hequals : skipBlanks behind = '=' :: (a.right ++ a.quote :: (a.value.toList ++ a.quote :: rest)) :=
    (skipBlanks_append h.left _).trans (skipBlanks_of_not_blank (by decide) _)
  have hvalue : skipBlanks (a.right ++ a.quote :: (a.value.toList ++ a.quote :: rest)) =
      a.quote :: (a.value.toList ++ a.quote :: rest) :=
    (skipBlanks_append h.right _).trans (skipBlanks_of_not_blank hquote _)
  rw [htext, pseudo?, if_pos hc, hdrop, hequals]
  simp only [hvalue, value?_quoted h.quote h.value, htake, Option.map_some]
  rw [← hname, String.ofList_toList, String.ofList_toList]
  rfl

theorem pseudos_of_pseudo? {cs after : List Char} {found : String × String}
    (h : pseudo? cs = some (found, after)) : pseudos cs = found :: pseudos after := by
  cases cs with
  | nil => cases h
  | cons c rest =>
    rw [pseudos]
    split
    · rename_i found' after' h'
      rw [h] at h'
      cases h'
      rfl
    · rename_i h'
      rw [h] at h'
      cases h'

theorem pseudos_blank {c : Char} (h : isBlank c = true) (rest : List Char) :
    pseudos (c :: rest) = pseudos rest := by
  have hnone : pseudo? (c :: rest) = none := by
    rw [pseudo?, if_neg (by simp [(no_name_of_isBlank h).2])]
  rw [pseudos]
  split
  · rename_i h'
    rw [hnone] at h'
    cases h'
  · rfl

theorem pseudos_blanks {blanks : List Char} (h : ∀ c ∈ blanks, isBlank c = true) (rest : List Char) :
    pseudos (blanks ++ rest) = pseudos rest := by
  induction blanks with
  | nil => rfl
  | cons c blanks ih =>
    obtain ⟨hc, hblanks⟩ := List.forall_mem_cons.mp h
    rw [List.cons_append, pseudos_blank hc, ih hblanks]

theorem pseudos_skipBlanks (cs : List Char) : pseudos (skipBlanks cs) = pseudos cs := by
  have hblanks : ∀ c ∈ cs.takeWhile isBlank, isBlank c = true := fun _ => List.mem_takeWhile_imp
  have h := pseudos_blanks hblanks (cs.dropWhile isBlank)
  rwa [List.takeWhile_append_dropWhile, eq_comm] at h

theorem pseudos_written {a : PseudoAttribute} (h : a.WellFormed) (rest : List Char) :
    pseudos (a.written ++ rest) = a.entry :: pseudos rest := by
  have htight : ({ a with before := [] } : PseudoAttribute).WellFormed := { h with before := by simp }
  calc pseudos (a.written ++ rest)
      = pseudos (a.before ++ (({ a with before := [] } : PseudoAttribute).written ++ rest)) := by
        simp [PseudoAttribute.written]
    _ = pseudos (({ a with before := [] } : PseudoAttribute).written ++ rest) := pseudos_blanks h.before _
    _ = a.entry :: pseudos rest := pseudos_of_pseudo? (pseudo?_written htight rfl rest)

/-- Attributes that are written one after another are read as they are, white space aside. -/
theorem pseudos_skipBlanks_written {attributes : List PseudoAttribute} (h : ∀ a ∈ attributes, a.WellFormed)
    {after : List Char} (hafter : ∀ c ∈ after, isBlank c = true) :
    pseudos (skipBlanks (attributes.flatMap (·.written) ++ after)) = attributes.map (·.entry) := by
  rw [pseudos_skipBlanks]
  induction attributes with
  | nil =>
    have hblank := pseudos_blanks hafter []
    rwa [List.append_nil, pseudos] at hblank
  | cons a attributes ih =>
    obtain ⟨ha, hattributes⟩ := List.forall_mem_cons.mp h
    rw [List.flatMap_cons, List.append_assoc, pseudos_written ha, ih hattributes, List.map_cons]

theorem valueOf?_append_singleton (name : String) (attributes : List PseudoAttribute) (a : PseudoAttribute) :
    valueOf? name ((attributes ++ [a]).map (·.entry)) =
      if a.name = name then some a.value else valueOf? name (attributes.map (·.entry)) := by
  by_cases ha : a.name = name
  · simp [valueOf?, PseudoAttribute.entry, ha]
  · simp [valueOf?, PseudoAttribute.entry, List.lookup_cons, ha, beq_eq_false_iff_ne.mpr (Ne.symm ha)]

theorem gives_append_singleton (name value : String) (attributes : List PseudoAttribute) (a : PseudoAttribute) :
    PseudoAttribute.Gives (attributes ++ [a]) name value ↔
      if a.name = name then a.value = value else PseudoAttribute.Gives attributes name value := by
  by_cases ha : a.name = name
  · simp [PseudoAttribute.Gives, ha]
  · simp [PseudoAttribute.Gives, ha]

/-- The value of a pseudo-attribute is the one that the last of its name has. -/
theorem valueOf?_eq_some_iff {attributes : List PseudoAttribute} {name value : String} :
    valueOf? name (attributes.map (·.entry)) = some value ↔ PseudoAttribute.Gives attributes name value := by
  induction attributes using List.reverseRecOn with
  | nil => simp [valueOf?, PseudoAttribute.Gives]
  | append_singleton attributes a ih =>
    rw [valueOf?_append_singleton, gives_append_singleton]
    split
    · exact Option.some_inj
    · exact ih

theorem valueOf?_eq_none_iff {attributes : List PseudoAttribute} {name : String} :
    valueOf? name (attributes.map (·.entry)) = none ↔ ∀ a ∈ attributes, a.name ≠ name := by
  rw [valueOf?, List.lookup_eq_none_iff]
  simp only [List.mem_reverse, List.forall_mem_map, PseudoAttribute.entry, bne_iff_ne, ne_comm]

theorem isSchematron_iff {attributes : List PseudoAttribute} {href : String} :
    Reference.isSchematron href (valueOf? "schematypens" (attributes.map (·.entry))) = true ↔
      PseudoAttribute.NamesSchematron attributes href := by
  unfold PseudoAttribute.NamesSchematron
  rw [← valueOf?_eq_some_iff, ← valueOf?_eq_some_iff, ← valueOf?_eq_none_iff]
  cases valueOf? "schematypens" (attributes.map (·.entry)) with
  | none => simp [Reference.isSchematron]
  | some uri => simp [Reference.isSchematron]

end Association

/-- An instruction with these attributes names the schema that its `href` leads to, if they say that it is a
Schematron schema, and else none. -/
theorem ofInstruction?_eq_some_iff {attributes : List PseudoAttribute} (h : ∀ a ∈ attributes, a.WellFormed)
    {after : List Char} (hafter : ∀ c ∈ after, isBlank c = true) (base : Path) (r : Reference) :
    Reference.ofInstruction? base (skipBlanks (attributes.flatMap (·.written) ++ after)) = some r ↔
      ∃ href, PseudoAttribute.Gives attributes "href" href ∧
        PseudoAttribute.NamesSchematron attributes href ∧ r = ⟨href, .resolve base href⟩ := by
  simp only [Reference.ofInstruction?, Association.pseudos_skipBlanks_written h hafter,
    ← Association.valueOf?_eq_some_iff, ← Association.isSchematron_iff]
  cases Association.valueOf? "href" (attributes.map (·.entry)) with
  | none => simp
  | some href =>
    simp only [Option.some.injEq, exists_eq_left', eq_comm]
    split <;> simp_all

end Schematron.Loading
