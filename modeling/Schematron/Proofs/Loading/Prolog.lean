import Mathlib.Data.List.Infix
import Schematron.Proofs.Loading.Attributes
import Schematron.Xml.Lexical

/-!
Prologs as XML has them, against the text in which associations are looked for. A prolog is searched up to the
first `<` that looks like a tag, and wherever an instruction seems to begin in it, in a comment too; where no
piece of a prolog looks so, its associations are found.
-/

namespace Schematron.Loading

open Schematron.Files
open Schematron.Text (isBlank skipBlanks)
open Schematron.XPath (forall_of_all skipBlanks_of_not_blank)

/-- What stands between `<!DOCTYPE` and its `>`, in which there is no internal subset. -/
inductive DoctypePart where
  | char (c : Char)
  | literal (quote : Char) (text : List Char)
  deriving DecidableEq

inductive Piece where
  | space (c : Char)
  | comment (text : List Char)
  | instruction (target data : List Char)
  | doctype (parts : List DoctypePart)
  deriving DecidableEq

def DoctypePart.written : DoctypePart → List Char
  | .char c => [c]
  | .literal quote text => quote :: (text ++ [quote])

def DoctypePart.WellFormed : DoctypePart → Prop
  | .char c => c ∉ ['<', '>', '[', ']', '"', '\'']
  | .literal quote text => (quote = '"' ∨ quote = '\'') ∧ quote ∉ text

def doctypeMark : List Char := "<!DOCTYPE".toList

def associationTarget : List Char := "xml-model".toList

namespace Piece

def written : Piece → List Char
  | space c => [c]
  | comment text => ['<', '!', '-', '-'] ++ text ++ ['-', '-', '>']
  | instruction target data => ['<', '?'] ++ target ++ data ++ ['?', '>']
  | doctype parts => doctypeMark ++ parts.flatMap (·.written) ++ ['>']

/-- The piece is as the grammar of XML has it. -/
def WellFormed : Piece → Prop
  | space c => Xml.isSpace c = true
  | comment text => ¬ ['-', '-'] <:+: text ++ ['-']
  | instruction target data =>
    (∃ c ∈ target.head?, Xml.isNameStart c = true ∨ c = ':') ∧
    (∀ c ∈ target, Xml.isNameChar c = true ∨ c = ':') ∧
    (∀ c ∈ data.head?, Xml.isSpace c = true) ∧ ¬ ['?', '>'] <:+: data
  | doctype parts => ∀ part ∈ parts, part.WellFormed

/-- What an association holds, without the white space in front. -/
def association? : Piece → Option (List Char)
  | instruction target (c :: data) =>
    if target = associationTarget then some (skipBlanks (c :: data)) else none
  | _ => none

/-- The schema that an association names. -/
def reference? (base : Path) (p : Piece) : Option Reference :=
  p.association?.bind (Reference.ofInstruction? base)

end Piece

/-- Somewhere in the text a tag seems to begin. -/
def HasTag (cs : List Char) : Prop := ∃ c ∈ cs, c ≠ '?' ∧ c ≠ '!' ∧ ['<', c] <:+: cs

/-- Somewhere in the text an association seems to begin. -/
def HasAssociation (cs : List Char) : Prop := ∃ c ∈ cs, isBlank c = true ∧ Association.mark ++ [c] <:+: cs

/-- No tag seems to begin in the piece and, where it is no association, no association either. -/
def Piece.Clean (p : Piece) : Prop :=
  ¬ HasTag p.written ∧ (p.association? = none → ¬ HasAssociation p.written)

/-- The root of a document, and what follows in it. -/
def IsRoot (cs : List Char) : Prop := ∃ c rest, cs = '<' :: c :: rest ∧ c ≠ '?' ∧ c ≠ '!'

instance : DecidablePred DoctypePart.WellFormed
  | .char c => inferInstanceAs (Decidable (c ∉ _))
  | .literal _ _ => inferInstanceAs (Decidable (_ ∧ _))

instance : DecidablePred Piece.WellFormed
  | .space c => inferInstanceAs (Decidable (Xml.isSpace c = true))
  | .comment _ => inferInstanceAs (Decidable (¬ _))
  | .instruction target data =>
    have := Option.decidableExistsMem (p := fun c => Xml.isNameStart c = true ∨ c = ':') target.head?
    have := List.decidableBAll (fun c => Xml.isNameChar c = true ∨ c = ':') target
    have := Option.decidableForallMem (p := fun c => Xml.isSpace c = true) data.head?
    inferInstanceAs (Decidable (_ ∧ _))
  | .doctype parts => List.decidableBAll DoctypePart.WellFormed parts

instance : DecidablePred HasTag := fun cs =>
  List.decidableBEx (fun c => c ≠ '?' ∧ c ≠ '!' ∧ ['<', c] <:+: cs) cs

instance : DecidablePred HasAssociation := fun cs =>
  List.decidableBEx (fun c => isBlank c = true ∧ Association.mark ++ [c] <:+: cs) cs

instance : DecidablePred Piece.Clean := fun _ => inferInstanceAs (Decidable (_ ∧ _))

theorem not_hasTag_of_cons {c : Char} {cs : List Char} (h : ¬ HasTag (c :: cs)) : ¬ HasTag cs := by
  rintro ⟨d, hd, hne, hne', hin⟩
  exact h ⟨d, List.mem_cons_of_mem c hd, hne, hne', List.infix_cons hin⟩

theorem prolog_append {cs : List Char} (htag : ¬ HasTag cs) (hlast : ∀ c ∈ cs.getLast?, c ≠ '<')
    (rest : List Char) : prolog (cs ++ rest) = cs ++ prolog rest := by
  induction cs with
  | nil => rfl
  | cons c cs ih =>
    have htail : ∀ d ∈ cs.getLast?, d ≠ '<' := fun d hd => hlast d (List.mem_getLast?_cons hd)
    have ih := ih (not_hasTag_of_cons htag) htail
    by_cases hc : c = '<'
    · subst hc
      cases cs with
      | nil => exact absurd rfl (hlast '<' rfl)
      | cons d cs =>
        have hd : d = '?' ∨ d = '!' := by
          by_contra hne
          exact htag ⟨d, by simp, fun h => hne (.inl h), fun h => hne (.inr h), ⟨[], cs, rfl⟩⟩
        rcases hd with rfl | rfl <;> simpa [prolog] using ih
    · simp [prolog, ih]

theorem prolog_root {cs : List Char} (h : IsRoot cs) : prolog cs = [] := by
  obtain ⟨c, rest, rfl, hne, hne'⟩ := h
  simp [prolog, hne, hne']

theorem prolog_cons (c : Char) (cs : List Char) :
    prolog (c :: cs) = [] ∨ prolog (c :: cs) = c :: prolog cs := by
  by_cases hc : c = '<'
  · subst hc
    cases cs with
    | nil => exact .inl rfl
    | cons d cs =>
      by_cases hquestion : d = '?'
      · exact .inr (by rw [hquestion, prolog])
      · by_cases hbang : d = '!'
        · exact .inr (by rw [hbang, prolog])
        · exact .inl (prolog_root ⟨d, cs, rfl, hquestion, hbang⟩)
  · exact .inr (by simp [prolog])

theorem length_prolog_append_le {rest : List Char} (h : IsRoot rest) (cs : List Char) :
    (prolog (cs ++ rest)).length ≤ cs.length := by
  induction cs with
  | nil => simp [prolog_root h]
  | cons c cs ih =>
    rcases prolog_cons c (cs ++ rest) with h | h
    · rw [List.cons_append, h]
      exact Nat.zero_le _
    · rw [List.cons_append, h]
      exact Nat.succ_le_succ ih

/-- What seems to be a tag ends the prolog. -/
theorem length_prolog_lt {cs : List Char} (h : HasTag cs) (rest : List Char) :
    (prolog (cs ++ rest)).length < cs.length := by
  obtain ⟨c, -, hne, hne', front, back, rfl⟩ := h
  have hroot : IsRoot ('<' :: c :: (back ++ rest)) := ⟨c, _, rfl, hne, hne'⟩
  have hle := length_prolog_append_le hroot front
  simp only [List.append_assoc, List.cons_append, List.nil_append, List.length_append,
    List.length_cons] at hle ⊢
  omega

namespace Association

theorem isPrefixOf?_append (cs rest : List Char) : cs.isPrefixOf? (cs ++ rest) = some rest := by
  induction cs with
  | nil => rfl
  | cons c cs ih => simp [List.isPrefixOf?, ih]

theorem behindTarget?_mark {c : Char} (hc : isBlank c = true) (rest : List Char) :
    behindTarget? (mark ++ c :: rest) = some (skipBlanks rest) := by
  rw [behindTarget?, isPrefixOf?_append]
  simp [hc]

theorem behindTarget?_eq_none {cs : List Char} (hne : cs ≠ []) (hfree : ¬ HasAssociation cs)
    (hlast : ∀ c ∈ cs.getLast?, c ∉ mark) (rest : List Char) : behindTarget? (cs ++ rest) = none := by
  unfold behindTarget?
  split
  · rename_i c more hprefix
    split
    · rename_i hc
      have htext : cs ++ rest = (mark ++ [c]) ++ more := by
        rw [Reader.eq_append_of_isPrefixOf? hprefix, List.append_assoc]
        rfl
      have hfree' : ¬ mark ++ [c] <+: cs := fun hp =>
        hfree ⟨c, hp.subset (by simp), hc, hp.isInfix⟩
      have hshort : cs <+: mark := by
        rcases List.prefix_or_prefix_of_prefix (List.prefix_append cs rest) ⟨more, htext.symm⟩ with hp | hp
        · rcases List.prefix_concat_iff.mp hp with heq | hp
          · exact absurd (heq ▸ List.prefix_rfl) hfree'
          · exact hp
        · exact absurd hp hfree'
      exact absurd (hshort.subset (List.getLast_mem hne)) (hlast _ (List.getLast?_eq_getLast_of_ne_nil hne))
    · rfl
  · rfl

theorem next?_append {cs : List Char} (hfree : ¬ HasAssociation cs) (hlast : ∀ c ∈ cs.getLast?, c ∉ mark)
    (rest : List Char) : next? (cs ++ rest) = next? rest := by
  induction cs with
  | nil => rfl
  | cons c cs ih =>
    have hnone := behindTarget?_eq_none (List.cons_ne_nil c cs) hfree hlast rest
    have hfree' : ¬ HasAssociation cs := by
      rintro ⟨d, hd, hblank, hin⟩
      exact hfree ⟨d, List.mem_cons_of_mem c hd, hblank, List.infix_cons hin⟩
    have hlast' : ∀ d ∈ cs.getLast?, d ∉ mark := fun d hd => hlast d (List.mem_getLast?_cons hd)
    rw [List.cons_append] at hnone ⊢
    rw [next?, hnone]
    exact ih hfree' hlast'

theorem cut_close {cs : List Char} (h : ¬ ['?', '>'] <:+: cs) (rest : List Char) :
    Reader.cut ['?', '>'] (cs ++ '?' :: '>' :: rest) = some (cs, rest) := by
  induction cs with
  | nil => simp [Reader.cut, List.isPrefixOf?]
  | cons c cs ih =>
    have hnone : ['?', '>'].isPrefixOf? (c :: (cs ++ '?' :: '>' :: rest)) = none := by
      by_cases hc : c = '?'
      · cases cs with
        | nil => simp [List.isPrefixOf?]
        | cons d cs =>
          have hd : '>' ≠ d := by
            rintro rfl
            exact h ⟨[], cs, by simp [hc]⟩
          simp [List.isPrefixOf?, hd]
      · simp [List.isPrefixOf?, Ne.symm hc]
    rw [List.cons_append, Reader.cut, hnone, ih fun hin => h (List.infix_cons hin)]
    rfl

theorem cut_isSome {cs : List Char} (h : ['?', '>'] <:+: cs) : (Reader.cut ['?', '>'] cs).isSome = true := by
  induction cs with
  | nil => simp at h
  | cons c cs ih =>
    rw [Reader.cut]
    split
    · rfl
    · rename_i hnone
      rcases List.infix_cons_iff.mp h with ⟨rest, hp⟩ | hin
      · rw [← hp, isPrefixOf?_append] at hnone
        cases hnone
      · rw [Option.isSome_map]
        exact ih hin

theorem infix_skipBlanks {cs : List Char} (h : ['?', '>'] <:+: cs) : ['?', '>'] <:+: skipBlanks cs := by
  induction cs with
  | nil => exact h
  | cons c cs ih =>
    by_cases hc : isBlank c = true
    · have hne : '?' ≠ c := by
        rintro rfl
        exact absurd hc (by decide)
      unfold skipBlanks
      rw [List.dropWhile_cons_of_pos hc]
      rcases List.infix_cons_iff.mp h with hp | hin
      · exact absurd (List.cons_prefix_cons.mp hp).1 hne
      · exact ih hin
    · rwa [skipBlanks_of_not_blank (Bool.eq_false_iff.mpr hc)]

theorem next?_of_cut {cs body : List Char} {found : List Char × List Char} (h : behindTarget? cs = some body)
    (hcut : Reader.cut ['?', '>'] body = some found) : next? cs = some found := by
  cases cs with
  | nil => cases h
  | cons c cs => rw [next?, h, Option.bind_some, hcut]

/-- What seems to be an association is found where an instruction ends behind it. -/
theorem next?_isSome {cs rest : List Char} (h : HasAssociation cs) (hclose : ['?', '>'] <:+: rest) :
    (next? (cs ++ rest)).isSome = true := by
  obtain ⟨c, -, hc, front, back, rfl⟩ := h
  induction front with
  | nil =>
    have hclose' : ['?', '>'] <:+: back ++ rest := hclose.trans (List.suffix_append back rest).isInfix
    obtain ⟨found, hfound⟩ := Option.isSome_iff_exists.mp (cut_isSome (infix_skipBlanks hclose'))
    have htext : [] ++ (mark ++ [c]) ++ back ++ rest = mark ++ c :: (back ++ rest) := by simp
    rw [htext, next?_of_cut (behindTarget?_mark hc (back ++ rest)) hfound]
    rfl
  | cons d front ih =>
    rw [List.cons_append, List.cons_append, List.cons_append, next?]
    split
    · rfl
    · exact ih

theorem instructions_of_next? {cs : List Char} {inside after : List Char} (h : next? cs = some (inside, after)) :
    instructions cs = inside :: instructions after := by
  rw [instructions]
  split
  · rename_i h'
    rw [h] at h'
    cases h'
    rfl
  · rename_i h'
    rw [h] at h'
    cases h'

theorem instructions_of_next?_eq_none {cs : List Char} (h : next? cs = none) : instructions cs = [] := by
  rw [instructions]
  split
  · rename_i h'
    rw [h] at h'
    cases h'
  · rfl

theorem instructions_congr {cs cs' : List Char} (h : next? cs = next? cs') :
    instructions cs = instructions cs' := by
  cases hnext : next? cs' with
  | none => rw [instructions_of_next?_eq_none hnext, instructions_of_next?_eq_none (h.trans hnext)]
  | some found => rw [instructions_of_next? hnext, instructions_of_next? (h.trans hnext)]

theorem length_instructions_le (cs : List Char) : (instructions cs).length ≤ cs.length := by
  fun_induction instructions cs with
  | case1 cs inside after h ih =>
    have := next?_length h
    rw [List.length_cons]
    omega
  | case2 => exact Nat.zero_le _

theorem instructions_association {c : Char} (hc : isBlank c = true) {data : List Char}
    (hdata : ¬ ['?', '>'] <:+: data) (rest : List Char) :
    instructions (mark ++ c :: (data ++ '?' :: '>' :: rest)) = skipBlanks data :: instructions rest := by
  have hskip : skipBlanks (data ++ '?' :: '>' :: rest) = skipBlanks data ++ '?' :: '>' :: rest := by
    unfold skipBlanks
    rw [List.dropWhile_append]
    split
    · rename_i hempty
      rw [List.isEmpty_iff.mp hempty, List.dropWhile_cons_of_neg (by decide)]
      rfl
    · rfl
  have hcut := cut_close (fun hin => hdata (hin.trans (List.dropWhile_suffix isBlank).isInfix)) rest
  exact instructions_of_next? (next?_of_cut ((behindTarget?_mark hc _).trans (congrArg some hskip)) hcut)

end Association

namespace Piece

theorem isSpace_cases {c : Char} (h : Xml.isSpace c = true) : c ∈ [' ', '\t', '\n', '\r'] := by
  simpa [Xml.isSpace, or_assoc] using h

theorem spaces_free : ∀ c ∈ [' ', '\t', '\n', '\r'], isBlank c = true ∧ c ∉ Association.mark :=
  forall_of_all (by decide)

theorem isBlank_of_isSpace {c : Char} (h : Xml.isSpace c = true) : isBlank c = true :=
  (spaces_free c (isSpace_cases h)).1

theorem written_eq_concat {p : Piece} (h : p.WellFormed) :
    ∃ front c, p.written = front ++ [c] ∧ c ∉ Association.mark := by
  cases p with
  | space c => exact ⟨[], c, rfl, (spaces_free c (isSpace_cases h)).2⟩
  | comment text => exact ⟨['<', '!', '-', '-'] ++ text ++ ['-', '-'], '>', by simp [written], by decide⟩
  | instruction target data => exact ⟨['<', '?'] ++ target ++ data ++ ['?'], '>', by simp [written], by decide⟩
  | doctype parts => exact ⟨_, '>', rfl, by decide⟩

theorem last_written {p : Piece} (h : p.WellFormed) : ∀ c ∈ p.written.getLast?, c ∉ Association.mark := by
  obtain ⟨front, c, heq, hc⟩ := written_eq_concat h
  intro d hd
  rw [heq, List.getLast?_concat] at hd
  exact Option.some.inj hd ▸ hc

theorem mark_eq : Association.mark = ['<', '?'] ++ associationTarget := by decide

theorem association?_eq_some_iff {p : Piece} {data : List Char} :
    p.association? = some data ↔
      ∃ c more, p = .instruction associationTarget (c :: more) ∧ data = skipBlanks (c :: more) := by
  constructor
  · intro h
    unfold association? at h
    split at h
    · rename_i target c more
      split at h
      · rename_i htarget
        exact ⟨c, more, by rw [htarget], (Option.some.inj h).symm⟩
      · cases h
    · cases h
  · rintro ⟨c, more, rfl, rfl⟩
    simp [association?]

theorem instructions_written_append {p : Piece} (h : p.WellFormed) (hclean : p.Clean) (rest : List Char) :
    Association.instructions (p.written ++ rest) = p.association?.toList ++ Association.instructions rest := by
  cases hp : p.association? with
  | none =>
    exact Association.instructions_congr (Association.next?_append (hclean.2 hp) (last_written h) rest)
  | some data =>
    obtain ⟨c, more, rfl, rfl⟩ := association?_eq_some_iff.mp hp
    obtain ⟨-, -, hspace, hdata⟩ := h
    have hc : isBlank c = true := isBlank_of_isSpace (hspace c rfl)
    have htext : written (.instruction associationTarget (c :: more)) ++ rest =
        Association.mark ++ c :: (more ++ '?' :: '>' :: rest) := by
      simp [written, mark_eq]
    rw [htext, Association.instructions_association hc fun hin => hdata (List.infix_cons hin)]
    unfold skipBlanks
    rw [List.dropWhile_cons_of_pos hc]
    rfl

theorem prolog_written_append {p : Piece} (h : p.WellFormed) (hclean : p.Clean) (rest : List Char) :
    prolog (p.written ++ rest) = p.written ++ prolog rest :=
  prolog_append hclean.1 (fun c hc heq => last_written h c hc (heq ▸ by decide)) rest

end Piece

theorem prolog_written {pieces : List Piece} (h : ∀ p ∈ pieces, p.WellFormed ∧ p.Clean) {root : List Char}
    (hroot : IsRoot root) :
    prolog (pieces.flatMap (·.written) ++ root) = pieces.flatMap (·.written) := by
  induction pieces with
  | nil => exact prolog_root hroot
  | cons p pieces ih =>
    obtain ⟨⟨hwell, hclean⟩, hpieces⟩ := List.forall_mem_cons.mp h
    rw [List.flatMap_cons, List.append_assoc, Piece.prolog_written_append hwell hclean, ih hpieces]

theorem instructions_written {pieces : List Piece} (h : ∀ p ∈ pieces, p.WellFormed ∧ p.Clean) :
    Association.instructions (pieces.flatMap (·.written)) = pieces.filterMap (·.association?) := by
  induction pieces with
  | nil => exact Association.instructions_of_next?_eq_none rfl
  | cons p pieces ih =>
    obtain ⟨⟨hwell, hclean⟩, hpieces⟩ := List.forall_mem_cons.mp h
    rw [List.flatMap_cons, Piece.instructions_written_append hwell hclean, ih hpieces]
    cases hp : p.association? with
    | none => rw [List.filterMap_cons_none hp]; rfl
    | some data => rw [List.filterMap_cons_some hp]; rfl

/-- The associations of a prolog are found in it where no piece looks like anything else. -/
theorem instructions_prolog {pieces : List Piece} (h : ∀ p ∈ pieces, p.WellFormed ∧ p.Clean) {root : List Char}
    (hroot : IsRoot root) :
    Association.instructions (prolog (pieces.flatMap (·.written) ++ root)) =
      pieces.filterMap (·.association?) := by
  rw [prolog_written h hroot, instructions_written h]

/-- An association that holds nothing but white space. -/
def blankAssociation : Piece := .instruction associationTarget [' ']

/-- An instruction that is no association. -/
def otherInstruction : Piece := .instruction ['x'] []

/-- Behind a piece in which a tag seems to begin, associations get lost. -/
theorem instructions_lost {p : Piece} (h : HasTag p.written) (root : List Char) :
    ∃ n, Association.instructions
        (prolog ((p :: List.replicate n blankAssociation).flatMap (·.written) ++ root)) ≠
      (p :: List.replicate n blankAssociation).filterMap (·.association?) := by
  refine ⟨p.written.length, fun heq => ?_⟩
  have hfound := Association.length_instructions_le
    (prolog ((p :: List.replicate p.written.length blankAssociation).flatMap (·.written) ++ root))
  have hlt := length_prolog_lt h
    ((List.replicate p.written.length blankAssociation).flatMap (·.written) ++ root)
  have hthere : p.written.length ≤
      ((p :: List.replicate p.written.length blankAssociation).filterMap (·.association?)).length := by
    have hblank : blankAssociation.association? = some [] := by decide
    rw [← List.singleton_append, List.filterMap_append, List.filterMap_replicate_of_some hblank,
      List.length_append, List.length_replicate]
    exact Nat.le_add_left _ _
  rw [List.flatMap_cons, List.append_assoc] at hfound heq
  rw [heq] at hfound
  omega

/-- Behind a piece in which an association seems to begin, the next instruction ends one. -/
theorem instructions_found {p : Piece} (h : p.WellFormed) (htag : ¬ HasTag p.written)
    (hassociation : HasAssociation p.written) {root : List Char} (hroot : IsRoot root) :
    Association.instructions (prolog ([p, otherInstruction].flatMap (·.written) ++ root)) ≠ [] := by
  have hprolog : prolog ([p, otherInstruction].flatMap (·.written) ++ root) =
      p.written ++ otherInstruction.written := by
    have hclean : ∀ q ∈ [otherInstruction], q.WellFormed ∧ q.Clean := by decide
    have hother := prolog_written hclean hroot
    rw [List.flatMap_cons, List.append_assoc,
      prolog_append htag (fun c hc heq => Piece.last_written h c hc (heq ▸ by decide)), hother,
      List.flatMap_singleton]
  have hclose : ['?', '>'] <:+: otherInstruction.written := by decide
  obtain ⟨⟨inside, after⟩, hfound⟩ :=
    Option.isSome_iff_exists.mp (Association.next?_isSome hassociation hclose)
  rw [hprolog, Association.instructions_of_next? hfound]
  exact List.cons_ne_nil inside _

/-- A piece is clean just if, in every prolog with nothing misleading beside it, the associations that are
found are those that are there. -/
theorem clean_iff {p : Piece} (h : p.WellFormed) :
    p.Clean ↔ ∀ before after, (∀ q ∈ before ++ after, q.WellFormed ∧ q.Clean) → ∀ root, IsRoot root →
      Association.instructions (prolog ((before ++ p :: after).flatMap (·.written) ++ root)) =
        (before ++ p :: after).filterMap (·.association?) := by
  constructor
  · intro hclean before after hothers root hroot
    refine instructions_prolog (fun q hq => ?_) hroot
    rcases List.mem_append.mp hq with hq | hq
    · exact hothers q (List.mem_append_left after hq)
    · rcases List.mem_cons.mp hq with rfl | hq
      · exact ⟨h, hclean⟩
      · exact hothers q (List.mem_append_right before hq)
  · intro hall
    have hroot : IsRoot ['<', 'r', '>'] := ⟨'r', ['>'], rfl, by decide, by decide⟩
    have htag : ¬ HasTag p.written := by
      intro htag
      obtain ⟨n, hlost⟩ := instructions_lost htag ['<', 'r', '>']
      refine hlost (hall [] (List.replicate n blankAssociation) (fun q hq => ?_) _ hroot)
      rw [List.nil_append, List.mem_replicate] at hq
      exact hq.2 ▸ by decide
    refine ⟨htag, fun hnone hassociation => instructions_found h htag hassociation hroot ?_⟩
    have heq := hall [] [otherInstruction] (by decide) _ hroot
    rw [List.nil_append, List.filterMap_cons_none hnone] at heq
    exact heq

/-- A piece with these attributes names the schema that its `href` leads to, if they say that it is a
Schematron schema. -/
theorem reference?_eq_some_iff {attributes : List PseudoAttribute} (h : ∀ a ∈ attributes, a.WellFormed)
    {after : List Char} (hafter : ∀ c ∈ after, isBlank c = true) (base : Path) (r : Reference) :
    (Piece.instruction associationTarget (attributes.flatMap (·.written) ++ after)).reference? base = some r ↔
      ∃ href, PseudoAttribute.Gives attributes "href" href ∧
        PseudoAttribute.NamesSchematron attributes href ∧ r = ⟨href, .resolve base href⟩ := by
  rw [← ofInstruction?_eq_some_iff h hafter]
  cases hdata : attributes.flatMap (·.written) ++ after with
  | nil =>
    simp [Piece.reference?, Piece.association?, Reference.ofInstruction?, skipBlanks, Association.pseudos,
      Association.valueOf?]
  | cons c data => simp [Piece.reference?, Piece.association?]

/-- The schemas that a document names are those that the associations in its prolog name, in order, whatever
the root has, where no piece of the prolog is misleading. A piece is misleading just if beside it associations
get lost or others are found. An association names a schema by its `href`, if that is a Schematron schema by
its `schematypens` or, without one, by its ending. -/
theorem allIn_prolog (document : Path) (pieces : List Piece) (h : ∀ p ∈ pieces, p.WellFormed) :
    ((∀ p ∈ pieces, p.Clean) → ∀ root, IsRoot root →
      Reference.allIn (String.ofList (pieces.flatMap (·.written) ++ root)) document =
        pieces.filterMap (·.reference? document.directory)) ∧
    (∀ p ∈ pieces, p.Clean ↔ ∀ before after, (∀ q ∈ before ++ after, q.WellFormed ∧ q.Clean) →
      ∀ root, IsRoot root →
        Association.instructions (prolog ((before ++ p :: after).flatMap (·.written) ++ root)) =
          (before ++ p :: after).filterMap (·.association?)) ∧
    ∀ attributes : List PseudoAttribute, (∀ a ∈ attributes, a.WellFormed) →
      ∀ after, (∀ c ∈ after, isBlank c = true) → ∀ r,
        (Piece.instruction associationTarget (attributes.flatMap (·.written) ++ after)).reference?
            document.directory = some r ↔
          ∃ href, PseudoAttribute.Gives attributes "href" href ∧
            PseudoAttribute.NamesSchematron attributes href ∧ r = ⟨href, .resolve document.directory href⟩ := by
  refine ⟨fun hclean root hroot => ?_, fun p hp => clean_iff (h p hp),
    fun attributes hattributes after hafter r => reference?_eq_some_iff hattributes hafter _ r⟩
  unfold Reference.allIn
  rw [String.toList_ofList, instructions_prolog (fun p hp => ⟨h p hp, hclean p hp⟩) hroot,
    List.filterMap_filterMap]
  rfl

/-- A comment with what is no association in it, an association, and a document type with the start of a comment
in its literal. -/
def mixedProlog : List Piece :=
  [.instruction "xml".toList " version=\"1.0\"".toList, .space '\n',
    .comment " <?xml-models href=\"a.sch\"?> ".toList,
    .instruction associationTarget " type=\"application/xml\" href='rules/doc.sch'".toList,
    .doctype [.char ' ', .char 'r', .char ' ', .literal '"' "<!-- <?".toList]]

theorem allIn_prolog_mixed :
    (∀ p ∈ mixedProlog, p.WellFormed) ∧ (∀ p ∈ mixedProlog, p.Clean) ∧
    IsRoot "<r><?xml-model href=\"late.sch\"?></r>".toList ∧
    Reference.allIn (String.ofList (mixedProlog.flatMap (·.written) ++
        "<r><?xml-model href=\"late.sch\"?></r>".toList)) (Path.ofText "in/a.xml") =
      [⟨"rules/doc.sch", .file (Path.ofText "in/rules/doc.sch")⟩] := by
  have hwell : ∀ p ∈ mixedProlog, p.WellFormed := by decide +kernel
  have hclean : ∀ p ∈ mixedProlog, p.Clean := by decide +kernel
  have hroot : IsRoot "<r><?xml-model href=\"late.sch\"?></r>".toList :=
    ⟨'r', "><?xml-model href=\"late.sch\"?></r>".toList, by decide +kernel⟩
  refine ⟨hwell, hclean, hroot, ?_⟩
  rw [(allIn_prolog (Path.ofText "in/a.xml") mixedProlog hwell).1 hclean _ hroot]
  decide +kernel

/-- A comment that holds an association. -/
def quotingProlog : List Piece := [.comment " <?xml-model href=\"x.sch\"?> ".toList]

/-- A comment that holds a tag, and an association. -/
def taggedProlog : List Piece :=
  [.comment " <r> ".toList, .instruction associationTarget " href=\"x.sch\"".toList]

/-- A comment contributes an association, and a comment hides one. -/
theorem allIn_prolog_comments :
    ((∀ p ∈ quotingProlog, p.WellFormed) ∧ quotingProlog.filterMap (·.reference? ⟨false, []⟩) = [] ∧
      Reference.allIn (String.ofList (quotingProlog.flatMap (·.written) ++ "<r/>".toList)) (Path.ofText "a.xml") =
        [⟨"x.sch", .file (Path.ofText "x.sch")⟩]) ∧
    (∀ p ∈ taggedProlog, p.WellFormed) ∧
      taggedProlog.filterMap (·.reference? ⟨false, []⟩) = [⟨"x.sch", .file (Path.ofText "x.sch")⟩] ∧
      Reference.allIn (String.ofList (taggedProlog.flatMap (·.written) ++ "<r/>".toList)) (Path.ofText "a.xml") =
        [] := by
  decide +kernel

end Schematron.Loading
