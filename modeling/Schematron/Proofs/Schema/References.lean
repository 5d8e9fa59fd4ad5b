import Schematron.Proofs.Success
import Schematron.Proofs.XPath.Quotes
import Schematron.Schema.Reference

/-!
The references that parameters are put in for, against the variables of an expression. They begin at the same
places, but a reference goes no further than its own kind of name: it ends before a colon and before a middle
dot, which the name of a variable may have.
-/

namespace Schematron.Schema

open Schematron.Text (isBlank skipBlanks)
open Schematron.XPath

/-- A piece of a query as it stands there. -/
def Fragment.written : Fragment → List Char
  | .text cs => cs
  | .reference name => '$' :: name

/-- The references among the last pieces of a text of `total` bytes, each with the byte it begins at. -/
def placed (total : Nat) : List Fragment → List (Nat × String)
  | [] => []
  | .text _ :: more => placed total more
  | .reference name :: more =>
    (total - byteLength (('$' :: name) ++ more.flatMap (·.written)), String.ofList name) :: placed total more

/-- The references in a query, each with the byte it begins at. -/
def referencesAt (query : String) : List (Nat × String) :=
  placed (byteLength query.toList) (fragments query.toList)

/-- A token that is a variable: the byte it begins at, and its name. -/
def variableAt? (t : Spanned) : Option (Nat × String) :=
  match t.token with
  | .variableName name => some (t.offset, name)
  | _ => none

def variablesIn (found : List Spanned) : List (Nat × String) := found.filterMap variableAt?

/-- As much of the name of a variable as a reference can have. -/
def stem (name : String) : String := String.ofList (name.toList.takeWhile isReferenceChar)

/-- The characters that begin a literal or a variable. -/
def marks : List Char := ['\'', '"', '$']

theorem not_mark_of {p : Char → Bool} (hp : ∀ m ∈ marks, p m = false) {c : Char} (h : p c = true) :
    c ∉ marks := by
  intro hm
  rw [hp c hm] at h
  cases h

theorem fragments_cons {c : Char} (hc : c ∉ marks) (rest : List Char) :
    fragments (c :: rest) = .text [c] :: fragments rest := by
  simp only [marks, List.mem_cons, List.not_mem_nil, or_false, not_or] at hc
  cases rest with
  | nil => simp [fragments, hc]
  | cons d more => simp [fragments, hc]

theorem fragments_quote {c : Char} (hc : isQuote c = true) (rest : List Char) :
    fragments (c :: rest) = .text (c :: (quotedPart c rest).1) :: fragments (quotedPart c rest).2 := by
  cases rest <;> rw [fragments, if_pos (isQuote_cases hc)]

theorem fragments_reference {d : Char} (hd : isReferenceStart d = true) (more : List Char) :
    fragments ('$' :: d :: more) =
      .reference (d :: more.takeWhile isReferenceChar) :: fragments (more.dropWhile isReferenceChar) := by
  rw [fragments, if_neg (by decide)]
  simp [hd]

theorem quotedPart_append (quote : Char) (cs : List Char) :
    (quotedPart quote cs).1 ++ (quotedPart quote cs).2 = cs := by
  fun_induction quotedPart quote cs with
  | case1 => rfl
  | case2 => rfl
  | case3 c rest _ inside after heq ih =>
    rw [heq] at ih
    exact congrArg (c :: ·) ih

/-- Nothing of a text is lost in its pieces. -/
theorem written_fragments (cs : List Char) : (fragments cs).flatMap (·.written) = cs := by
  fun_induction fragments cs with
  | case1 => rfl
  | case2 c rest hc ih =>
    rw [List.flatMap_cons, ih]
    exact congrArg (c :: ·) (quotedPart_append c rest)
  | case3 c _ d more hd ih =>
    rw [List.flatMap_cons, ih, hd.1]
    simp [Fragment.written]
  | case4 c _ d more hd ih =>
    rw [List.flatMap_cons, ih]
    rfl
  | case5 => rfl

theorem placed_append (total : Nat) {taken : List Char} (h : ∀ c ∈ taken, c ∉ marks) (rest : List Char) :
    placed total (fragments (taken ++ rest)) = placed total (fragments rest) := by
  induction taken with
  | nil => rfl
  | cons c taken ih =>
    obtain ⟨hc, htaken⟩ := List.forall_mem_cons.mp h
    rw [List.cons_append, fragments_cons hc]
    exact ih htaken

theorem placed_skipBlanks (total : Nat) (cs : List Char) :
    placed total (fragments (skipBlanks cs)) = placed total (fragments cs) := by
  have hblanks : ∀ c ∈ cs.takeWhile isBlank, c ∉ marks := fun c hc =>
    not_mark_of (forall_of_all (by decide)) (List.mem_takeWhile_imp hc)
  have hall := placed_append total hblanks (cs.dropWhile isBlank)
  rwa [List.takeWhile_append_dropWhile, eq_comm] at hall

theorem placed_reference (total : Nat) {d : Char} (hd : isReferenceStart d = true) (more : List Char) :
    placed total (fragments ('$' :: d :: more)) =
      (total - byteLength ('$' :: d :: more), String.ofList (d :: more.takeWhile isReferenceChar)) ::
        placed total (fragments (more.dropWhile isReferenceChar)) := by
  have hwritten := written_fragments ('$' :: d :: more)
  rw [fragments_reference hd, List.flatMap_cons] at hwritten
  rw [fragments_reference hd, placed]
  exact congrArg₂ List.cons (congrArg (fun cs => (total - byteLength cs, _)) hwritten) rfl

theorem isReferenceChar_of_isReferenceStart {c : Char} (h : isReferenceStart c = true) :
    isReferenceChar c = true := by
  unfold isReferenceStart at h
  unfold isReferenceChar Text.isAlphanumeric
  rcases Bool.or_eq_true _ _ ▸ h with h | h <;> simp [h]

theorem isNameChar_eq (c : Char) : isNameChar c = (isReferenceChar c || c = '\u00B7') := rfl

/-- A colon stands in a name of two parts and a star behind a prefix. -/
def inName (c : Char) : Bool := isNameChar c || c = ':' || c = '*'

theorem inName_unmarked : ∀ m ∈ marks, inName m = false := forall_of_all (by decide)

theorem inName_of_isQName {cs : List Char} (h : IsQName cs) : ∀ c ∈ cs, inName c = true := by
  have hname : ∀ {part : List Char}, IsNCName part → ∀ c ∈ part, inName c = true := by
    intro part hpart c hc
    simp [inName, hpart.all c hc]
  rcases h with h | ⟨p, l, rfl, hp, hl⟩
  · exact hname h
  · exact List.forall_mem_append.mpr ⟨hname hp, List.forall_mem_cons.mpr ⟨rfl, hname hl⟩⟩

theorem isNumber_unmarked {cs : List Char} (h : IsNumber cs) : ∀ c ∈ cs, c ∉ marks := by
  have hdigits : ∀ c : Char, c.isDigit = true → c ∉ marks := fun c hc => not_mark_of (forall_of_all (by decide)) hc
  rcases h with ⟨-, h⟩ | ⟨ds, es, rfl, -, hds, hes⟩
  · exact fun c hc => hdigits c (h c hc)
  · exact List.forall_mem_append.mpr ⟨fun c hc => hdigits c (hds c hc),
      List.forall_mem_cons.mpr ⟨by decide, fun c hc => hdigits c (hes c hc)⟩⟩

theorem classifyName_ne_variable (full : String) (rest : List Char) (name : String) :
    classifyName full rest ≠ .variableName name := by
  unfold classifyName
  split
  · split <;> exact Token.noConfusion
  · exact Token.noConfusion
  · exact Token.noConfusion

theorem nameLexeme_taken {operand : Bool} {c : Char} {rest after : List Char} {t : Token}
    (hc : isNameStart c = true) (h : nameLexeme operand (c :: rest) = (t, after)) :
    (∃ taken, taken ++ after = c :: rest ∧ ∀ d ∈ taken, inName d = true) ∧ ∀ name, t ≠ .variableName name := by
  have hfirst := inName_of_isQName (.inl (isNCName_readName rest hc))
  have hwhole := (quoteless_readName (c :: rest)).whole
  unfold nameLexeme at h
  split at h
  rename_i first left hr
  rw [hr] at hfirst hwhole
  split at h
  · cases h
    exact ⟨⟨first, hwhole, hfirst⟩, fun _ => Token.noConfusion⟩
  · split at h
    · cases h
      refine ⟨⟨first ++ [':', '*'], ?_, ?_⟩, fun _ => Token.noConfusion⟩
      · rw [List.append_assoc]
        exact hwhole
      · exact List.forall_mem_append.mpr ⟨hfirst, forall_of_all (by decide)⟩
    · cases h
      exact ⟨⟨_, (quoteless_readQName _).whole, inName_of_isQName (isQName_readQName rest hc)⟩,
        classifyName_ne_variable _ _⟩

theorem signs_no_variable : ∀ e ∈ signs, ∀ name, e.2 ≠ .variableName name := by
  have hvalue : ∀ e ∈ signs, e.2.value? = none := fun e he => (signs_fit e he).1
  intro e he name heq
  have hnone := hvalue e he
  rw [heq] at hnone
  cases hnone

section

variable {rule : QuoteRule} {operand : Bool} {c : Char} {rest after : List Char} {t : Token}

/-- A token that begins with no mark has none, and is no variable. -/
theorem lexeme_unmarked (hc : c ∉ marks) (h : lexeme rule operand c rest = .ok (t, after)) :
    (∃ taken, taken ++ after = c :: rest ∧ ∀ d ∈ taken, d ∉ marks) ∧ ∀ name, t ≠ .variableName name := by
  have hquote : ¬(c = '\'' ∨ c = '"') := by
    rintro (rfl | rfl) <;> exact hc (by decide)
  have hdollar : c ≠ '$' := by
    rintro rfl
    exact hc (by decide)
  unfold lexeme at h
  rw [if_neg hquote, if_neg hdollar] at h
  split at h
  · rename_i hn
    cases h
    exact ⟨⟨_, (quoteless_readNumber _).whole, isNumber_unmarked (isNumber_readNumber hn)⟩,
      fun _ => Token.noConfusion⟩
  split at h
  · cases h
    refine ⟨⟨[c], rfl, List.forall_mem_singleton.mpr hc⟩, fun name => ?_⟩
    cases operand <;> exact Token.noConfusion
  split at h
  · rename_i hs
    obtain ⟨⟨taken, hwhole, htaken⟩, hname⟩ := nameLexeme_taken hs (Except.ok.inj h)
    exact ⟨⟨taken, hwhole, fun d hd => not_mark_of inName_unmarked (htaken d hd)⟩, hname⟩
  split at h
  · rename_i found hfound
    cases h
    obtain ⟨spelling, hmem, heq⟩ := signLexeme_eq hfound
    refine ⟨⟨spelling, heq.symm, fun d hd hmark => ?_⟩, signs_no_variable _ hmem⟩
    have hstarts : ∀ m ∈ marks, m ∉ signStarts := forall_of_all (by decide)
    exact hstarts d hmark (signs_of_signStarts _ hmem d hd)
  · cases h

/-- The pieces of a literal end where the literal does, though a quote that is written twice ends one and
begins another. -/
theorem placed_closeLiteral (total : Nat) {quote : Char} (hquote : isQuote quote = true) {cs v : List Char}
    (h : closeLiteral rule quote cs = some (v, after)) :
    placed total (fragments (quotedPart quote cs).2) = placed total (fragments after) := by
  fun_induction closeLiteral rule quote cs generalizing v with
  | case1 => cases h
  | case2 =>
    cases h
    simp [quotedPart]
  | case3 => cases h
  | case4 d more hd ih =>
    obtain ⟨⟨w, last⟩, hw, heq⟩ := Option.map_eq_some_iff.mp h
    cases heq
    have hopen : (quotedPart quote (quote :: d :: more)).2 = d :: more := by simp [quotedPart]
    rw [hopen, hd.2, fragments_quote hquote, placed]
    exact ih hw
  | case5 d more hd =>
    cases h
    simp [quotedPart]
  | case6 c d more hc ih =>
    obtain ⟨⟨w, last⟩, hw, heq⟩ := Option.map_eq_some_iff.mp h
    cases heq
    have hinside : (quotedPart quote (c :: d :: more)).2 = (quotedPart quote (d :: more)).2 := by
      rw [quotedPart, if_neg hc]
    rw [hinside]
    exact ih hw

end

/-- The name of a variable begins with what a reference takes of it. -/
theorem takeWhile_readQName (cs : List Char) :
    (readQName cs).1.takeWhile isReferenceChar = cs.takeWhile isReferenceChar := by
  have hfirst : (readName cs).1.takeWhile isReferenceChar = cs.takeWhile isReferenceChar := by
    rw [readName, List.takeWhile_takeWhile]
    refine congrArg (List.takeWhile · cs) (funext fun c => ?_)
    cases hc : isReferenceChar c <;> simp [isNameChar_eq, hc]
  unfold readQName
  split
  rename_i first rest hr
  rw [hr] at hfirst
  split
  · split
    · rw [← hfirst, List.takeWhile_append]
      split
      · rename_i hlength
        rw [List.takeWhile_cons_of_neg (by decide), List.append_nil]
        exact ((List.takeWhile_prefix _).eq_of_length hlength).symm
      · rfl
    · exact hfirst
  · exact hfirst

theorem placed_variable (total : Nat) {d : Char} (hd : isNameStart d = true) (more : List Char) :
    placed total (fragments ('$' :: d :: more)) =
      (total - byteLength ('$' :: d :: more), stem (String.ofList (readQName (d :: more)).1)) ::
        placed total (fragments (readQName (d :: more)).2) := by
  have hwhole := (quoteless_readQName (d :: more)).whole
  have htake := takeWhile_readQName (d :: more)
  have hd' : isReferenceChar d = true := isReferenceChar_of_isReferenceStart hd
  have hname := inName_of_isQName (isQName_readQName more hd)
  generalize hread : readQName (d :: more) = found at hwhole htake hname
  obtain ⟨name, after⟩ := found
  have hdrop : more.dropWhile isReferenceChar = name.dropWhile isReferenceChar ++ after := by
    rw [← List.dropWhile_cons_of_pos (l := more) hd']
    refine (List.append_right_inj ((d :: more).takeWhile isReferenceChar)).mp ?_
    rw [List.takeWhile_append_dropWhile, ← htake, ← List.append_assoc, List.takeWhile_append_dropWhile]
    exact hwhole.symm
  have hrest : ∀ c ∈ name.dropWhile isReferenceChar, c ∉ marks := fun c hc =>
    not_mark_of inName_unmarked (hname c ((List.dropWhile_sublist _).subset hc))
  rw [placed_reference total hd, hdrop, placed_append total hrest, stem, String.toList_ofList, htake,
    List.takeWhile_cons_of_pos hd']

theorem lexeme_dollar (rule : QuoteRule) (operand : Bool) (d : Char) (more : List Char) :
    lexeme rule operand '$' (d :: more) =
      if isNameStart d then
        .ok (.variableName (String.ofList (readQName (d :: more)).1), (readQName (d :: more)).2)
      else .error .missingVariableName :=
  rfl

theorem placed_lexeme (total : Nat) {rule : QuoteRule} {operand : Bool} {c : Char} {rest after : List Char}
    {t : Token} (h : lexeme rule operand c rest = .ok (t, after)) :
    placed total (fragments (c :: rest)) =
      ((variableAt? ⟨t, total - byteLength (c :: rest)⟩).map fun v => (v.1, stem v.2)).toList ++
        placed total (fragments after) := by
  by_cases hc : c ∈ marks
  · simp only [marks, List.mem_cons, List.not_mem_nil, or_false] at hc
    by_cases hdollar : c = '$'
    · subst hdollar
      cases rest with
      | nil => cases h
      | cons d more =>
        rw [lexeme_dollar] at h
        split at h
        · rename_i hd
          cases h
          exact placed_variable total hd more
        · cases h
    · have hquote : isQuote c = true := by
        unfold isQuote
        rcases hc with rfl | rfl | rfl
        · rfl
        · rfl
        · exact absurd rfl hdollar
      rw [lexeme_quote hquote] at h
      split at h
      · rename_i value last hclose
        cases h
        rw [fragments_quote hquote, placed]
        exact placed_closeLiteral total hquote hclose
      · cases h
  · obtain ⟨⟨taken, hwhole, htaken⟩, hname⟩ := lexeme_unmarked hc h
    have hnone : variableAt? ⟨t, total - byteLength (c :: rest)⟩ = none := by
      unfold variableAt?
      split
      · rename_i name heq
        exact absurd heq (hname name)
      · rfl
    rw [hnone, ← hwhole]
    exact placed_append total htaken after

theorem placed_scanned {rule : QuoteRule} {total : Nat} {operand : Bool} {cs : List Char} {found : List Spanned}
    (h : Scanned rule total operand cs found) :
    placed total (fragments cs) = (variablesIn found).map fun v => (v.1, stem v.2) := by
  induction h with
  | done hc =>
    rw [← placed_skipBlanks, hc]
    simp [fragments, placed, variablesIn]
  | @more operand c cs rest after t found hc hl _ ih =>
    rw [← placed_skipBlanks, hc, placed_lexeme total hl, ih]
    unfold variablesIn
    rw [List.filterMap_cons]
    cases variableAt? ⟨t, total - byteLength (c :: rest)⟩ <;> rfl

/-- No name among these has a character that a reference would end before. -/
def Plain (vars : List (Nat × String)) : Prop := ∀ v ∈ vars, ':' ∉ v.2.toList ∧ '\u00B7' ∉ v.2.toList

/-- A reference takes the whole of a name just where no colon and no middle dot is in it. -/
theorem stem_eq_self_iff {name : String} (h : IsQName name.toList) :
    stem name = name ↔ ':' ∉ name.toList ∧ '\u00B7' ∉ name.toList := by
  have hstem : stem name = name ↔ ∀ c ∈ name.toList, isReferenceChar c = true := by
    rw [stem, ← List.takeWhile_eq_self_iff]
    constructor
    · intro heq
      have hlist := congrArg String.toList heq
      rwa [String.toList_ofList] at hlist
    · intro heq
      rw [heq, String.ofList_toList]
  have hstops : isReferenceChar ':' = false ∧ isReferenceChar '\u00B7' = false := by decide
  rw [hstem]
  constructor
  · intro hall
    refine ⟨fun hcolon => ?_, fun hdot => ?_⟩
    · exact Bool.false_ne_true (hstops.1.symm.trans (hall _ hcolon))
    · exact Bool.false_ne_true (hstops.2.symm.trans (hall _ hdot))
  · rintro ⟨hcolon, hdot⟩ c hc
    have hname : isNameChar c = true := by
      rcases h with hname | ⟨p, l, heq, hp, hl⟩
      · exact hname.all c hc
      · rw [heq, List.mem_append, List.mem_cons] at hc
        rcases hc with hc | rfl | hc
        · exact hp.all c hc
        · exact absurd (heq ▸ List.mem_append_right p List.mem_cons_self) hcolon
        · exact hl.all c hc
    rw [isNameChar_eq, Bool.or_eq_true, decide_eq_true_eq] at hname
    rcases hname with hname | rfl
    · exact hname
    · exact absurd hc hdot

theorem references_eq (query : String) : references query = (referencesAt query).map (·.2) := by
  unfold references referencesAt
  generalize byteLength query.toList = total
  induction fragments query.toList with
  | nil => rfl
  | cons f more ih =>
    cases f with
    | text cs => exact ih
    | reference name => exact congrArg (String.ofList name :: ·) ih

/-- `after` is `before`, the end of a text of `total` bytes, with what `refs` are in it replaced: a reference
stands at its place in whole, and becomes the value of its name if there is one. All else is copied. -/
inductive Replaced (parameters : Table String) (total : Nat) :
    (refs : List (Nat × String)) → (before after : List Char) → Prop where
  | done : Replaced parameters total [] [] []
  | copied {refs : List (Nat × String)} {before after : List Char} (c : Char)
      (rest : Replaced parameters total refs before after) :
      Replaced parameters total refs (c :: before) (c :: after)
  | reference {refs : List (Nat × String)} {before after : List Char} (name : String)
      (rest : Replaced parameters total refs before after) :
      Replaced parameters total
        ((total - byteLength ('$' :: name.toList ++ before), name) :: refs) ('$' :: name.toList ++ before)
        (((parameters.get? name).map (·.toList)).getD ('$' :: name.toList) ++ after)

theorem replaced_append {parameters : Table String} {total : Nat} {refs : List (Nat × String)}
    {before after : List Char} (h : Replaced parameters total refs before after) (cs : List Char) :
    Replaced parameters total refs (cs ++ before) (cs ++ after) := by
  induction cs with
  | nil => exact h
  | cons c cs ih => exact .copied c ih

theorem replaced_pieces (parameters : Table String) (total : Nat) (pieces : List Fragment) :
    Replaced parameters total (placed total pieces) (pieces.flatMap (·.written))
      (pieces.flatMap (·.substituted parameters)) := by
  induction pieces with
  | nil => exact .done
  | cons piece more ih =>
    cases piece with
    | text cs => exact replaced_append ih cs
    | reference name =>
      have h := Replaced.reference (String.ofList name) ih
      rw [String.toList_ofList] at h
      rw [List.flatMap_cons, List.flatMap_cons, placed, Fragment.substituted, Fragment.written]
      cases hvalue : parameters.get? (String.ofList name) <;> rw [hvalue] at h <;> exact h

/-- Substitution puts values in for references, and changes nothing else of a query. -/
theorem replaced_substitute (parameters : Table String) (query : String) :
    Replaced parameters (byteLength query.toList) (referencesAt query) query.toList
      (substitute parameters query).toList := by
  have h := replaced_pieces parameters (byteLength query.toList) (fragments query.toList)
  rwa [written_fragments, ← String.toList_ofList (l := (fragments query.toList).flatMap _)] at h

theorem names_of_tokenize {source : String} {found : List Spanned} (h : tokenize source = .ok found) :
    ∀ v ∈ variablesIn found, IsQName v.2.toList := by
  intro v hv
  obtain ⟨t, ht, hvar⟩ := List.mem_filterMap.mp hv
  have hfits := (lexes_of_tokenizeWith h).fits.1.each t.token (List.mem_map_of_mem ht)
  unfold variableAt? at hvar
  split at hvar
  · rename_i name hname
    cases hvar
    rw [hname] at hfits
    exact hfits
  · cases hvar

theorem referencesAt_of_tokenize {source : String} {found : List Spanned} (h : tokenize source = .ok found) :
    referencesAt source = (variablesIn found).map fun v => (v.1, stem v.2) := by
  unfold tokenize tokenizeWith at h
  exact placed_scanned (scanned_of_scan (mapError_eq_ok_iff.mp h))

/-- In an expression the references are the variables, in order and each at its place, but a reference has only
the stem of a name. So they are the same just where no name has a colon or a middle dot. What parameters
replace are these references. -/
theorem references_of_tokenize {source : String} {found : List Spanned} (h : tokenize source = .ok found) :
    referencesAt source = ((variablesIn found).map fun v => (v.1, stem v.2)) ∧
    (referencesAt source = variablesIn found ↔ Plain (variablesIn found)) ∧
    (references source = (variablesIn found).map (·.2) ↔ Plain (variablesIn found)) ∧
    ∀ parameters, Replaced parameters (byteLength source.toList) (referencesAt source) source.toList
      (substitute parameters source).toList := by
  have hat := referencesAt_of_tokenize h
  have hnames := names_of_tokenize h
  have hplain : Plain (variablesIn found) ↔ ∀ v ∈ variablesIn found, stem v.2 = v.2 :=
    forall₂_congr fun v hv => (stem_eq_self_iff (hnames v hv)).symm
  refine ⟨hat, ?_, ?_, fun parameters => replaced_substitute parameters source⟩
  · rw [hat, hplain, ← List.map_id (variablesIn found), List.map_map, List.map_inj_left]
    simp [Prod.ext_iff]
  · rw [references_eq, hat, hplain, List.map_map]
    exact List.map_inj_left

theorem references_of_tokenize_literal :
    let found : List Spanned := [⟨.variableName "ab", 0⟩, ⟨.plus, 4⟩, ⟨.literal "'$a", 6⟩, ⟨.minus, 13⟩,
      ⟨.variableName "a-b", 15⟩]
    tokenize "$ab + '''$a' - $a-b" = .ok found ∧ Plain (variablesIn found) ∧
      referencesAt "$ab + '''$a' - $a-b" = variablesIn found ∧
      (references "$ab + '''$a' - $a-b" = ["ab", "a-b"]) := by
  intro found
  have hfound : tokenize "$ab + '''$a' - $a-b" = .ok found := by with_unfolding_all rfl
  have hplain : Plain (variablesIn found) := by
    have hvars : variablesIn found = [(0, "ab"), (15, "a-b")] := rfl
    rw [hvars]
    intro v hv
    simp only [List.mem_cons, List.not_mem_nil, or_false] at hv
    rcases hv with rfl | rfl <;> decide
  obtain ⟨-, hsame, hnames, -⟩ := references_of_tokenize hfound
  exact ⟨hfound, hplain, hsame.mpr hplain, hnames.mpr hplain⟩

/-- A reference ends before a middle dot and before a colon, where the name of the variable goes on. -/
theorem references_of_tokenize_split :
    (∃ found, tokenize "$a\u00B7b + $p:x" = .ok found ∧
      found.map (·.token) = [.variableName "a\u00B7b", .plus, .variableName "p:x"]) ∧
    references "$a\u00B7b + $p:x" = ["a", "p"] ∧
    substitute [("a", "1"), ("p", "2")] "$a\u00B7b + $p:x" = "1\u00B7b + 2:x" := by
  have hlex : Lexes .doubled true "$a\u00B7b + $p:x".toList
      [.variableName "a\u00B7b", .plus, .variableName "p:x"] := by
    iterate 3 refine .more rfl rfl ?_
    exact .done rfl
  exact ⟨tokenizeWith_of_lexes hlex, by decide +kernel, by decide +kernel⟩

end Schematron.Schema
