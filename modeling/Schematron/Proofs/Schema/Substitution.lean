import Mathlib.Data.List.Chain
import Schematron.Proofs.Reading
import Schematron.Proofs.Schema.References

/-!
Substitution as one pass over a query. Literals and all else that is no reference are copied, and what is put
in is not looked at again. Where the values have no marks in them, and nothing is put in where it would join
what stands before it, the pass also leaves the pieces of the query apart, so that two passes are one.
-/

namespace Schematron

/-- The entries of both tables, those of the first before those of the second. -/
def Table.extended {α : Type} (first second : Table α) : Table α :=
  first.foldr (fun entry table => table.insert entry.1 entry.2) second

theorem Table.get?_extended {α : Type} (first second : Table α) (key : String) :
    (first.extended second).get? key = (first.get? key <|> second.get? key) := by
  induction first with
  | nil => rfl
  | cons entry first ih =>
    obtain ⟨k, value⟩ := entry
    rw [get?_cons]
    split
    · rename_i heq
      subst heq
      exact get?_insert_self key value _
    · rename_i hne
      exact (get?_insert_ne hne value _).trans ih

namespace Schema

open Schematron.XPath (isQuote)

/-- The name of a reference. -/
def IsReferenceName (name : List Char) : Prop :=
  ∃ d more, name = d :: more ∧ isReferenceStart d = true ∧ ∀ c ∈ more, isReferenceChar c = true

/-- One pass over a text: the pieces that it is read in, and what is written for them. -/
inductive Pass (parameters : Table String) :
    (text : List Char) → (pieces : List Fragment) → (out : List Char) → Prop where
  | done : Pass parameters [] [] []
  | literal {quote : Char} {inside rest out : List Char} {pieces : List Fragment} (hquote : isQuote quote = true)
      (hinside : quote ∉ inside) (more : Pass parameters rest pieces out) :
      Pass parameters (quote :: (inside ++ quote :: rest)) (.text (quote :: (inside ++ [quote])) :: pieces)
        (quote :: (inside ++ quote :: out))
  /-- A literal that is not closed goes on to the end. -/
  | openLiteral {quote : Char} {inside : List Char} (hquote : isQuote quote = true) (hinside : quote ∉ inside) :
      Pass parameters (quote :: inside) [.text (quote :: inside)] (quote :: inside)
  | replaced {name rest out : List Char} {pieces : List Fragment} {value : String} (hname : IsReferenceName name)
      (hend : ∀ c ∈ rest.head?, isReferenceChar c = false)
      (hvalue : parameters.get? (String.ofList name) = some value) (more : Pass parameters rest pieces out) :
      Pass parameters ('$' :: (name ++ rest)) (.reference name :: pieces) (value.toList ++ out)
  | kept {name rest out : List Char} {pieces : List Fragment} (hname : IsReferenceName name)
      (hend : ∀ c ∈ rest.head?, isReferenceChar c = false)
      (hvalue : parameters.get? (String.ofList name) = none) (more : Pass parameters rest pieces out) :
      Pass parameters ('$' :: (name ++ rest)) (.reference name :: pieces) ('$' :: (name ++ out))
  | other {c : Char} {rest out : List Char} {pieces : List Fragment} (hquote : isQuote c = false)
      (hdollar : c = '$' → ∀ d ∈ rest.head?, isReferenceStart d = false) (more : Pass parameters rest pieces out) :
      Pass parameters (c :: rest) (.text [c] :: pieces) (c :: out)

theorem quotedPart_closed {quote : Char} {inside : List Char} (h : quote ∉ inside) (rest : List Char) :
    quotedPart quote (inside ++ quote :: rest) = (inside ++ [quote], rest) := by
  induction inside with
  | nil => simp [quotedPart]
  | cons c inside ih =>
    obtain ⟨hc, hinside⟩ := not_or.mp (mt List.mem_cons.mpr h)
    rw [List.cons_append, quotedPart, if_neg (Ne.symm hc), ih hinside]
    rfl

theorem quotedPart_open {quote : Char} {inside : List Char} (h : quote ∉ inside) :
    quotedPart quote inside = (inside, []) := by
  induction inside with
  | nil => rfl
  | cons c inside ih =>
    obtain ⟨hc, hinside⟩ := not_or.mp (mt List.mem_cons.mpr h)
    rw [quotedPart, if_neg (Ne.symm hc), ih hinside]

/-- What follows an opening quote either has the closing one or is in the literal as a whole. -/
theorem exists_closed_or_open (quote : Char) (cs : List Char) :
    (∃ inside rest, cs = inside ++ quote :: rest ∧ quote ∉ inside) ∨ quote ∉ cs := by
  by_cases h : quote ∈ cs
  · obtain ⟨inside, rest, rfl, hinside⟩ := List.eq_append_cons_of_mem h
    exact .inl ⟨inside, rest, rfl, hinside⟩
  · exact .inr h

section

variable {parameters : Table String}

namespace Fragment

variable {name : List Char} {value : String}

@[simp]
theorem substituted_text (cs : List Char) : (text cs).substituted parameters = cs := rfl

theorem substituted_of_eq_some (h : parameters.get? (String.ofList name) = some value) :
    (reference name).substituted parameters = value.toList := by simp only [substituted, h]

theorem substituted_of_eq_none (h : parameters.get? (String.ofList name) = none) :
    (reference name).substituted parameters = '$' :: name := by simp only [substituted, h]

end Fragment

theorem fragments_other {c : Char} {rest : List Char} (hquote : isQuote c = false)
    (hdollar : c = '$' → ∀ d ∈ rest.head?, isReferenceStart d = false) :
    fragments (c :: rest) = .text [c] :: fragments rest := by
  have hc : ¬(c = '\'' ∨ c = '"') := by simpa [isQuote] using hquote
  cases rest with
  | nil => simp [fragments, hc]
  | cons d more =>
    have hd : ¬(c = '$' ∧ isReferenceStart d = true) := by
      rintro ⟨heq, hd⟩
      cases (hdollar heq d rfl).symm.trans hd
    rw [fragments, if_neg hc, if_neg hd]

theorem fragments_name {name rest : List Char} (hname : IsReferenceName name)
    (hend : ∀ c ∈ rest.head?, isReferenceChar c = false) :
    fragments ('$' :: (name ++ rest)) = .reference name :: fragments rest := by
  obtain ⟨d, more, rfl, hd, hmore⟩ := hname
  obtain ⟨htake, hdrop⟩ := takeWhile_append_of_all hmore hend
  rw [List.cons_append, fragments_reference hd, htake, hdrop]

/-- A pass reads the pieces of the text and writes each as it is substituted. -/
theorem Pass.sound {text : List Char} {pieces : List Fragment} {out : List Char}
    (h : Pass parameters text pieces out) :
    fragments text = pieces ∧ pieces.flatMap (·.substituted parameters) = out := by
  induction h with
  | done => exact ⟨by rw [fragments], rfl⟩
  | literal hquote hinside more ih =>
    rw [fragments_quote hquote, quotedPart_closed hinside, List.flatMap_cons, ih.1, ih.2]
    exact ⟨rfl, by simp⟩
  | openLiteral hquote hinside =>
    rw [fragments_quote hquote, quotedPart_open hinside]
    exact ⟨by rw [fragments], by simp⟩
  | replaced hname hend hvalue more ih =>
    rw [fragments_name hname hend, List.flatMap_cons, ih.1, ih.2, Fragment.substituted_of_eq_some hvalue]
    exact ⟨rfl, rfl⟩
  | kept hname hend hvalue more ih =>
    rw [fragments_name hname hend, List.flatMap_cons, ih.1, ih.2, Fragment.substituted_of_eq_none hvalue]
    exact ⟨rfl, rfl⟩
  | other hquote hdollar more ih =>
    rw [fragments_other hquote hdollar, List.flatMap_cons, ih.1, ih.2]
    exact ⟨rfl, rfl⟩

/-- Every text can be passed over. -/
theorem pass_fragments (text : List Char) :
    Pass parameters text (fragments text) ((fragments text).flatMap (·.substituted parameters)) := by
  fun_induction fragments text with
  | case1 => exact .done
  | case2 c rest hc ih =>
    have hquote : isQuote c = true := by simpa [isQuote] using hc
    rcases exists_closed_or_open c rest with ⟨inside, after, rfl, hinside⟩ | hinside
    · rw [quotedPart_closed hinside] at ih ⊢
      simpa using Pass.literal hquote hinside ih
    · have hpass : Pass parameters (c :: rest) [.text (c :: rest)] (c :: rest) := .openLiteral hquote hinside
      rw [quotedPart_open hinside, fragments]
      simpa using hpass
  | case3 c hc d more hd ih =>
    obtain ⟨rfl, hstart⟩ := hd
    have hname : IsReferenceName (d :: more.takeWhile isReferenceChar) :=
      ⟨d, _, rfl, hstart, fun _ => List.mem_takeWhile_imp⟩
    have hend : ∀ c ∈ (more.dropWhile isReferenceChar).head?, isReferenceChar c = false := by
      intro c hc
      simpa [Option.mem_def.mp hc] using List.head?_dropWhile_not isReferenceChar more
    have htext : '$' :: d :: more =
        '$' :: (d :: more.takeWhile isReferenceChar ++ more.dropWhile isReferenceChar) := by
      rw [List.cons_append, List.takeWhile_append_dropWhile]
    rw [htext, List.flatMap_cons]
    cases hvalue : parameters.get? (String.ofList (d :: more.takeWhile isReferenceChar)) with
    | some value =>
      rw [Fragment.substituted_of_eq_some hvalue]
      exact .replaced hname hend hvalue ih
    | none =>
      rw [Fragment.substituted_of_eq_none hvalue]
      exact .kept hname hend hvalue ih
  | case4 c hc d more hd ih =>
    refine .other (by simpa [isQuote] using hc) (fun heq e he => ?_) ih
    cases he
    simpa [heq] using hd
  | case5 c hc => exact .other (by simpa [isQuote] using hc) (fun _ _ he => absurd he (Option.not_mem_none _)) .done

theorem pass_iff {text : List Char} {pieces : List Fragment} {out : List Char} :
    Pass parameters text pieces out ↔
      pieces = fragments text ∧ out = (fragments text).flatMap (·.substituted parameters) := by
  constructor
  · intro h
    obtain ⟨rfl, rfl⟩ := h.sound
    exact ⟨rfl, rfl⟩
  · rintro ⟨rfl, rfl⟩
    exact pass_fragments text

end

/-- The values have no marks in them. -/
def Inert (parameters : Table String) : Prop := ∀ name value, parameters.get? name = some value →
  ∀ c ∈ value.toList, c ∉ marks

namespace Fragment

/-- The piece is a reference that is replaced. -/
def IsGiven (parameters : Table String) (piece : Fragment) : Prop :=
  ∃ name value, piece = .reference name ∧ parameters.get? (String.ofList name) = some value

/-- What is written behind the piece could become part of a reference with it. -/
def IsOpen (parameters : Table String) : Fragment → Prop
  | .text cs => cs = ['$']
  | .reference name => parameters.get? (String.ofList name) = none

/-- The pieces of what is written for a piece. -/
def settled (parameters : Table String) : Fragment → List Fragment
  | .text cs => [.text cs]
  | .reference name =>
    match parameters.get? (String.ofList name) with
    | some value => value.toList.map fun c => .text [c]
    | none => [.reference name]

section

variable {parameters : Table String} {name : List Char} {value : String}

@[simp]
theorem settled_text (cs : List Char) : (text cs).settled parameters = [text cs] := rfl

theorem settled_of_eq_some (h : parameters.get? (String.ofList name) = some value) :
    (reference name).settled parameters = value.toList.map fun c => text [c] := by simp only [settled, h]

theorem settled_of_eq_none (h : parameters.get? (String.ofList name) = none) :
    (reference name).settled parameters = [reference name] := by simp only [settled, h]

end

end Fragment

/-- Nothing is put in where it would join what stands before it. -/
def Clear (parameters : Table String) (pieces : List Fragment) : Prop :=
  pieces.IsChain fun before piece => before.IsOpen parameters → ¬piece.IsGiven parameters

/-- Every dollar sign outside the literals begins a reference, and no two references touch. -/
def Spaced (pieces : List Fragment) : Prop :=
  .text ['$'] ∉ pieces ∧ pieces.IsChain fun before piece => before.reference? = none ∨ piece.reference? = none

instance (pieces : List Fragment) : Decidable (Spaced pieces) := inferInstanceAs (Decidable (_ ∧ _))

theorem Spaced.clear {pieces : List Fragment} (h : Spaced pieces) (parameters : Table String) :
    Clear parameters pieces := by
  refine h.2.imp_of_mem_imp fun before piece hbefore _ happart hopen => ?_
  rintro ⟨name, value, rfl, -⟩
  cases before with
  | text cs => exact h.1 (hopen ▸ hbefore)
  | reference name => exact happart.elim nofun nofun

section

variable {parameters : Table String}

theorem fragments_unmarked {cs : List Char} (h : ∀ c ∈ cs, c ∉ marks) (rest : List Char) :
    fragments (cs ++ rest) = (cs.map fun c => .text [c]) ++ fragments rest := by
  induction cs with
  | nil => rfl
  | cons c cs ih =>
    obtain ⟨hc, hcs⟩ := List.forall_mem_cons.mp h
    rw [List.cons_append, fragments_cons hc, ih hcs]
    rfl

theorem Fragment.substituted_of_not_isGiven {piece : Fragment} (h : ¬piece.IsGiven parameters) :
    piece.substituted parameters = piece.written := by
  cases piece with
  | text cs => rfl
  | reference name =>
    cases hvalue : parameters.get? (String.ofList name) with
    | some value => exact absurd ⟨name, value, rfl, hvalue⟩ h
    | none => exact substituted_of_eq_none hvalue

theorem written_ne_nil {cs : List Char} : ∀ piece ∈ fragments cs, piece.written ≠ [] := by
  fun_induction fragments cs with
  | case1 => exact List.forall_mem_nil _
  | case2 c rest hc ih => exact List.forall_mem_cons.mpr ⟨List.cons_ne_nil _ _, ih⟩
  | case3 c hc d more hd ih => exact List.forall_mem_cons.mpr ⟨List.cons_ne_nil _ _, ih⟩
  | case4 c hc d more hd ih => exact List.forall_mem_cons.mpr ⟨List.cons_ne_nil _ _, ih⟩
  | case5 c hc => exact List.forall_mem_singleton.mpr (List.cons_ne_nil _ _)

/-- What is written for a text begins as the text does, if nothing is put in there. -/
theorem head?_substituted {cs : List Char} (h : ∀ piece ∈ (fragments cs).head?, ¬piece.IsGiven parameters) :
    ((fragments cs).flatMap (·.substituted parameters)).head? = cs.head? := by
  have hwritten := written_fragments cs
  have hne : ∀ piece ∈ fragments cs, piece.written ≠ [] := written_ne_nil
  cases hpieces : fragments cs with
  | nil =>
    rw [hpieces] at hwritten
    rw [← hwritten]
    rfl
  | cons piece more =>
    rw [hpieces] at hwritten hne h
    have hfirst := hne piece List.mem_cons_self
    rw [← hwritten, List.flatMap_cons, List.flatMap_cons, Fragment.substituted_of_not_isGiven (h piece rfl),
      List.head?_append_of_ne_nil _ hfirst, List.head?_append_of_ne_nil _ hfirst]

/-- The pieces of what is written for a text are those of the text, with the values in single characters. -/
theorem fragments_substituted (hinert : Inert parameters) {cs : List Char}
    (h : Clear parameters (fragments cs)) :
    fragments ((fragments cs).flatMap (·.substituted parameters)) =
      (fragments cs).flatMap (·.settled parameters) := by
  fun_induction fragments cs with
  | case1 => rw [List.flatMap_nil, fragments]; rfl
  | case2 c rest hc ih =>
    have hquote : isQuote c = true := by simpa [isQuote] using hc
    rcases exists_closed_or_open c rest with ⟨inside, after, rfl, hinside⟩ | hinside
    · rw [quotedPart_closed hinside] at ih h ⊢
      rw [List.flatMap_cons, List.flatMap_cons, ← ih h.tail]
      have hclosed := quotedPart_closed hinside ((fragments after).flatMap (·.substituted parameters))
      simp only [Fragment.substituted_text, List.cons_append, List.append_assoc, List.nil_append]
      rw [fragments_quote hquote, hclosed]
      rfl
    · rw [quotedPart_open hinside, fragments, List.flatMap_singleton, List.flatMap_singleton,
        Fragment.substituted_text, fragments_quote hquote, quotedPart_open hinside, fragments]
      rfl
  | case3 c hc d more hd ih =>
    obtain ⟨rfl, hstart⟩ := hd
    have hrest := ih h.tail
    rw [List.flatMap_cons, List.flatMap_cons, ← hrest]
    have hname : IsReferenceName (d :: more.takeWhile isReferenceChar) :=
      ⟨d, _, rfl, hstart, fun _ => List.mem_takeWhile_imp⟩
    cases hvalue : parameters.get? (String.ofList (d :: more.takeWhile isReferenceChar)) with
    | some value =>
      rw [Fragment.substituted_of_eq_some hvalue, Fragment.settled_of_eq_some hvalue]
      exact fragments_unmarked (hinert _ value hvalue) _
    | none =>
      -- the reference is kept, and ends where it did
      have hhead := head?_substituted fun piece hpiece => h.rel_head? hpiece hvalue
      rw [Fragment.substituted_of_eq_none hvalue, Fragment.settled_of_eq_none hvalue]
      refine fragments_name hname fun c hc => ?_
      rw [hhead] at hc
      simpa [Option.mem_def.mp hc] using List.head?_dropWhile_not isReferenceChar more
  | case4 c hc d more hd ih =>
    rw [List.flatMap_cons, List.flatMap_cons, ← ih h.tail]
    refine fragments_other (by simpa [isQuote] using hc) fun heq e he => ?_
    subst heq
    -- a lone dollar sign stays alone
    have hhead : e ∈ ((fragments (d :: more)).flatMap (·.substituted parameters)).head? := he
    rw [head?_substituted fun piece hpiece => h.rel_head? hpiece rfl] at hhead
    cases hhead
    simpa using hd
  | case5 c hc =>
    have hcopied : fragments [c] = [.text [c]] := by simp [fragments, hc]
    simpa using hcopied

/-- The references that are left are those that nothing was put in for. -/
theorem filterMap_settled (pieces : List Fragment) :
    (pieces.flatMap (·.settled parameters)).filterMap (·.reference?) =
      (pieces.filterMap (·.reference?)).filter fun name => (parameters.get? name).isNone := by
  induction pieces with
  | nil => rfl
  | cons piece more ih =>
    rw [List.flatMap_cons, List.filterMap_append, ih]
    cases piece with
    | text cs => rfl
    | reference name =>
      cases hvalue : parameters.get? (String.ofList name) with
      | some value =>
        rw [Fragment.settled_of_eq_some hvalue]
        simp [Fragment.reference?, hvalue]
      | none =>
        rw [Fragment.settled_of_eq_none hvalue]
        simp [Fragment.reference?, hvalue]

end

theorem Fragment.substituted_settled (first second : Table String) (piece : Fragment) :
    (piece.settled first).flatMap (·.substituted second) = piece.substituted (first.extended second) := by
  cases piece with
  | text cs => simp
  | reference name =>
    have hboth := Table.get?_extended first second (String.ofList name)
    cases hvalue : first.get? (String.ofList name) with
    | some value =>
      rw [hvalue] at hboth
      rw [settled_of_eq_some hvalue, substituted_of_eq_some hboth]
      simp [List.flatMap_map]
    | none =>
      rw [hvalue] at hboth
      rw [settled_of_eq_none hvalue, List.flatMap_singleton, substituted, substituted, hboth]
      rfl

section

variable {parameters : Table String} {query : String}

theorem toList_substitute : (substitute parameters query).toList =
    (fragments query.toList).flatMap (·.substituted parameters) := String.toList_ofList

theorem references_substitute (hinert : Inert parameters) (h : Clear parameters (fragments query.toList)) :
    references (substitute parameters query) =
      (references query).filter fun name => (parameters.get? name).isNone := by
  rw [references, toList_substitute, fragments_substituted hinert h]
  exact filterMap_settled _

theorem substitute_substitute (hinert : Inert parameters) (h : Clear parameters (fragments query.toList))
    (others : Table String) :
    substitute others (substitute parameters query) = substitute (parameters.extended others) query := by
  rw [substitute, toList_substitute, fragments_substituted hinert h, List.flatMap_assoc, substitute]
  exact congrArg (fun f => String.ofList ((fragments query.toList).flatMap f))
    (funext (Fragment.substituted_settled parameters others))

/-- A query with nothing to put in is left as it is. -/
theorem substitute_eq_self (h : ∀ name ∈ references query, parameters.get? name = none) :
    substitute parameters query = query := by
  have hkept : ∀ piece ∈ fragments query.toList, piece.substituted parameters = piece.written := by
    intro piece hpiece
    refine Fragment.substituted_of_not_isGiven ?_
    rintro ⟨name, value, rfl, hvalue⟩
    have hnone := h _ (List.mem_filterMap.mpr ⟨_, hpiece, rfl⟩)
    cases hnone.symm.trans hvalue
  rw [substitute, List.flatMap_congr hkept, written_fragments, String.ofList_toList]

end

/-- Substitution is one pass, the only one there is over the query. It leaves a query alone that has none of the
parameters. Where the references stand apart and the values have no marks, the references of the result are
those that were not replaced, in order; and then two substitutions are one, with the parameters of both. -/
theorem substitute_hygienic (parameters : Table String) (query : String) :
    ∃ pieces, Pass parameters query.toList pieces (substitute parameters query).toList ∧
      (∀ others out, Pass parameters query.toList others out →
        others = pieces ∧ out = (substitute parameters query).toList) ∧
      references query = pieces.filterMap (·.reference?) ∧
      ((∀ name ∈ references query, parameters.get? name = none) → substitute parameters query = query) ∧
      (Spaced pieces → Inert parameters →
        references (substitute parameters query) =
            (references query).filter (fun name => (parameters.get? name).isNone) ∧
          ∀ others, substitute others (substitute parameters query) =
            substitute (parameters.extended others) query) := by
  refine ⟨fragments query.toList, pass_iff.mpr ⟨rfl, toList_substitute⟩, fun others out h => ?_, rfl,
    substitute_eq_self, fun hspaced hinert => ?_⟩
  · obtain ⟨hpieces, hout⟩ := pass_iff.mp h
    exact ⟨hpieces, hout.trans toList_substitute.symm⟩
  · have hclear := hspaced.clear parameters
    exact ⟨references_substitute hinert hclear, substitute_substitute hinert hclear⟩

theorem substitute_hygienic_literal :
    let query := "$a + '$a' - $b"
    Spaced (fragments query.toList) ∧ Inert [("a", "1")] ∧
      Pass [("a", "1")] query.toList (fragments query.toList) "1 + '$a' - $b".toList ∧
      references query = ["a", "b"] ∧
      references (substitute [("a", "1")] query) = ["b"] ∧
      substitute [("b", "2")] (substitute [("a", "1")] query) =
        substitute (Table.extended [("a", "1")] [("b", "2")]) query ∧
      substitute [("c", "3")] query = query := by
  intro query
  have hspaced : Spaced (fragments query.toList) := by decide +kernel
  have hinert : Inert [("a", "1")] := by
    intro name value hvalue
    rw [Table.get?_cons] at hvalue
    split at hvalue
    · cases hvalue
      exact List.forall_mem_singleton.mpr (by decide)
    · cases hvalue
  have hreferences : references query = ["a", "b"] := by decide +kernel
  have hout : substitute [("a", "1")] query = "1 + '$a' - $b" := by decide +kernel
  obtain ⟨pieces, hpass, -, -, -, happart⟩ := substitute_hygienic [("a", "1")] query
  obtain ⟨-, -, -, -, hkept, -⟩ := substitute_hygienic [("c", "3")] query
  obtain rfl := (pass_iff.mp hpass).1
  obtain ⟨hleft, htwice⟩ := happart hspaced hinert
  rw [hout] at hpass
  refine ⟨hspaced, hinert, hpass, hreferences, ?_, htwice _, hkept ?_⟩
  · rw [hleft, hreferences]
    rfl
  · rw [hreferences]
    decide

/-- A value that is put in right behind a reference becomes part of its name. -/
example : references (substitute [("a", "c")] "$b$a") = ["bc"] := by decide +kernel

end Schema

end Schematron
