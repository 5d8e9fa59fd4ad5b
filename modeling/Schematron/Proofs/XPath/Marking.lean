import Schematron.Proofs.XPath.Derivation
import Schematron.Proofs.XPath.Trimming

/-!
The mark of an expression that has to change. The printer raises it on its way, where it says something
in another way.
-/

namespace Schematron.XPath

mutual
/-- The text of an expression, printed in one walk. The mark is raised at what the first version of the
language says in another way, and stays raised. -/
def write (comparisons : Bool) : Expr → StateM Bool String
  | .literal value => return quoteLiteral value
  | .number spelling => return spelling
  | .variableRef name => return "$" ++ name
  | .call name args => return name ++ "(" ++ ", ".intercalate (← writeAll comparisons args) ++ ")"
  | .negate e => return "-" ++ (← write comparisons e)
  | .binary op a b => do
    let left ← write comparisons a
    let right ← write comparisons b
    if comparisons && needsCompare op a b then
      set true
      return compareFunction ++ "(" ++ left ++ ", " ++ right ++ ") " ++ op.symbol ++ " 0"
    else return left ++ " " ++ op.symbol ++ " " ++ right
  | .union a b => return (← write comparisons a) ++ " | " ++ (← write comparisons b)
  | .group e => return "(" ++ (← write comparisons e) ++ ")"
  | .sequence [] => do
    set true
    return "/.."
  | .sequence (e :: es) => do
    set true
    return "(" ++ " | ".intercalate ((← write comparisons e) :: (← writeAll comparisons es)) ++ ")"
  | .filter e preds => return (← write comparisons e) ++ (← writePredicates comparisons preds)
  | .absolute steps => return "/" ++ (← writeSteps comparisons .slash steps)
  | .relative steps => writeSteps comparisons .start steps
  | .continued e steps => return (← write comparisons e) ++ (← writeSteps comparisons .item steps)

def writeAll (comparisons : Bool) : List Expr → StateM Bool (List String)
  | [] => return []
  | e :: es => return (← write comparisons e) :: (← writeAll comparisons es)

def writePredicates (comparisons : Bool) : List Expr → StateM Bool String
  | [] => return ""
  | e :: es => return "[" ++ (← write comparisons e) ++ "]" ++ (← writePredicates comparisons es)

/-- The steps after `joint`. The gap of a double slash is not looked into. -/
def writeSteps (comparisons : Bool) (joint : Joint) : List (Step Expr) → StateM Bool String
  | [] => return ""
  | ⟨axis, test, preds⟩ :: rest =>
    if !rest.isEmpty && joint ≠ .start && Step.isDescendantOrSelf ⟨axis, test, preds⟩ then
      return (if joint = .slash then "/" else "//") ++ (← writeSteps comparisons .slash rest)
    else
      return joint.text ++ stepHead axis test preds.isEmpty ++ (← writePredicates comparisons preds)
        ++ (← writeSteps comparisons .item rest)
end

/-- The walk ends with `a`, and raises the mark just if `raised`. -/
def Marks {α : Type} (walk : StateM Bool α) (a : α) (raised : Bool) : Prop :=
  ∀ mark, walk.run mark = (a, mark || raised)

namespace Marks

variable {α β : Type}

theorem pure (a : α) : Marks (Pure.pure a) a false := fun mark => congrArg _ (Bool.or_false mark).symm

theorem raise : Marks (set true : StateM Bool PUnit) ⟨⟩ true := fun mark =>
  congrArg _ (Bool.or_true mark).symm

theorem bind {walk : StateM Bool α} {next : α → StateM Bool β} {a : α} {b : β} {raised raised' : Bool}
    (h : Marks walk a raised) (h' : Marks (next a) b raised') :
    Marks (walk >>= next) b (raised || raised') := by
  intro mark
  show (next (walk.run mark).1).run (walk.run mark).2 = _
  rw [h mark, h', Bool.or_assoc]

theorem map {walk : StateM Bool α} {a : α} {raised : Bool} (h : Marks walk a raised) (f : α → β) :
    Marks (walk >>= fun a => Pure.pure (f a)) (f a) raised := by
  have hlast : Marks (Pure.pure (f a) : StateM Bool β) (f a) false := .pure (f a)
  have hall : Marks (walk >>= fun a => Pure.pure (f a)) (f a) (raised || false) := h.bind hlast
  rwa [Bool.or_false] at hall

theorem map₂ {γ : Type} {walk : StateM Bool α} {walk' : StateM Bool β} {a : α} {b : β} {raised raised' : Bool}
    (h : Marks walk a raised) (h' : Marks walk' b raised') (f : α → β → γ) :
    Marks (walk >>= fun a => walk' >>= fun b => Pure.pure (f a b)) (f a b) (raised || raised') :=
  h.bind (h'.map (f a))

end Marks

section

variable (comparisons : Bool)

theorem saysMore_eq (e : Expr) :
    saysMore comparisons e = (e.isLater comparisons || e.parts.any (saysMore comparisons)) :=
  Expr.any_subterms (Expr.isLater comparisons) e

mutual
/-- The walk prints the text, and raises the mark just where something is said in another way. -/
theorem marks_write : (e : Expr) → Marks (write comparisons e) (emit comparisons e) (saysMore comparisons e)
  | .literal _ | .number _ | .variableRef _ => by
    rw [saysMore_eq]
    exact .pure _
  | .call name args => by
    rw [saysMore_eq]
    exact (marks_writeAll args).map _
  | .negate e => by
    rw [saysMore_eq, Expr.parts, List.any_cons, List.any_nil, Bool.or_false]
    exact (marks_write e).map _
  | .group e => by
    rw [saysMore_eq, Expr.parts, List.any_cons, List.any_nil, Bool.or_false]
    exact (marks_write e).map _
  | .binary op a b => by
    rw [saysMore_eq, Expr.parts, List.any_cons, List.any_cons, List.any_nil, Bool.or_false, Expr.isLater,
      Bool.or_comm, Bool.or_assoc]
    refine (marks_write a).bind ((marks_write b).bind ?_)
    rw [emit]
    cases comparisons && needsCompare op a b with
    | true => exact Marks.raise.bind (.pure _)
    | false => exact .pure _
  | .union a b => by
    rw [saysMore_eq, Expr.parts, List.any_cons, List.any_cons, List.any_nil, Bool.or_false]
    exact (marks_write a).map₂ (marks_write b) _
  | .sequence [] => by
    rw [saysMore_eq]
    exact Marks.raise.bind (.pure _)
  | .sequence (e :: es) => by
    rw [saysMore_eq, Expr.parts, List.any_cons]
    exact Marks.raise.bind ((marks_write e).map₂ (marks_writeAll es) _)
  | .filter e preds => by
    rw [saysMore_eq, Expr.parts, List.any_cons]
    exact (marks_write e).map₂ (marks_writePredicates preds) _
  | .absolute steps => by
    rw [saysMore_eq]
    exact (marks_writeSteps .slash steps).map _
  | .relative steps => by
    rw [saysMore_eq]
    exact marks_writeSteps .start steps
  | .continued e steps => by
    rw [saysMore_eq, Expr.parts, List.any_cons]
    exact (marks_write e).map₂ (marks_writeSteps .item steps) _

theorem marks_writeAll : (es : List Expr) →
    Marks (writeAll comparisons es) (emitAll comparisons es) (es.any (saysMore comparisons))
  | [] => .pure _
  | e :: es => (marks_write e).map₂ (marks_writeAll es) _

theorem marks_writePredicates : (es : List Expr) →
    Marks (writePredicates comparisons es) (emitPredicates comparisons es) (es.any (saysMore comparisons))
  | [] => .pure _
  | e :: es => (marks_write e).map₂ (marks_writePredicates es) fun s t => "[" ++ s ++ "]" ++ t

theorem marks_writeSteps (joint : Joint) : (ss : List (Step Expr)) →
    Marks (writeSteps comparisons joint ss) (emitSteps comparisons joint ss)
      ((ss.flatMap (·.predicates)).any (saysMore comparisons))
  | [] => .pure _
  | ⟨axis, test, preds⟩ :: ss => by
    rw [writeSteps, emitSteps, List.flatMap_cons, List.any_append]
    split
    · -- a gap has no predicates that could raise the mark
      rename_i hgap
      simp only [Bool.and_eq_true, Step.isDescendantOrSelf, List.isEmpty_iff] at hgap
      rw [hgap.2.2]
      exact (marks_writeSteps .slash ss).map _
    · exact (marks_writePredicates preds).map₂ (marks_writeSteps .item ss) _
end

end

/-- Nothing has to be said in another way but sequences, and comparisons by order between operands that
are no numbers. -/
theorem Expr.isLater_eq_false_iff (e : Expr) :
    e.isLater true = false ↔ e.isSequence = false ∧ ∀ op a b, e = .binary op a b →
      op.isOrdering = true → a.isNumeric = true ∨ b.isNumeric = true := by
  cases e
  case binary op a b =>
    simp only [isLater, isSequence, needsCompare, Bool.true_and, Bool.and_eq_false_imp, Bool.and_eq_true,
      Bool.not_eq_true', Bool.not_eq_false', and_imp, true_and, binary.injEq]
    grind
  all_goals simp [isLater, isSequence]

open Grammar

/-- An expression is its own first version just where the walk over its tree raises no mark and the parser
tells of no later version: where its derivation uses no value comparison, no word for a union and no
sequence, and every comparison by order in its tree has a number as an operand. Its first version is then
the text without the white space around it, and else the text of the walk. -/
theorem firstVersion_changed_iff {source : String} {r : FirstVersion} (h : firstVersion source = .ok r) :
    ∃ p found marked, parse source = .ok p ∧ tokenize source = .ok found ∧
      (write true p.expr).run false = (emit true p.expr, marked) ∧
      r.changed = (p.laterSyntax || marked) ∧
      r.text = (if r.changed then emit true p.expr else Text.trim source) ∧
      (r.changed = false ↔
        Derives (.expr .or) (found.map (·.token)) p.expr false ∧
        ∀ x ∈ p.expr.subterms, x.isSequence = false ∧ ∀ op a b, x = .binary op a b →
          op.isOrdering = true → a.isNumeric = true ∨ b.isNumeric = true) := by
  obtain ⟨p, hparse, hr⟩ := firstVersion_eq_ok h
  obtain ⟨ts, hlex, hreads⟩ := reads_of_parse hparse
  obtain ⟨found, hfound, rfl⟩ := tokenizeWith_of_lexes hlex
  have hchanged : r.changed = (p.laterSyntax || saysMore true p.expr) := by
    rcases hr with ⟨hlater, rfl⟩ | ⟨hfirst, rfl⟩
    · exact hlater.symm
    · exact hfirst.symm
  have hderives : p.laterSyntax = false ↔ Derives (.expr .or) (found.map (·.token)) p.expr false := by
    obtain ⟨later, hown⟩ := hreads.derives hlex.known
    have hlater {own : Bool} (hown : Derives (.expr .or) (found.map (·.token)) p.expr own) :
        p.laterSyntax = own :=
      congrArg Parsed.laterSyntax (Except.ok.inj (hparse.symm.trans (parse_of_derives hlex hown)))
    exact ⟨fun hnone => hnone ▸ hlater hown ▸ hown, hlater⟩
  refine ⟨p, found, saysMore true p.expr, hparse, hfound, marks_write true p.expr false, hchanged, ?_, ?_⟩
  · rcases hr with ⟨-, rfl⟩ | ⟨-, rfl⟩ <;> rfl
  · rw [hchanged, Bool.or_eq_false_iff, hderives]
    refine and_congr_right fun hnone => ?_
    rw [saysMore, List.any_eq_false]
    refine forall₂_congr fun x hx => ?_
    rw [Bool.not_eq_true, Expr.isLater_eq_false_iff]

/-- The tree of `a[-(2) < @b]`. -/
private def negatedBound : Expr :=
  .relative [⟨.child, .name "a",
    [.binary .lt (.negate (.group (.number "2"))) (.relative [.bare .attributes (.name "b")])]⟩]

theorem firstVersion_changed_iff_negated :
    firstVersion " a[-(2) < @b] " = .ok ⟨"a[-(2) < @b]", false⟩ ∧
      (write true negatedBound).run false = ("a[-(2) < @b]", false) ∧
      ∃ found, tokenize " a[-(2) < @b] " = .ok found ∧
        Derives (.expr .or) (found.map (·.token)) negatedBound false := by
  have hlex : Lexes .doubled true " a[-(2) < @b] ".toList
      [.nameTest "a", .lbracket, .minus, .lparen, .number "2", .rparen, .lt, .atSign, .nameTest "b",
        .rbracket] := by
    iterate 10 refine .more rfl rfl ?_
    exact .done rfl
  have htwo := (Reads.group (Reads.number "2").of_primary).of_primary (l := .unary)
  have hlt := Reads.binary (l := .relational) (t := .lt) rfl (htwo.negate.loosen (by decide))
    ((Reads.attributeNamed "b").loosen (by decide))
  have ha := Reads.childNamed "a" (.predicate hlt.loosest .noPredicates)
  have hparse : parse " a[-(2) < @b] " = .ok ⟨negatedBound, false⟩ := parse_of_reads hlex ha.loosest
  have hfirst := firstVersion_of_parse hparse
  obtain ⟨p, found, marked, hp, hfound, hwrite, hchanged, -, hexact⟩ := firstVersion_changed_iff hfirst
  cases hparse.symm.trans hp
  have hmarked : marked = false := (Bool.or_eq_false_iff.mp hchanged.symm).2
  rw [hmarked] at hwrite
  exact ⟨hfirst, hwrite, found, hfound, (hexact.mp rfl).1⟩

end Schematron.XPath
