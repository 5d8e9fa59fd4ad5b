import Schematron.Proofs.XPath.Rereading

/-!
What is printed is read back as the tree it was printed from.
-/

namespace Schematron.XPath

open Schematron.XPath.Expr (compared comparedAll comparedSteps)

namespace Expr

/-- The strings that an expression itself holds, without its parts. -/
def strings : Expr → List String
  | literal value => [value]
  | absolute steps | relative steps | continued _ steps => steps.filterMap (·.test.target?)
  | _ => []

end Expr

/-- An expression whose text says nothing else than it, apart from its parts. -/
structure Expr.Plain (e : Expr) : Prop where
  single : e.isSequence = false
  quotable : ∀ s ∈ e.strings, ¬HasBothQuotes s
  gaps : e.ownSteps.IsChain fun s t => ¬GapAfterGap s t

instance (e : Expr) : Decidable e.Plain :=
  decidable_of_iff ((e.isSequence = false ∧ ∀ s ∈ e.strings, ¬HasBothQuotes s) ∧
      e.ownSteps.IsChain fun s t => ¬GapAfterGap s t)
    ⟨fun h => ⟨h.1.1, h.1.2, h.2⟩, fun h => ⟨⟨h.single, h.quotable⟩, h.gaps⟩⟩

namespace Expr

theorem innerSteps_infix (e : Expr) : e.innerSteps <:+: e.ownSteps := by
  cases e
  case absolute steps => exact (List.dropLast_prefix steps).isInfix
  case continued a steps => exact (List.dropLast_prefix steps).isInfix
  case relative steps =>
    exact (List.tail_suffix _).isInfix.trans (List.dropLast_prefix steps).isInfix
  all_goals exact List.nil_infix

theorem legible_of_plain {e : Expr} (h : ∀ x ∈ e.subterms, x.Plain) : ∀ x ∈ e.subterms, x.Legible := by
  intro x hx
  have hplain := h x hx
  have hparts : ∀ y ∈ x.subterms, y.Plain := fun y hy => h y (mem_subterms_trans hx hy)
  refine ⟨?_, hplain.gaps.infix x.innerSteps_infix, ?_, ?_⟩
  · intro s hs v hv
    refine hplain.quotable v ?_
    cases x <;> first | exact List.mem_filterMap.mpr ⟨s, hs, hv⟩ | cases hs
  · cases hfilter : x.filtersNothing with
    | false => rfl
    | true =>
      unfold filtersNothing at hfilter
      split at hfilter
      · cases (hparts (.sequence []) (mem_subterms_of_mem_parts List.mem_cons_self
          (mem_subterms_self _))).single
      · cases hfilter
  · cases x
    case sequence => cases hplain.single
    all_goals exact List.forall_mem_nil _

theorem rereadAll_eq_self {es : List Expr} (h : ∀ e ∈ es, e.reread = e) : rereadAll es = es := by
  induction es with
  | nil => rfl
  | cons e es ih =>
    obtain ⟨he, hes⟩ := List.forall_mem_cons.mp h
    rw [rereadAll, he, ih hes]

theorem rereadSteps_eq_self {ss : List (Step Expr)}
    (h : ∀ p ∈ ss.flatMap (·.predicates), p.reread = p) : rereadSteps ss = ss := by
  induction ss with
  | nil => rfl
  | cons s ss ih =>
    rw [List.flatMap_cons] at h
    obtain ⟨hs, hss⟩ := List.forall_mem_append.mp h
    rw [rereadSteps, rereadAll_eq_self hs, ih hss]

theorem requoted_eq {value : String} (h : ¬HasBothQuotes value) : requoted value = literal value := by
  rw [requoted, if_pos (lacksQuote_of_quotable h)]

/-- A plain expression is read back as it is. -/
theorem reread_of_plain {e : Expr} (h : ∀ x ∈ e.subterms, x.Plain) : e.reread = e := by
  induction e using partsInduction with
  | h e ih =>
    have hplain := h e (mem_subterms_self e)
    have hparts : ∀ p ∈ e.parts, p.reread = p := fun p hp =>
      ih p hp fun x hx => h x (mem_subterms_of_mem_parts hp hx)
    cases e
    case literal value => exact requoted_eq (hplain.quotable value List.mem_cons_self)
    case number | variableRef => rfl
    case call name args => exact congrArg _ (rereadAll_eq_self hparts)
    case negate a => rw [reread, hparts a List.mem_cons_self]
    case binary op a b =>
      rw [reread, hparts a List.mem_cons_self, hparts b (List.mem_cons_of_mem _ List.mem_cons_self)]
    case union a b =>
      rw [reread, hparts a List.mem_cons_self, hparts b (List.mem_cons_of_mem _ List.mem_cons_self)]
    case group a => rw [reread, hparts a List.mem_cons_self]
    case sequence => cases hplain.single
    case filter a preds =>
      obtain ⟨ha, hpreds⟩ := List.forall_mem_cons.mp hparts
      rw [reread, ha, rereadAll_eq_self hpreds]
    case absolute steps => exact congrArg _ (rereadSteps_eq_self hparts)
    case relative steps => exact congrArg _ (rereadSteps_eq_self hparts)
    case continued a steps =>
      obtain ⟨ha, hsteps⟩ := List.forall_mem_cons.mp hparts
      have hne : a ≠ sequence [] := by
        rintro rfl
        cases (h (.sequence []) (mem_subterms_of_mem_parts List.mem_cons_self
          (mem_subterms_self _))).single
      rw [reread_continued hne, ha, rereadSteps_eq_self hsteps]

end Expr

namespace Expr

mutual
theorem compared_false : (e : Expr) → compared false e = e
  | literal _ | number _ | variableRef _ => rfl
  | call name args => by rw [compared, comparedAll_false args]
  | negate e => by rw [compared, compared_false e]
  | binary op a b => by
    rw [compared, compared_false a, compared_false b]
    rfl
  | union a b => by rw [compared, compared_false a, compared_false b]
  | group e => by rw [compared, compared_false e]
  | sequence items => by rw [compared, comparedAll_false items]
  | filter e preds => by rw [compared, compared_false e, comparedAll_false preds]
  | absolute steps => by rw [compared, comparedSteps_false steps]
  | relative steps => by rw [compared, comparedSteps_false steps]
  | continued e steps => by rw [compared, compared_false e, comparedSteps_false steps]

theorem comparedAll_false : (es : List Expr) → comparedAll false es = es
  | [] => rfl
  | e :: es => by rw [comparedAll, compared_false e, comparedAll_false es]

theorem comparedSteps_false : (ss : List (Step Expr)) → comparedSteps false ss = ss
  | [] => rfl
  | ⟨axis, test, preds⟩ :: ss => by rw [comparedSteps, comparedAll_false preds, comparedSteps_false ss]
end

section

variable (comparisons : Bool)

theorem comparedAll_eq_map (es : List Expr) :
    comparedAll comparisons es = es.map (compared comparisons) := by
  induction es with
  | nil => rfl
  | cons e es ih => rw [comparedAll, ih, List.map_cons]

/-- A step whose predicates have their comparisons replaced. -/
def comparedStep (s : Step Expr) : Step Expr :=
  ⟨s.axis, s.test, comparedAll comparisons s.predicates⟩

theorem comparedSteps_eq_map (ss : List (Step Expr)) :
    comparedSteps comparisons ss = ss.map (comparedStep comparisons) := by
  induction ss with
  | nil => rfl
  | cons s ss ih =>
    rw [comparedSteps, ih]
    rfl

theorem compared_binary {op : BinaryOp} {a b : Expr} (h : (comparisons && needsCompare op a b) = false) :
    compared comparisons (binary op a b) = binary op (compared comparisons a) (compared comparisons b) := by
  rw [compared, h]
  rfl

theorem compared_needed {op : BinaryOp} {a b : Expr} (h : (comparisons && needsCompare op a b) = true) :
    compared comparisons (binary op a b) =
      binary op (call compareFunction [compared comparisons a, compared comparisons b]) (number "0") := by
  rw [compared, h]
  rfl

/-- The parts of an expression are compared, but for a comparison that is replaced. -/
theorem parts_compared (e : Expr) :
    (compared comparisons e).parts = e.parts.map (compared comparisons) ∨
      ∃ op a b, e = binary op a b ∧ (comparisons && needsCompare op a b) = true := by
  cases e
  case binary op a b =>
    cases hc : (comparisons && needsCompare op a b) with
    | true => exact .inr ⟨op, a, b, rfl, hc⟩
    | false =>
      rw [compared_binary comparisons hc]
      exact .inl rfl
  all_goals
    refine .inl ?_
    simp [compared, parts, comparedAll_eq_map, comparedSteps_eq_map, comparedStep, List.flatMap_map,
      List.map_flatMap]

variable {comparisons} in
/-- What holds of each expression with its comparisons replaced holds of all that is in it, if it holds of
the call and the number that are new. -/
theorem forall_mem_subterms_compared {P : Expr → Prop} {e : Expr}
    (h : ∀ x ∈ e.subterms, P (compared comparisons x)) (hcall : ∀ args, P (call compareFunction args))
    (hzero : P (number "0")) : ∀ x ∈ (compared comparisons e).subterms, P x := by
  induction e using partsInduction with
  | h e ih =>
    have hparts : ∀ p ∈ e.parts, ∀ x ∈ (compared comparisons p).subterms, P x := fun p hp =>
      ih p hp fun x hx => h x (mem_subterms_of_mem_parts hp hx)
    refine forall_mem_subterms.mpr ⟨h e (mem_subterms_self e), ?_⟩
    rcases parts_compared comparisons e with heq | ⟨op, a, b, rfl, hc⟩
    · rw [heq]
      exact List.forall_mem_map.mpr hparts
    · obtain ⟨ha, hb⟩ := List.forall_mem_cons.mp hparts
      have hargs : ∀ p ∈ [compared comparisons a, compared comparisons b], ∀ x ∈ p.subterms, P x :=
        List.forall_mem_cons.mpr ⟨ha, List.forall_mem_singleton.mpr (hb b List.mem_cons_self)⟩
      rw [compared_needed comparisons hc]
      exact List.forall_mem_cons.mpr ⟨forall_mem_subterms.mpr ⟨hcall _, hargs⟩,
        List.forall_mem_singleton.mpr (List.forall_mem_singleton.mpr hzero)⟩

theorem gap_comparedStep (s : Step Expr) :
    (comparedStep comparisons s).isDescendantOrSelf = s.isDescendantOrSelf := by
  obtain ⟨axis, test, preds⟩ := s
  exact isDescendantOrSelf_compared axis test preds

theorem chain_compared {ss : List (Step Expr)} (h : ss.IsChain fun s t => ¬GapAfterGap s t) :
    (comparedSteps comparisons ss).IsChain fun s t => ¬GapAfterGap s t := by
  rw [comparedSteps_eq_map, List.isChain_map]
  simpa only [GapAfterGap, gap_comparedStep] using h

theorem targets_compared (ss : List (Step Expr)) :
    (comparedSteps comparisons ss).filterMap (·.test.target?) = ss.filterMap (·.test.target?) := by
  rw [comparedSteps_eq_map, List.filterMap_map]
  rfl

variable {comparisons}

theorem plain_compared_self {e : Expr} (h : e.Plain) : (compared comparisons e).Plain := by
  obtain ⟨single, quotable, gaps⟩ := h
  cases e
  case binary op a b =>
    rw [compared]
    split <;> exact ⟨rfl, quotable, gaps⟩
  case sequence => cases single
  case absolute steps =>
    exact ⟨rfl, by rwa [compared, strings, targets_compared], chain_compared comparisons gaps⟩
  case relative steps =>
    exact ⟨rfl, by rwa [compared, strings, targets_compared], chain_compared comparisons gaps⟩
  case continued a steps =>
    exact ⟨rfl, by rwa [compared, strings, targets_compared], chain_compared comparisons gaps⟩
  all_goals exact ⟨rfl, quotable, gaps⟩

theorem plain_compared {e : Expr} (h : ∀ x ∈ e.subterms, x.Plain) :
    ∀ x ∈ (compared comparisons e).subterms, x.Plain :=
  forall_mem_subterms_compared (fun x hx => plain_compared_self (h x hx))
    (fun _ => ⟨rfl, List.forall_mem_nil _, .nil⟩) ⟨rfl, List.forall_mem_nil _, .nil⟩

end

end Expr

namespace Grammar

section

variable (comparisons : Bool)

/-- A part can be read with its comparisons replaced. -/
def ComparedPart : (k : Part) → k.Tree → Prop
  | .expr l, e => ∃ us, Reads (.expr l) us (compared comparisons e)
  | .items, es => ∃ us, Reads .items us (comparedAll comparisons es)
  | .arguments, es => ∃ us, Reads .arguments us (comparedAll comparisons es)
  | .steps, ss => ∃ us, Reads .steps us (comparedSteps comparisons ss)
  | .step, s => ∃ us, Reads .step us (Expr.comparedStep comparisons s)
  | .predicates, es => ∃ us, Reads .predicates us (comparedAll comparisons es)

theorem comparedSteps_between {t : Token} {between : List (Step Expr)} (ht : stepOp t = some between)
    (ss : List (Step Expr)) :
    comparedSteps comparisons (between ++ ss) = between ++ comparedSteps comparisons ss := by
  rcases stepOp_eq_some ht with ⟨-, rfl⟩ | ⟨-, rfl⟩ <;> rfl

theorem Reads.compared {k : Part} {ts : List Token} {x : k.Tree} (h : Reads k ts x) :
    ComparedPart comparisons k x := by
  induction h with
  | tighter _ ih =>
    obtain ⟨us, h⟩ := ih
    exact ⟨us, .tighter h⟩
  | @binary l t join ts us a b hop _ _ left right =>
    obtain ⟨vs, hl⟩ := left
    obtain ⟨ws, hr⟩ := right
    rcases Level.join_eq hop with ⟨rfl, rfl⟩ | ⟨op, rfl, hop, -⟩
    · exact ⟨_, .binary (t := .pipe) rfl hl hr⟩
    · cases hc : (comparisons && needsCompare op a b) with
      | false =>
        rw [ComparedPart, Expr.compared_binary comparisons hc]
        exact ⟨_, .binary hop hl hr⟩
      | true =>
        rw [ComparedPart, Expr.compared_needed comparisons hc]
        have hcall := Reads.call compareFunction (.arguments (.item hl.loosest (.lastItem hr.loosest)))
        exact ⟨_, .binary hop hcall.of_primary (Reads.number "0").of_primary⟩
  | negate _ ih =>
    obtain ⟨us, h⟩ := ih
    exact ⟨_, .negate h⟩
  | root => exact ⟨_, .root⟩
  | absolute ht _ ih =>
    obtain ⟨us, h⟩ := ih
    have hpath := Reads.absolute ht h
    rw [← comparedSteps_between comparisons ht] at hpath
    exact ⟨_, hpath⟩
  | relative _ ih =>
    obtain ⟨us, h⟩ := ih
    exact ⟨us, .relative h⟩
  | continued _ ht _ start ih =>
    obtain ⟨us, hs⟩ := start
    obtain ⟨vs, h⟩ := ih
    have hpath := Reads.continued hs ht h
    rw [← comparedSteps_between comparisons ht] at hpath
    exact ⟨_, hpath⟩
  | filter _ hsome _ ih hp =>
    obtain ⟨us, h⟩ := ih
    obtain ⟨vs, hp⟩ := hp
    refine ⟨_, .filter h ?_ hp⟩
    rwa [← List.isEmpty_eq_false_iff, isEmpty_comparedAll, List.isEmpty_eq_false_iff]
  | variableRef name => exact ⟨_, .variableRef name⟩
  | literal value => exact ⟨_, .literal value⟩
  | number spelling => exact ⟨_, .number spelling⟩
  | call name _ ih =>
    obtain ⟨us, h⟩ := ih
    exact ⟨_, .call name h⟩
  | group _ ih =>
    obtain ⟨us, h⟩ := ih
    exact ⟨_, .group h⟩
  | sequence _ many ih =>
    obtain ⟨us, h⟩ := ih
    refine ⟨_, .sequence h ?_⟩
    rwa [Expr.comparedAll_eq_map, List.length_map]
  | noArguments => exact ⟨_, .noArguments⟩
  | arguments _ ih =>
    obtain ⟨us, h⟩ := ih
    exact ⟨us, .arguments h⟩
  | lastItem _ ih =>
    obtain ⟨us, h⟩ := ih
    exact ⟨us, .lastItem h⟩
  | item _ _ ih more =>
    obtain ⟨us, h⟩ := ih
    obtain ⟨vs, hs⟩ := more
    exact ⟨_, .item h hs⟩
  | lastStep _ ih =>
    obtain ⟨us, h⟩ := ih
    exact ⟨us, .lastStep h⟩
  | joined _ ht _ ih more =>
    obtain ⟨us, h⟩ := ih
    obtain ⟨vs, hs⟩ := more
    have hall := Reads.joined h ht hs
    rw [← comparedSteps_between comparisons ht] at hall
    exact ⟨_, hall⟩
  | self => exact ⟨_, .self⟩
  | parent => exact ⟨_, .parent⟩
  | tested ha ht _ ih =>
    obtain ⟨us, h⟩ := ih
    exact ⟨_, .tested ha ht h⟩
  | noPredicates => exact ⟨_, .noPredicates⟩
  | predicate _ _ ih more =>
    obtain ⟨us, h⟩ := ih
    obtain ⟨vs, hs⟩ := more
    exact ⟨_, .predicate h hs⟩

end

end Grammar

namespace Expr

theorem sequences_barred (a b : Expr) :
    (a.barred b).subterms.any (·.isSequence) =
      (a.subterms.any (·.isSequence) || b.subterms.any (·.isSequence)) := by
  fun_induction barred a b <;>
    simp_all only [subterms, isSequence, List.any_cons, List.any_append, Bool.false_or, Bool.or_assoc]

theorem sequences_barredAll (a : Expr) (es : List Expr) :
    (a.barredAll es).subterms.any (·.isSequence) =
      (a.subterms.any (·.isSequence) || es.any fun e => e.subterms.any (·.isSequence)) := by
  induction es generalizing a with
  | nil => rw [barredAll, List.any_nil, Bool.or_false]
  | cons e es ih => rw [barredAll, ih, sequences_barred, List.any_cons, Bool.or_assoc]

/-- What is read back has no sequences. -/
theorem sequences_reread (e : Expr) : e.reread.subterms.any (·.isSequence) = false := by
  induction e using partsInduction with
  | h e ih =>
    have hparts : (e.parts.any fun p => p.reread.subterms.any (·.isSequence)) = false :=
      List.any_eq_false.mpr fun p hp => by simp [ih p hp]
    cases e
    case literal value => exact any_requoted (fun _ => rfl) (fun _ _ => rfl) value
    case sequence items =>
      cases items with
      | nil => rfl
      | cons e es =>
        rw [parts, List.any_cons, Bool.or_eq_false_iff] at hparts
        rw [reread, subterms, List.any_cons, sequences_barredAll, rereadAll_eq_map, List.any_map, hparts.1]
        exact hparts.2
    case continued a steps =>
      rw [any_reread rfl (by simp) rfl, hparts]
      rcases reread_continued_cases a steps with ⟨_, heq⟩ | ⟨_, heq⟩ <;> rw [heq] <;> rfl
    all_goals
      rw [any_reread rfl (by simp) rfl, hparts]
      rfl

end Expr

theorem first_spellPieces (ps : List String) : (spellPieces ps).all (!·.isLaterOperator) = true := by
  fun_induction spellPieces ps with
  | case1 => rfl
  | case2 => rfl
  | case3 p q more ih =>
    simp only [List.all_cons, ih]
    rfl

theorem first_spellLiteral (value : String) :
    (spellLiteral value).all (!·.isLaterOperator) = true := by
  unfold spellLiteral
  split
  · rfl
  · simp only [List.all_cons, List.all_append, first_spellPieces]
    rfl

theorem first_slashes (n : Nat) : (slashes n).all (!·.isLaterOperator) = true := by
  fun_induction slashes n with
  | case1 => rfl
  | case2 => rfl
  | case3 n ih =>
    simp only [List.all_cons, ih]
    rfl

theorem first_tokens (test : NodeTest) : test.tokens.all (!·.isLaterOperator) = true := by
  cases test
  case instruction target =>
    cases target with
    | none => rfl
    | some value =>
      show (_ && (_ && (spellLiteral value ++ _).all _)) = true
      simp only [List.all_append, first_spellLiteral]
      rfl
  all_goals rfl

theorem first_spellHead (a : Axis) (test : NodeTest) (bare : Bool) :
    (spellHead a test bare).all (!·.isLaterOperator) = true := by
  have htest := first_tokens test
  unfold spellHead
  split
  · split <;> rfl
  · split <;> rfl
  · exact htest
  · rw [List.all_cons, htest]
    rfl
  · rw [List.all_cons, List.all_cons, htest]
    rfl

mutual
/-- What is printed has operators of the first version of the language only. -/
theorem first_spell : (e : Expr) → (spell e).all (!·.isLaterOperator) = true
  | .literal value => first_spellLiteral value
  | .number _ | .variableRef _ => rfl
  | .call name args => by
    simp only [spell, List.all_cons, List.all_append, first_spellAll .comma rfl args]
    rfl
  | .negate e => by
    simp only [spell, List.all_cons, first_spell e]
    rfl
  | .binary op a b => by
    simp only [spell, List.all_cons, List.all_append, first_spell a, first_spell b]
    cases op <;> rfl
  | .union a b => by
    simp only [spell, List.all_cons, List.all_append, first_spell a, first_spell b]
    rfl
  | .group e => by
    simp only [spell, List.all_cons, List.all_append, first_spell e]
    rfl
  | .sequence [] => rfl
  | .sequence (e :: es) => by
    simp only [spell, List.all_cons, List.all_append, first_spell e, first_spellMore .pipe rfl es]
    rfl
  | .filter e preds => by
    simp only [spell, List.all_append, first_spell e, first_spellPredicates preds]
    rfl
  | .absolute steps => first_spellSteps 1 steps
  | .relative steps => first_spellSteps 0 steps
  | .continued e steps => by
    simp only [spell, List.all_append, first_spell e, first_spellSteps 1 steps]
    rfl

theorem first_spellAll (sep : Token) (h : sep.isLaterOperator = false) :
    (es : List Expr) → (spellAll sep es).all (!·.isLaterOperator) = true
  | [] => rfl
  | e :: es => by
    simp only [spellAll, List.all_append, first_spell e, first_spellMore sep h es]
    rfl

theorem first_spellMore (sep : Token) (h : sep.isLaterOperator = false) :
    (es : List Expr) → (spellMore sep es).all (!·.isLaterOperator) = true
  | [] => rfl
  | e :: es => by
    simp only [spellMore, List.all_cons, List.all_append, h, first_spell e, first_spellMore sep h es]
    rfl

theorem first_spellPredicates : (es : List Expr) →
    (spellPredicates es).all (!·.isLaterOperator) = true
  | [] => rfl
  | e :: es => by
    simp only [spellPredicates, List.all_cons, List.all_append, first_spell e, first_spellPredicates es]
    rfl

theorem first_spellSteps (pending : Nat) :
    (ss : List (Step Expr)) → (spellSteps pending ss).all (!·.isLaterOperator) = true
  | [] => first_slashes pending
  | ⟨axis, test, preds⟩ :: ss => by
    rw [spellSteps]
    split
    · exact first_spellSteps (pending + 1) ss
    · simp only [List.all_append, first_slashes, first_spellHead, first_spellPredicates preds]
      split
      · rfl
      · exact first_spellSteps 1 ss
end

theorem parseWith_of_reads {rule : QuoteRule} {source : String} {ts : List Token} {e : Expr}
    (hlex : Lexes rule true source.toList ts) (h : Grammar.Reads (.expr .or) ts e) :
    parseWith rule source = .ok ⟨e, ts.any (·.isLaterOperator) || e.subterms.any (·.isSequence)⟩ := by
  obtain ⟨found, hfound, rfl⟩ := tokenizeWith_of_lexes hlex
  simp only [parseWith, hfound, bind, Except.bind, Grammar.expr_complete h, List.any_map]
  rfl

theorem parse_of_reads {source : String} {ts : List Token} {e : Expr} (hlex : Lexes .doubled true source.toList ts)
    (h : Grammar.Reads (.expr .or) ts e) :
    parse source = .ok ⟨e, ts.any (·.isLaterOperator) || e.subterms.any (·.isSequence)⟩ :=
  parseWith_of_reads hlex h

theorem reads_of_parse {source : String} {p : Parsed} (h : parse source = .ok p) :
    ∃ ts, Lexes .doubled true source.toList ts ∧ Grammar.Reads (.expr .or) ts p.expr := by
  unfold parse parseWith at h
  cases ht : tokenizeWith .doubled source with
  | error e =>
    rw [ht] at h
    cases h
  | ok found =>
    rw [ht] at h
    dsimp only [bind, Except.bind] at h
    refine ⟨_, lexes_of_tokenizeWith ht, ?_⟩
    split at h
    · cases h
    · cases h
    · rename_i e he
      cases h
      obtain ⟨used, hused, hreads⟩ := Grammar.expr_sound _ _ _ he
      rw [List.append_nil] at hused
      rw [hused]
      exact hreads

/-- The text of a parsed expression has the tokens of its tree. -/
theorem lexes_emit {rule : QuoteRule} {source : String} {p : Parsed} (h : parse source = .ok p)
    (comparisons : Bool) :
    Lexes rule true (emit comparisons p.expr).toList (spell (compared comparisons p.expr)) := by
  obtain ⟨ts, hlex, hreads⟩ := reads_of_parse h
  have hwritten : Written rule comparisons p.expr := hreads.written rule comparisons hlex.fits.1
  have hall := hwritten [] [] apart_nil (by simp) (.done rfl)
  rwa [List.append_nil, List.append_nil] at hall

/-- A text with the tokens of a legible expression is read as `reread` says. -/
theorem parse_of_legible {text : String} {ts : List Token} {e : Expr}
    (hlex : Lexes .doubled true text.toList (spell e)) (hreads : Grammar.Reads (.expr .or) ts e)
    (hlegible : ∀ x ∈ e.subterms, x.Legible) : parse text = .ok ⟨e.reread, false⟩ := by
  have hreread : Grammar.Reads (.expr .or) (spell e) e.reread := hreads.reread hlegible fun _ => by decide
  have hfirst : (spell e).any (·.isLaterOperator) = false := by
    rw [List.any_eq_false]
    intro t ht
    simpa using List.all_eq_true.mp (first_spell e) t ht
  rw [parse_of_reads hlex hreread, hfirst, e.sequences_reread]
  rfl

/-- A parsed expression that is plain is read back from its own text, with its comparisons by order
replaced where the text replaces them. -/
theorem parse_emit {source : String} {p : Parsed} (h : parse source = .ok p)
    (hplain : ∀ x ∈ p.expr.subterms, x.Plain) :
    parse (emit false p.expr) = .ok ⟨p.expr, false⟩ ∧
      parse (emit true p.expr) = .ok ⟨compared true p.expr, false⟩ := by
  have hall : ∀ comparisons,
      parse (emit comparisons p.expr) = .ok ⟨compared comparisons p.expr, false⟩ := by
    intro comparisons
    obtain ⟨ts, hlex, hreads⟩ := reads_of_parse h
    obtain ⟨us, hcompared⟩ := hreads.compared comparisons
    have hparts : ∀ x ∈ (compared comparisons p.expr).subterms, x.Plain := Expr.plain_compared hplain
    rw [parse_of_legible (lexes_emit h comparisons) hcompared (Expr.legible_of_plain hparts),
      Expr.reread_of_plain hparts]
  refine ⟨?_, hall true⟩
  have hplainText := hall false
  rwa [Expr.compared_false] at hplainText

/-- The tree of `//a[@b < $c]/.. = 'it''s'`. -/
private def olderParents : Expr :=
  .binary .eq
    (.absolute [.descendantOrSelf,
      ⟨.child, .name "a",
        [.binary .lt (.relative [.bare .attributes (.name "b")]) (.variableRef "c")]⟩,
      .bare .parent .node])
    (.literal "it's")

private def olderParentsTokens : List Token :=
  [.doubleSlash, .nameTest "a", .lbracket, .atSign, .nameTest "b", .lt, .variableName "c", .rbracket,
    .slash, .dotDot, .eq, .literal "it's"]

theorem lexes_olderParents :
    Lexes .doubled true "//a[@b < $c]/.. = 'it''s'".toList olderParentsTokens := by
  unfold olderParentsTokens
  iterate 12 refine .more rfl rfl ?_
  exact .done rfl

open Grammar in
theorem reads_olderParents : Reads (.expr .or) olderParentsTokens olderParents := by
  have hb : Reads (.expr .path) [.atSign, .nameTest "b"]
      (.relative [.bare .attributes (.name "b")]) :=
    .relative (.lastStep (.tested .atSign (.name "b") .noPredicates))
  have hlt : Reads (.expr .relational) [.atSign, .nameTest "b", .lt, .variableName "c"]
      (.binary .lt (.relative [.bare .attributes (.name "b")]) (.variableRef "c")) :=
    .binary rfl (hb.loosen (by decide)) (Reads.variableRef "c").of_primary
  have ha : Reads .step
      [.nameTest "a", .lbracket, .atSign, .nameTest "b", .lt, .variableName "c", .rbracket]
      ⟨.child, .name "a",
        [.binary .lt (.relative [.bare .attributes (.name "b")]) (.variableRef "c")]⟩ :=
    .tested .none (.name "a") (.predicate hlt.loosest .noPredicates)
  have hsteps := Reads.absolute (t := .doubleSlash) rfl (.joined ha (t := .slash) rfl (.lastStep .parent))
  have heq := Reads.binary (l := .equality) (t := .eq) rfl (hsteps.loosen (by decide))
    (Reads.literal "it's").of_primary
  exact heq.loosest

theorem parse_emit_olderParents :
    parse "//a[@b < $c]/.. = 'it''s'" = .ok ⟨olderParents, false⟩ ∧
      (∀ x ∈ olderParents.subterms, x.Plain) ∧
      parse (emit false olderParents) = .ok ⟨olderParents, false⟩ ∧
      parse (emit true olderParents) = .ok ⟨compared true olderParents, false⟩ := by
  have hparse : parse "//a[@b < $c]/.. = 'it''s'" = .ok ⟨olderParents, false⟩ :=
    parse_of_reads lexes_olderParents reads_olderParents
  have hplain : ∀ x ∈ olderParents.subterms, x.Plain := by
    decide
  obtain ⟨hfalse, htrue⟩ := parse_emit hparse hplain
  exact ⟨hparse, hplain, hfalse, htrue⟩

end Schematron.XPath
