import Schematron.Proofs.XPath.Joining
import Schematron.Proofs.XPath.Parts
import Schematron.Proofs.XPath.Spelling

/-!
The expression that the text of another one is read as. A sequence is printed as a union, and a string
with both kinds of quotes as a call, so they come back as these; some texts say nothing at all.
-/

namespace Schematron.XPath

open Schematron.XPath.Expr (compared comparedAll comparedSteps)

namespace NodeTest

/-- The target of a test for processing instructions. -/
def target? : NodeTest → Option String
  | instruction target => target
  | _ => none

end NodeTest

/-- No text in the language holds both kinds of quotes. -/
def HasBothQuotes (s : String) : Prop := '\'' ∈ s.toList ∧ '"' ∈ s.toList

theorem lacksQuote_of_quotable {s : String} (h : ¬HasBothQuotes s) :
    (!s.toList.contains '\'' || !s.toList.contains '"') = true := by
  by_cases hquote : '\'' ∈ s.toList
  · have hquotes : '"' ∉ s.toList := fun hq => h ⟨hquote, hq⟩
    simp [hquotes]
  · simp [hquote]

/-- Both steps are gaps that a double slash stands for. -/
def GapAfterGap (s t : Step Expr) : Prop :=
  s.isDescendantOrSelf = true ∧ t.isDescendantOrSelf = true

instance (s : String) : Decidable (HasBothQuotes s) := inferInstanceAs (Decidable (_ ∧ _))

instance (s t : Step Expr) : Decidable (GapAfterGap s t) := inferInstanceAs (Decidable (_ ∧ _))

namespace Expr

/-- The steps of a path. -/
def ownSteps : Expr → List (Step Expr)
  | absolute steps | relative steps | continued _ steps => steps
  | _ => []

/-- The steps that a double slash may stand for: none that ends a path, and none that begins one. -/
def innerSteps : Expr → List (Step Expr)
  | absolute steps | continued _ steps => steps.dropLast
  | relative steps => steps.dropLast.tail
  | _ => []

/-- Predicates on the sequence of nothing. -/
def filtersNothing : Expr → Bool
  | filter (sequence []) (_ :: _) => true
  | _ => false

/-- The items of a sequence. -/
def items : Expr → List Expr
  | sequence items => items
  | _ => []

/-- The text of an expression can be read, apart from its parts. -/
structure Legible (e : Expr) : Prop where
  targets : ∀ s ∈ e.ownSteps, ∀ v ∈ s.test.target?, ¬HasBothQuotes v
  gaps : e.innerSteps.IsChain fun s t => ¬GapAfterGap s t
  filtered : e.filtersNothing = false
  signs : ∀ x ∈ e.items.tail, x.startsMinus = false

instance (e : Expr) : Decidable e.Legible :=
  decidable_of_iff (((∀ s ∈ e.ownSteps, ∀ v ∈ s.test.target?, ¬HasBothQuotes v) ∧
      e.innerSteps.IsChain fun s t => ¬GapAfterGap s t) ∧ e.filtersNothing = false ∧
      ∀ x ∈ e.items.tail, x.startsMinus = false)
    ⟨fun h => ⟨h.1.1, h.1.2, h.2.1, h.2.2⟩, fun h => ⟨⟨h.targets, h.gaps⟩, h.filtered, h.signs⟩⟩

/-- What expressions say with a bar before each of them, behind another one. -/
def barredAll (e : Expr) : List Expr → Expr
  | [] => e
  | f :: fs => barredAll (e.barred f) fs

/-- The arguments of the call that joins the pieces between apostrophes. -/
def rejoined : List String → List Expr
  | [] => []
  | [p] => [literal p]
  | p :: q :: more => literal p :: literal "'" :: rejoined (q :: more)

def requoted (value : String) : Expr :=
  if !value.toList.contains '\'' || !value.toList.contains '"' then literal value
  else call "concat" (rejoined (Text.pieces '\'' value))

mutual
/-- What the text of an expression is read as. -/
def reread : Expr → Expr
  | literal value => requoted value
  | number spelling => number spelling
  | variableRef name => variableRef name
  | call name args => call name (rereadAll args)
  | negate e => negate (reread e)
  | binary op a b => binary op (reread a) (reread b)
  | union a b => union (reread a) (reread b)
  | group e => group (reread e)
  | sequence [] => absolute [.bare .parent .node]
  | sequence (e :: es) => group ((reread e).barredAll (rereadAll es))
  | filter e preds => filter (reread e) (rereadAll preds)
  | absolute steps => absolute (rereadSteps steps)
  | relative steps => relative (rereadSteps steps)
  | continued (sequence []) steps => absolute (.bare .parent .node :: rereadSteps steps)
  | continued e steps => continued (reread e) (rereadSteps steps)

def rereadAll : List Expr → List Expr
  | [] => []
  | e :: es => reread e :: rereadAll es

def rereadSteps : List (Step Expr) → List (Step Expr)
  | [] => []
  | ⟨axis, test, preds⟩ :: steps => ⟨axis, test, rereadAll preds⟩ :: rereadSteps steps
end

theorem startsMinus_requoted (value : String) : (requoted value).startsMinus = false := by
  unfold requoted
  split <;> rfl

theorem reread_continued {e : Expr} (h : e ≠ sequence []) (steps : List (Step Expr)) :
    (continued e steps).reread = continued e.reread (rereadSteps steps) := by
  cases e
  case sequence items =>
    cases items with
    | nil => exact absurd rfl h
    | cons => rfl
  all_goals rfl

/-- Behind the sequence of nothing a path begins at the root. -/
theorem reread_continued_cases (e : Expr) (steps : List (Step Expr)) :
    (∃ ss, (continued e steps).reread = absolute ss) ∨
      ∃ ss, (continued e steps).reread = continued e.reread ss := by
  by_cases h : e = sequence []
  · rw [h]
    exact .inl ⟨_, rfl⟩
  · exact .inr ⟨_, reread_continued h steps⟩

theorem startsMinus_reread (e : Expr) : e.reread.startsMinus = e.startsMinus := by
  fun_induction startsMinus e with
  | case1 => rfl
  | case2 op a b ih => exact ih
  | case3 a b ih => exact ih
  | case4 e hnegate hbinary hunion =>
    cases e
    case literal value => exact startsMinus_requoted value
    case negate a => exact absurd rfl (hnegate a)
    case binary op a b => exact absurd rfl (hbinary op a b)
    case union a b => exact absurd rfl (hunion a b)
    case sequence items => cases items <;> rfl
    case continued a steps =>
      rcases reread_continued_cases a steps with ⟨_, heq⟩ | ⟨_, heq⟩ <;> rw [heq] <;> rfl
    all_goals rfl

theorem rereadAll_eq_map (es : List Expr) : rereadAll es = es.map reread := by
  induction es with
  | nil => rfl
  | cons e es ih => rw [rereadAll, ih, List.map_cons]

theorem predicates_rereadSteps (ss : List (Step Expr)) :
    (rereadSteps ss).flatMap (·.predicates) = (ss.flatMap (·.predicates)).map reread := by
  induction ss with
  | nil => rfl
  | cons s ss ih =>
    rw [rereadSteps, List.flatMap_cons, List.flatMap_cons, ih, rereadAll_eq_map, List.map_append]

theorem any_requoted {f : Expr → Bool} (hliteral : ∀ value, f (literal value) = false)
    (hcall : ∀ name args, f (call name args) = false) (value : String) :
    (requoted value).subterms.any f = false := by
  have hpieces : ∀ ps, (subtermsAll (rejoined ps)).any f = false := by
    intro ps
    fun_induction rejoined ps with
    | case1 => rfl
    | case2 p => simp [subtermsAll, subterms, hliteral]
    | case3 p q more ih => simp [subtermsAll, subterms, hliteral, ih]
  unfold requoted
  split
  · simp [subterms, hliteral]
  · simp [subterms, hcall, hpieces]

/-- An expression that is no literal and no sequence is read back with its parts read back. -/
theorem any_reread {f : Expr → Bool} (hparent : f (absolute [.bare .parent .node]) = false) {e : Expr}
    (hliteral : ∀ value, e ≠ literal value) (hsequence : e.isSequence = false) :
    e.reread.subterms.any f = (f e.reread || e.parts.any fun p => p.reread.subterms.any f) := by
  rw [any_subterms]
  cases e
  case literal value => exact absurd rfl (hliteral value)
  case sequence => cases hsequence
  case continued a steps =>
    by_cases ha : a = sequence []
    · subst ha
      have hnothing : (absolute [.bare .parent .node]).subterms.any f = false := by
        rw [any_subterms, hparent]
        rfl
      simp only [reread, parts, List.flatMap_cons, predicates_rereadSteps, List.any_cons, hnothing,
        Bool.false_or]
      simp only [Step.bare, List.nil_append, List.any_map, Function.comp_def]
    · rw [reread_continued ha]
      simp only [parts, List.any_cons, predicates_rereadSteps, List.any_map, Function.comp_def]
  all_goals
    simp only [reread, parts, rereadAll_eq_map, predicates_rereadSteps, List.any_cons, List.any_nil,
      List.any_map, Function.comp_def]

end Expr

namespace Grammar

theorem reads_predicates {es : List Expr} (h : ∀ e ∈ es, Reads (.expr .or) (spell e) e.reread) :
    Reads .predicates (spellPredicates es) (Expr.rereadAll es) := by
  induction es with
  | nil => exact .noPredicates
  | cons e es ih =>
    obtain ⟨he, hes⟩ := List.forall_mem_cons.mp h
    exact .predicate he (ih hes)

theorem reads_items {e : Expr} {es : List Expr}
    (h : ∀ x ∈ e :: es, Reads (.expr .or) (spell x) x.reread) :
    Reads .items (spellAll .comma (e :: es)) (Expr.rereadAll (e :: es)) := by
  induction es generalizing e with
  | nil =>
    have hitem := Reads.lastItem (h e List.mem_cons_self)
    simpa [spellAll, spellMore, Expr.rereadAll] using hitem
  | cons f es ih =>
    obtain ⟨he, hes⟩ := List.forall_mem_cons.mp h
    exact .item he (ih hes)

theorem reads_arguments {es : List Expr} (h : ∀ e ∈ es, Reads (.expr .or) (spell e) e.reread) :
    Reads .arguments (spellAll .comma es) (Expr.rereadAll es) := by
  cases es with
  | nil => exact .noArguments
  | cons e es => exact .arguments (reads_items h)

theorem reads_barredAll {ts : List Token} {a : Expr} {es : List Expr} (ha : Reads (.expr .or) ts a)
    (h : ∀ e ∈ es, Reads (.expr .or) (spell e) e.reread) (hsigns : ∀ e ∈ es, e.startsMinus = false) :
    Reads (.expr .or) (ts ++ spellMore .pipe es) (a.barredAll (Expr.rereadAll es)) := by
  induction es generalizing ts a with
  | nil => simpa [spellMore, Expr.rereadAll, Expr.barredAll] using ha
  | cons e es ih =>
    obtain ⟨he, hes⟩ := List.forall_mem_cons.mp h
    obtain ⟨hsign, hsigns⟩ := List.forall_mem_cons.mp hsigns
    have hbar := ha.barred he (by decide) (e.startsMinus_reread.trans hsign)
    have hall := ih hbar hes hsigns
    simpa [spellMore, Expr.rereadAll, Expr.barredAll] using hall

theorem reads_rejoined {ps : List String} (h : ps ≠ []) :
    Reads .items (spellPieces ps) (Expr.rejoined ps) := by
  fun_induction spellPieces ps with
  | case1 => exact absurd rfl h
  | case2 p => exact .lastItem (Reads.literal p).of_primary
  | case3 p q more ih =>
    have hrest := Reads.item (Reads.literal "'").of_primary (ih (by simp))
    exact .item (Reads.literal p).of_primary hrest

theorem reads_requoted (value : String) :
    Reads (.expr .primary) (spellLiteral value) (Expr.requoted value) := by
  unfold spellLiteral Expr.requoted
  split
  · exact .literal value
  · have hne : Text.pieces '\'' value ≠ [] := Text.pieces_ne_nil _ _
    exact .call "concat" (.arguments (reads_rejoined hne))

theorem spellLiteral_of_quotable {value : String} (h : ¬HasBothQuotes value) :
    spellLiteral value = [.literal value] := by
  rw [spellLiteral, if_pos (lacksQuote_of_quotable h)]

theorem TestReads.respelled {ts : List Token} {test : NodeTest} (h : TestReads ts test)
    (hquotes : ∀ s ∈ test.target?, ¬HasBothQuotes s) : TestReads test.tokens test := by
  cases h with
  | name n =>
    rw [nameTest_tokens]
    exact .name n
  | type h =>
    unfold typeTest? at h
    split_ifs at h <;> cases h <;> exact .type rfl
  | instruction => exact .instruction (by decide)
  | target h value =>
    have hspell := spellLiteral_of_quotable (hquotes value rfl)
    show TestReads (_ :: _ :: (spellLiteral value ++ _)) _
    rw [hspell]
    exact .target (by decide) value

/-- The tokens of a step, behind the slashes before it. -/
def spellStep (s : Step Expr) : List Token :=
  spellHead s.axis s.test s.predicates.isEmpty ++ spellPredicates s.predicates

theorem spellSteps_singleton (n : Nat) (s : Step Expr) : spellSteps n [s] = slashes n ++ spellStep s := by
  simp [spellSteps, spellStep]

/-- A step that is written out. -/
theorem spellSteps_written {n : Nat} {s : Step Expr} (h : n = 0 ∨ s.isDescendantOrSelf = false)
    {ss : List (Step Expr)} (hss : ss ≠ []) :
    spellSteps n (s :: ss) = slashes n ++ (spellStep s ++ spellSteps 1 ss) := by
  have hne : ss.isEmpty = false := by simpa using hss
  have hwritten : (decide (0 < n) && s.isDescendantOrSelf) = false := by
    rcases h with rfl | h
    · rfl
    · rw [h, Bool.and_false]
  obtain ⟨axis, test, preds⟩ := s
  rw [spellSteps, hne, Bool.not_false, Bool.true_and, hwritten]
  simp [spellStep]

/-- A step that a double slash stands for. -/
theorem spellSteps_folded {n : Nat} (hn : 0 < n) {s : Step Expr} (hs : s.isDescendantOrSelf = true)
    {ss : List (Step Expr)} (hss : ss ≠ []) : spellSteps n (s :: ss) = spellSteps (n + 1) ss := by
  have hne : ss.isEmpty = false := by simpa using hss
  obtain ⟨axis, test, preds⟩ := s
  rw [spellSteps, hne, hs]
  simp [hn]

theorem spellSteps_of_written {ss : List (Step Expr)} (hsome : ss ≠ [])
    (h : ∀ s ∈ ss.dropLast.head?, s.isDescendantOrSelf = false) (n : Nat) :
    spellSteps n ss = slashes n ++ spellSteps 0 ss := by
  match ss with
  | [] => exact absurd rfl hsome
  | [s] => rw [spellSteps_singleton, spellSteps_singleton]; rfl
  | s :: t :: ss =>
    rw [spellSteps_written (.inr (h s rfl)) (by simp), spellSteps_written (.inl rfl) (by simp)]
    rfl

theorem eq_descendantOrSelf {s : Step Expr} (h : s.isDescendantOrSelf = true) :
    s = .descendantOrSelf := by
  obtain ⟨a, test, preds⟩ := s
  simp only [Step.isDescendantOrSelf, Bool.and_eq_true, decide_eq_true_eq, List.isEmpty_iff] at h
  obtain ⟨⟨rfl, rfl⟩, rfl⟩ := h
  rfl

/-- The tokens of a step are read as the step. -/
theorem reads_step {s : Step Expr} (ht : TestReads s.test.tokens s.test)
    (hp : ∀ e ∈ s.predicates, Reads (.expr .or) (spell e) e.reread) :
    Reads .step (spellStep s) ⟨s.axis, s.test, Expr.rereadAll s.predicates⟩ := by
  have hpreds := reads_predicates hp
  obtain ⟨a, test, preds⟩ := s
  have hnamed : Reads .step ([.axisName a.name, .colonColon] ++ (test.tokens ++ spellPredicates preds))
      ⟨a, test, Expr.rereadAll preds⟩ := .tested (.named (Axis.ofName?_name a)) ht hpreds
  cases a
  case self =>
    cases test
    case node =>
      cases preds with
      | nil => exact .self
      | cons => exact hnamed
    all_goals exact hnamed
  case parent =>
    cases test
    case node =>
      cases preds with
      | nil => exact .parent
      | cons => exact hnamed
    all_goals exact hnamed
  case child => exact .tested .none ht hpreds
  case attributes => exact .tested .atSign ht hpreds
  all_goals exact hnamed

theorem rereadSteps_cons (s : Step Expr) (ss : List (Step Expr)) :
    Expr.rereadSteps (s :: ss) = ⟨s.axis, s.test, Expr.rereadAll s.predicates⟩ :: Expr.rereadSteps ss :=
  rfl

/-- The tokens of steps are read, with the slashes before them and without, unless two gaps follow each
other among those that may be left out. -/
structure StepsReread (ss : List (Step Expr)) : Prop where
  nonempty : ss ≠ []
  alone : (ss.dropLast.tail.IsChain fun s t => ¬GapAfterGap s t) →
    Reads .steps (spellSteps 0 ss) (Expr.rereadSteps ss)
  behind : (ss.dropLast.IsChain fun s t => ¬GapAfterGap s t) →
    ∃ t between us more, stepOp t = some between ∧ spellSteps 1 ss = t :: us ∧
      Expr.rereadSteps ss = between ++ more ∧ Reads .steps us more

theorem stepsReread_singleton {s : Step Expr} (ht : TestReads s.test.tokens s.test)
    (hp : ∀ e ∈ s.predicates, Reads (.expr .or) (spell e) e.reread) : StepsReread [s] := by
  have hstep := Reads.lastStep (reads_step ht hp)
  refine ⟨by simp, fun _ => ?_, fun _ => ?_⟩
  · rw [spellSteps_singleton]
    exact hstep
  · rw [spellSteps_singleton]
    exact ⟨.slash, [], _, _, rfl, rfl, rfl, hstep⟩

theorem stepsReread_cons {s : Step Expr} {ss : List (Step Expr)} (ht : TestReads s.test.tokens s.test)
    (hp : ∀ e ∈ s.predicates, Reads (.expr .or) (spell e) e.reread) (hss : StepsReread ss) :
    StepsReread (s :: ss) := by
  obtain ⟨hsome, halone, hbehind⟩ := hss
  have hlast : (s :: ss).dropLast = s :: ss.dropLast := List.dropLast_cons_of_ne_nil hsome
  have hfirst : (ss.dropLast.IsChain fun s t => ¬GapAfterGap s t) →
      Reads .steps (spellStep s ++ spellSteps 1 ss) (Expr.rereadSteps (s :: ss)) := by
    intro hgaps
    obtain ⟨t, between, us, more, hop, hspell, hmore, hreads⟩ := hbehind hgaps
    rw [hspell, rereadSteps_cons, hmore]
    exact .joined (reads_step ht hp) hop hreads
  refine ⟨by simp, fun hgaps => ?_, fun hgaps => ?_⟩
  · rw [hlast] at hgaps
    rw [spellSteps_written (.inl rfl) hsome]
    exact hfirst hgaps
  · rw [hlast] at hgaps
    by_cases hs : s.isDescendantOrSelf = true
    · -- the gap itself is not written, and the step behind it is
      have hwritten : ∀ t ∈ ss.dropLast.head?, t.isDescendantOrSelf = false := fun t ht =>
        Bool.eq_false_iff.mpr fun hgap => hgaps.rel_head? ht ⟨hs, hgap⟩
      refine ⟨.doubleSlash, [.descendantOrSelf], _, _, rfl, ?_, ?_, halone hgaps.tail.tail⟩
      · rw [spellSteps_folded (by decide) hs hsome, spellSteps_of_written hsome hwritten]
        rfl
      · rw [rereadSteps_cons, eq_descendantOrSelf hs]
        rfl
    · rw [spellSteps_written (.inr (Bool.eq_false_iff.mpr hs)) hsome]
      exact ⟨.slash, [], _, _, rfl, rfl, rfl, hfirst hgaps.tail⟩

theorem stepsReread_between {t : Token} {between ss : List (Step Expr)} (ht : stepOp t = some between)
    (h : StepsReread ss) : StepsReread (between ++ ss) := by
  rcases stepOp_eq_some ht with ⟨-, rfl⟩ | ⟨-, rfl⟩
  · exact h
  · exact stepsReread_cons (.type rfl) (List.forall_mem_nil _) h

/-- Every text in a part can be read. -/
def LegiblePart : (k : Part) → k.Tree → Prop
  | .expr _, e => ∀ x ∈ e.subterms, x.Legible
  | .items, es | .arguments, es | .predicates, es => ∀ x ∈ Expr.subtermsAll es, x.Legible
  | .steps, ss =>
    (∀ x ∈ Expr.subtermsSteps ss, x.Legible) ∧ ∀ s ∈ ss, ∀ v ∈ s.test.target?, ¬HasBothQuotes v
  | .step, s =>
    (∀ x ∈ Expr.subtermsAll s.predicates, x.Legible) ∧ ∀ v ∈ s.test.target?, ¬HasBothQuotes v

theorem legiblePart_of_between {t : Token} {between ss : List (Step Expr)} (ht : stepOp t = some between)
    (h : LegiblePart .steps (between ++ ss)) : LegiblePart .steps ss := by
  rcases stepOp_eq_some ht with ⟨-, rfl⟩ | ⟨-, rfl⟩
  · exact h
  · obtain ⟨hsub, htargets⟩ := h
    exact ⟨hsub, (List.forall_mem_cons.mp htargets).2⟩

/-- The tokens of a part are read as what `reread` says. Those of the sequence of nothing are a path. -/
def RereadPart : (k : Part) → k.Tree → Prop
  | .expr l, e => (e = .sequence [] → l.rank ≤ Level.path.rank) → Reads (.expr l) (spell e) e.reread
  | .items, es | .arguments, es | .predicates, es =>
    ∀ e ∈ es, Reads (.expr .or) (spell e) e.reread
  | .steps, ss => StepsReread ss
  | .step, s =>
    TestReads s.test.tokens s.test ∧ ∀ e ∈ s.predicates, Reads (.expr .or) (spell e) e.reread

theorem reads_emptySequence {l : Level} (h : l.rank ≤ Level.path.rank) :
    Reads (.expr l) (spell (.sequence [])) (Expr.reread (.sequence [])) := by
  have hpath := Reads.absolute (t := .slash) rfl (.lastStep .parent)
  exact hpath.loosen h

theorem Reads.reread {k : Part} {ts : List Token} {x : k.Tree} (h : Reads k ts x)
    (hlegible : LegiblePart k x) : RereadPart k x := by
  induction h with
  | @tighter l ts e _ ih =>
    intro hpath
    by_cases he : e = .sequence []
    · rw [he]
      exact reads_emptySequence (hpath he)
    · exact .tighter (ih hlegible fun heq => absurd heq he)
  | @binary l t join ts us a b hop _ _ left right =>
    intro _
    rcases Level.join_eq hop with ⟨rfl, rfl⟩ | ⟨op, rfl, hop, -⟩
    · obtain ⟨ha, hb⟩ := List.forall_mem_append.mp (List.forall_mem_cons.mp hlegible).2
      exact .binary (t := .pipe) rfl (left ha fun _ => by decide) (right hb fun _ => by decide)
    · obtain ⟨ha, hb⟩ := List.forall_mem_append.mp (List.forall_mem_cons.mp hlegible).2
      have hl : l.next.rank ≤ Level.path.rank := by
        cases l <;> first | decide | cases hop
      have hl' : l.rank ≤ l.next.rank := by cases l <;> decide
      exact .binary hop (left ha fun _ => Nat.le_trans hl' hl) (right hb fun _ => hl)
  | negate _ ih =>
    intro _
    exact .negate (ih (List.forall_mem_cons.mp hlegible).2 fun _ => by decide)
  | root => exact fun _ => .root
  | absolute ht _ ih =>
    intro _
    obtain ⟨hpath, hsub⟩ := List.forall_mem_cons.mp hlegible
    have hsteps := stepsReread_between ht (ih (legiblePart_of_between ht ⟨hsub, hpath.targets⟩))
    obtain ⟨u, more, us, tail, hu, hspell, hmore, hreads⟩ := hsteps.behind hpath.gaps
    show Reads (.expr .path) (spellSteps 1 _) (.absolute (Expr.rereadSteps _))
    rw [hspell, hmore]
    exact .absolute hu hreads
  | relative _ ih =>
    intro _
    obtain ⟨hpath, hsub⟩ := List.forall_mem_cons.mp hlegible
    exact .relative ((ih ⟨hsub, hpath.targets⟩).alone hpath.gaps)
  | @continued t between ts us e ss _ ht _ start ih =>
    intro _
    obtain ⟨hpath, hsub⟩ := List.forall_mem_cons.mp hlegible
    obtain ⟨he, hsub⟩ := List.forall_mem_append.mp hsub
    have hsteps := stepsReread_between ht (ih (legiblePart_of_between ht ⟨hsub, hpath.targets⟩))
    obtain ⟨u, more, vs, tail, hu, hspell, hmore, hreads⟩ := hsteps.behind hpath.gaps
    by_cases hempty : e = .sequence []
    · rw [hempty]
      show Reads (.expr .path) (.slash :: .dotDot :: spellSteps 1 _) (.absolute (_ :: Expr.rereadSteps _))
      rw [hspell, hmore]
      exact .absolute (t := .slash) rfl (.joined .parent hu hreads)
    · rw [Expr.reread_continued hempty, spell, hspell, hmore]
      exact .continued (start he fun heq => absurd heq hempty) hu hreads
  | @filter ts us e preds _ hsome _ ih hpreds =>
    intro _
    obtain ⟨hfilter, hsub⟩ := List.forall_mem_cons.mp hlegible
    obtain ⟨he, hps⟩ := List.forall_mem_append.mp hsub
    cases preds with
    | nil => exact absurd rfl hsome
    | cons p preds =>
      have hprimary := ih he fun heq => by
        subst heq
        cases hfilter.filtered
      exact .filter hprimary (List.cons_ne_nil _ _) (reads_predicates (hpreds hps))
  | variableRef name => exact fun _ => .variableRef name
  | literal value => exact fun _ => reads_requoted value
  | number spelling => exact fun _ => .number spelling
  | call name _ ih => exact fun _ => .call name (reads_arguments (ih (List.forall_mem_cons.mp hlegible).2))
  | group _ ih =>
    exact fun _ => .group (ih (List.forall_mem_cons.mp hlegible).2 fun _ => by decide)
  | @sequence ts items _ _ ih =>
    intro hempty
    obtain ⟨hsequence, hsub⟩ := List.forall_mem_cons.mp hlegible
    cases items with
    | nil => exact absurd (hempty rfl) (by decide)
    | cons e es =>
      obtain ⟨he, hes⟩ := List.forall_mem_cons.mp (ih hsub)
      have hall := (reads_barredAll he hes hsequence.signs).group
      rwa [List.append_assoc] at hall
  | noArguments | noPredicates => exact List.forall_mem_nil _
  | arguments _ ih => exact ih hlegible
  | @lastItem ts e _ ih =>
    obtain ⟨he, -⟩ := List.forall_mem_append.mp hlegible
    exact List.forall_mem_singleton.mpr (ih he fun _ => by decide)
  | item _ _ ih more =>
    obtain ⟨he, hes⟩ := List.forall_mem_append.mp hlegible
    exact List.forall_mem_cons.mpr ⟨ih he fun _ => by decide, more hes⟩
  | lastStep _ ih =>
    obtain ⟨hsub, htargets⟩ := hlegible
    obtain ⟨hpreds, -⟩ := List.forall_mem_append.mp hsub
    obtain ⟨htest, hread⟩ := ih ⟨hpreds, htargets _ List.mem_cons_self⟩
    exact stepsReread_singleton htest hread
  | @joined t between ts us s ss _ ht _ ih more =>
    obtain ⟨hsub, htargets⟩ := hlegible
    obtain ⟨hpreds, hsub⟩ := List.forall_mem_append.mp hsub
    obtain ⟨htarget, htargets⟩ := List.forall_mem_cons.mp htargets
    obtain ⟨htest, hread⟩ := ih ⟨hpreds, htarget⟩
    have hmore := more (legiblePart_of_between ht ⟨hsub, htargets⟩)
    exact stepsReread_cons htest hread (stepsReread_between ht hmore)
  | self | parent => exact ⟨.type rfl, List.forall_mem_nil _⟩
  | tested _ ht _ ih => exact ⟨ht.respelled hlegible.2, ih hlegible.1⟩
  | predicate _ _ ih more =>
    obtain ⟨he, hes⟩ := List.forall_mem_append.mp hlegible
    exact List.forall_mem_cons.mpr ⟨ih he fun _ => by decide, more hes⟩

/-- Each expression in a part is read from tokens of its own. -/
def PartsRead : (k : Part) → k.Tree → Prop
  | .expr _, e => ∀ p ∈ e.parts, ∃ us, Reads (.expr .or) us p
  | .items, es | .arguments, es | .predicates, es => ∀ e ∈ es, ∃ us, Reads (.expr .or) us e
  | .steps, ss => ∀ p ∈ ss.flatMap (·.predicates), ∃ us, Reads (.expr .or) us p
  | .step, s => ∀ p ∈ s.predicates, ∃ us, Reads (.expr .or) us p

theorem partsRead_between {t : Token} {between ss : List (Step Expr)} (ht : stepOp t = some between)
    (h : PartsRead .steps ss) : PartsRead .steps (between ++ ss) := by
  rcases stepOp_eq_some ht with ⟨-, rfl⟩ | ⟨-, rfl⟩ <;> exact h

theorem Reads.partsRead {k : Part} {ts : List Token} {x : k.Tree} (h : Reads k ts x) :
    PartsRead k x := by
  induction h with
  | tighter _ ih => exact ih
  | binary hop left right =>
    have hboth : ∀ p ∈ [_, _], ∃ us, Reads (.expr .or) us p :=
      List.forall_mem_cons.mpr ⟨⟨_, left.loosest⟩, List.forall_mem_singleton.mpr ⟨_, right.loosest⟩⟩
    rcases Level.operator_eq_some hop with ⟨-, rfl⟩ | ⟨op, rfl, -⟩ <;> exact hboth
  | negate h | group h => exact List.forall_mem_singleton.mpr ⟨_, h.loosest⟩
  | root | variableRef | literal | number | noArguments | self | parent | noPredicates =>
    exact List.forall_mem_nil _
  | absolute ht _ ih => exact partsRead_between ht ih
  | relative _ ih => exact ih
  | continued start ht _ _ ih =>
    exact List.forall_mem_cons.mpr ⟨⟨_, start.loosest⟩, partsRead_between ht ih⟩
  | filter h _ _ _ ih => exact List.forall_mem_cons.mpr ⟨⟨_, h.loosest⟩, ih⟩
  | call _ _ ih | sequence _ _ ih | arguments _ ih | tested _ _ _ ih => exact ih
  | lastItem h => exact List.forall_mem_singleton.mpr ⟨_, h⟩
  | item h _ _ ih | predicate h _ _ ih => exact List.forall_mem_cons.mpr ⟨⟨_, h⟩, ih⟩
  | lastStep _ ih =>
    rw [PartsRead, List.flatMap_cons, List.flatMap_nil, List.append_nil]
    exact ih
  | joined _ ht _ ih more =>
    rw [PartsRead, List.flatMap_cons]
    exact List.forall_mem_append.mpr ⟨ih, partsRead_between ht more⟩

theorem Reads.of_mem_subterms {ts : List Token} {e x : Expr} (h : Reads (.expr .or) ts e)
    (hx : x ∈ e.subterms) : ∃ us, Reads (.expr .or) us x := by
  induction e using Expr.partsInduction generalizing ts with
  | h e ih =>
    rcases Expr.mem_subterms.mp hx with rfl | ⟨p, hp, hx⟩
    · exact ⟨ts, h⟩
    · obtain ⟨us, hus⟩ := h.partsRead p hp
      exact ih p hp hus hx

end Grammar

end Schematron.XPath
