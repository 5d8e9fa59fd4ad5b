import Schematron.Proofs.XPath.Rereading

/-!
Tokens that never stand next to each other in a text that can be read, and the expressions whose texts
have such tokens.
-/

namespace Schematron.XPath

namespace Grammar

/-- Rows of tokens that no expression has: a sign behind a bar, predicates on two dots, a slash behind
a double one, and a call as the target of a test. -/
def clashes : List (List Token) := [
  [.pipe, .minus], [.dotDot, .lbracket], [.doubleSlash, .slash], [.doubleSlash, .doubleSlash],
  [.nodeType "processing-instruction", .lparen, .functionName "concat"]]

/-- The tokens that clashes begin with. -/
def leads : Token → Bool
  | .pipe | .dotDot | .doubleSlash | .nodeType _ => true
  | _ => false

/-- The second token may stand behind the first. -/
structure MayFollow (t u : Token) : Prop where
  bar : t = .pipe → u ≠ .minus
  slashes : t = .doubleSlash → stepOp u = none
  dots : t = .dotDot → u ≠ .lbracket

theorem mayFollow_of {t u : Token} (hpipe : t ≠ .pipe) (hslash : t ≠ .doubleSlash)
    (hdots : t = .dotDot → u ≠ .lbracket) : MayFollow t u :=
  ⟨fun h => absurd h hpipe, fun h => absurd h hslash, hdots⟩

/-- Each node type is followed by a complete test. -/
def TestsClosed : List Token → Prop
  | [] => True
  | .nodeType _ :: ts =>
    (∃ us, ts = .lparen :: .rparen :: us ∨ ∃ v, ts = .lparen :: .literal v :: .rparen :: us) ∧
      TestsClosed ts
  | _ :: ts => TestsClosed ts

theorem testsClosed_cons {t : Token} {ts : List Token} (ht : ∀ kind, t ≠ .nodeType kind)
    (h : TestsClosed ts) : TestsClosed (t :: ts) := by
  cases t
  case nodeType kind => exact absurd rfl (ht kind)
  all_goals exact h

theorem TestsClosed.of_cons {t : Token} {ts : List Token} (h : TestsClosed (t :: ts)) :
    TestsClosed ts := by
  cases t
  case nodeType => exact h.2
  all_goals exact h

theorem TestsClosed.of_append {ts us : List Token} (h : TestsClosed (ts ++ us)) : TestsClosed us := by
  induction ts with
  | nil => exact h
  | cons t ts ih => exact ih h.of_cons

theorem TestsClosed.append {ts us : List Token} (h : TestsClosed ts) (h' : TestsClosed us) :
    TestsClosed (ts ++ us) := by
  induction ts with
  | nil => exact h'
  | cons t ts ih =>
    have hmore := ih h.of_cons
    cases t
    case nodeType kind =>
      obtain ⟨⟨vs, hvs⟩, -⟩ := h
      refine ⟨⟨vs ++ us, ?_⟩, hmore⟩
      rcases hvs with rfl | ⟨v, rfl⟩
      · exact .inl rfl
      · exact .inr ⟨v, rfl⟩
    all_goals exact hmore

/-- Tokens without clashes, behind which a part may go on. -/
structure Smooth (ts : List Token) : Prop where
  chain : ts.IsChain MayFollow
  last : ∀ t ∈ ts.getLast?, t ≠ .pipe ∧ t ≠ .doubleSlash
  tests : TestsClosed ts

namespace Smooth

variable {ts us : List Token}

theorem nil : Smooth [] := ⟨.nil, by simp, trivial⟩

theorem append (h : Smooth ts) (h' : Smooth us)
    (hdots : ts.getLast? = some .dotDot → us.head? ≠ some .lbracket) : Smooth (ts ++ us) where
  chain := by
    refine h.chain.append h'.chain fun t ht u hu => ?_
    obtain ⟨hpipe, hslash⟩ := h.last t ht
    refine mayFollow_of hpipe hslash fun heq hbracket => hdots ?_ ?_
    · rw [← heq]
      exact ht
    · rw [← hbracket]
      exact hu
  last := by
    intro t ht
    rw [List.getLast?_append, Option.mem_def] at ht
    cases hus : us.getLast? with
    | none =>
      rw [hus] at ht
      exact h.last t ht
    | some u =>
      rw [hus] at ht
      exact h'.last t (hus.trans ht)
  tests := h.tests.append h'.tests

/-- A token in front of others, at which something begins that may stand behind it. -/
theorem cons {t : Token} (htest : ∀ kind, t ≠ .nodeType kind) (h : Smooth us) (hsome : us ≠ [])
    (hfirst : ∀ u ∈ us.head?, MayFollow t u) : Smooth (t :: us) where
  chain := h.chain.cons hfirst
  last := by
    intro u hu
    rw [List.getLast?_cons_of_ne_nil hsome] at hu
    exact h.last u hu
  tests := testsClosed_cons htest h.tests

/-- A token that anything may stand behind. -/
theorem behind {t : Token} (ht : leads t = false) (h : Smooth us) : Smooth (t :: us) := by
  obtain ⟨hpipe, hslash, hdots⟩ : t ≠ .pipe ∧ t ≠ .doubleSlash ∧ t ≠ .dotDot := by
    refine ⟨?_, ?_, ?_⟩ <;> rintro rfl <;> cases ht
  have htest : ∀ kind, t ≠ .nodeType kind := by
    rintro kind rfl
    cases ht
  refine ⟨h.chain.cons fun u _ => mayFollow_of hpipe hslash fun heq => absurd heq hdots, ?_,
    testsClosed_cons htest h.tests⟩
  intro u hu
  cases us with
  | nil =>
    cases hu
    exact ⟨hpipe, hslash⟩
  | cons => exact h.last u (by rwa [List.getLast?_cons_cons] at hu)

theorem token {t : Token} (ht : leads t = false) : Smooth [t] := nil.behind ht

theorem rparen (h : Smooth ts) : Smooth (ts ++ [.rparen]) :=
  h.append (token rfl) fun _ => by simp

/-- Tokens between parentheses. -/
theorem enclosed (h : Smooth ts) : Smooth (.lparen :: (ts ++ [.rparen])) :=
  h.rparen.behind rfl

end Smooth

/-- A part has no clashes, and an expression that predicates may follow does not end in two dots. -/
def SmoothPart : Part → List Token → Prop
  | .expr l, ts => Smooth ts ∧ (l = .primary → ts.getLast? ≠ some .dotDot)
  | _, ts => Smooth ts

theorem AxisReads.smooth {ts : List Token} {a : Axis} (h : AxisReads ts a) :
    Smooth ts ∧ ts.getLast? ≠ some .dotDot := by
  cases h with
  | none => exact ⟨.nil, by simp⟩
  | atSign => exact ⟨.token rfl, by simp⟩
  | named =>
    exact ⟨(Smooth.token rfl).behind rfl, by simp⟩

theorem TestReads.smooth {ts : List Token} {test : NodeTest} (h : TestReads ts test) :
    Smooth ts ∧ ts.getLast? ≠ some .dotDot := by
  have hchain : ∀ {t u : Token}, t ≠ .pipe → t ≠ .doubleSlash → t ≠ .dotDot → MayFollow t u :=
    fun hpipe hslash hdots => mayFollow_of hpipe hslash fun heq => absurd heq hdots
  cases h with
  | name n => exact ⟨.token rfl, by simp⟩
  | type | instruction =>
    exact ⟨⟨by simp [hchain], by simp, ⟨_, .inl rfl⟩, trivial⟩, by simp⟩
  | target _ value =>
    exact ⟨⟨by simp [hchain], by simp, ⟨_, .inr ⟨value, rfl⟩⟩, trivial⟩, by simp⟩

/-- The first token of an expression stands behind no dots as a bracket would. -/
theorem Level.Opens.mayFollow {l : Level} {t u : Token} (h : l.Opens u)
    (hpipe : t = .pipe → Level.unary.rank < l.rank) (hslash : t ≠ .doubleSlash) : MayFollow t u := by
  refine ⟨fun ht hu => ?_, fun ht => absurd ht hslash, fun _ hu => ?_⟩
  · subst hu
    rcases h with h | ⟨-, h | h⟩ | ⟨hl, -⟩
    · cases h
    · cases h
    · cases h
    · exact absurd hl (Nat.not_le.mpr (hpipe ht))
  · subst hu
    rcases h with h | ⟨-, h | h⟩ | ⟨-, h⟩ <;> cases h

/-- Steps begin with no slash. -/
theorem Reads.smooth_slash {t : Token} {between : List (Step Expr)} (ht : stepOp t = some between)
    {ts : List Token} {ss : List (Step Expr)} (h : Reads .steps ts ss) (hsmooth : Smooth ts) :
    Smooth (t :: ts) := by
  obtain ⟨u, us, rfl, hopens⟩ := h.opens rfl
  have hop : stepOp u = none ∧ u ≠ .lbracket := by
    cases u <;> first | cases hopens; done | exact ⟨rfl, by simp⟩
  refine hsmooth.cons ?_ (by simp) ?_
  · rintro kind rfl
    cases ht
  · intro v hv
    cases hv
    refine ⟨?_, fun _ => hop.1, fun _ => hop.2⟩
    rintro rfl
    cases ht

theorem stepOp_ne_lbracket {t : Token} {between : List (Step Expr)} (ht : stepOp t = some between) :
    t ≠ .lbracket := by
  rintro rfl
  cases ht

theorem Reads.smoothPart {k : Part} {ts : List Token} {x : k.Tree} (h : Reads k ts x) :
    SmoothPart k ts := by
  induction h with
  | tighter _ ih =>
    refine ⟨ih.1, fun hl => ih.2 ?_⟩
    subst hl
    rfl
  | @binary l t join ts us a b hop _ right ihl ihr =>
    obtain ⟨u, vs, rfl, hopens⟩ := right.opens rfl
    have hl : l ≠ .primary ∧ (t = .pipe → Level.unary.rank < l.next.rank) ∧ t ≠ .doubleSlash ∧
        t ≠ .lbracket ∧ ∀ kind, t ≠ .nodeType kind := by
      cases l <;> cases t <;> first | cases hop; done | simp [Level.next, Level.rank]
    obtain ⟨hprimary, hpipe, hslash, hbracket, htest⟩ := hl
    have hright : Smooth (t :: u :: vs) := by
      refine ihr.1.cons htest (by simp) fun v hv => ?_
      cases hv
      exact hopens.mayFollow hpipe hslash
    exact ⟨ihl.1.append hright fun _ => by simpa using hbracket, fun heq => absurd heq hprimary⟩
  | negate _ ih => exact ⟨ih.1.behind rfl, by simp⟩
  | root => exact ⟨.token rfl, by simp⟩
  | absolute ht h ih => exact ⟨h.smooth_slash ht ih, by simp⟩
  | relative _ ih => exact ⟨ih, by simp⟩
  | continued _ ht h start ih =>
    exact ⟨start.1.append (h.smooth_slash ht ih) fun _ => by simpa using stepOp_ne_lbracket ht, by simp⟩
  | filter _ _ _ ih hp => exact ⟨ih.1.append hp fun hdots => absurd hdots (ih.2 rfl), by simp⟩
  | variableRef | literal | number => exact ⟨.token rfl, by simp⟩
  | call _ _ ih =>
    refine ⟨ih.enclosed.behind rfl, fun _ => ?_⟩
    rw [← List.cons_append, ← List.cons_append, List.getLast?_concat]
    simp
  | group _ ih =>
    refine ⟨ih.1.enclosed, fun _ => ?_⟩
    rw [← List.cons_append, List.getLast?_concat]
    simp
  | sequence _ _ ih =>
    refine ⟨ih.enclosed, fun _ => ?_⟩
    rw [← List.cons_append, List.getLast?_concat]
    simp
  | noArguments | noPredicates => exact .nil
  | arguments _ ih | lastStep _ ih => exact ih
  | lastItem _ ih => exact ih.1
  | item _ _ ih more =>
    exact ih.1.append (more.behind rfl) fun _ => by simp
  | joined _ ht h ih more =>
    exact ih.append (h.smooth_slash ht more) fun _ => by simpa using stepOp_ne_lbracket ht
  | self => exact .token rfl
  | parent => exact ⟨.singleton _, by simp, trivial⟩
  | tested ha ht _ ih =>
    obtain ⟨hsa, hla⟩ := ha.smooth
    obtain ⟨hst, hlt⟩ := ht.smooth
    exact hsa.append (hst.append ih fun hdots => absurd hdots hlt) fun hdots => absurd hdots hla
  | predicate _ _ ih more =>
    exact (ih.1.append (more.behind rfl) fun _ => by simp).behind rfl

theorem Reads.no_clash {k : Part} {ts : List Token} {x : k.Tree} (h : Reads k ts x) :
    ∀ w ∈ clashes, ¬ w <:+: ts := by
  have hsmooth : Smooth ts := by
    have hpart := h.smoothPart
    cases k
    case expr => exact hpart.1
    all_goals exact hpart
  have hpair : ∀ t u, [t, u] <:+: ts → MayFollow t u := fun t u hpart =>
    List.isChain_pair.mp <| List.IsChain.infix hsmooth.chain hpart
  intro w hw hpart
  simp only [clashes, List.mem_cons, List.not_mem_nil, or_false] at hw
  rcases hw with rfl | rfl | rfl | rfl | rfl
  · exact (hpair _ _ hpart).bar rfl rfl
  · exact (hpair _ _ hpart).dots rfl rfl
  · cases (hpair _ _ hpart).slashes rfl
  · cases (hpair _ _ hpart).slashes rfl
  · obtain ⟨before, after, heq⟩ := hpart
    have htests := hsmooth.tests
    rw [← heq, List.append_assoc] at htests
    obtain ⟨⟨us, hus | ⟨v, hus⟩⟩, -⟩ := htests.of_append <;> cases hus

theorem infix_append_left {w ts : List Token} (h : w <:+: ts) (us : List Token) : w <:+: ts ++ us :=
  h.trans (List.prefix_append ts us).isInfix

theorem infix_append_right {w us : List Token} (h : w <:+: us) (ts : List Token) : w <:+: ts ++ us :=
  h.trans (List.suffix_append ts us).isInfix

theorem infix_cons {w ts : List Token} (h : w <:+: ts) (t : Token) : w <:+: t :: ts :=
  infix_append_right h [t]

theorem infix_spellMore {sep : Token} {e : Expr} {es : List Expr} (h : e ∈ es) :
    sep :: spell e <:+: spellMore sep es := by
  induction es with
  | nil => cases h
  | cons f es ih =>
    rcases List.mem_cons.mp h with rfl | h
    · exact ⟨[], spellMore sep es, by simp [spellMore]⟩
    · exact infix_cons (infix_append_right (ih h) _) sep

theorem infix_spellAll {sep : Token} {e : Expr} {es : List Expr} (h : e ∈ es) :
    spell e <:+: spellAll sep es := by
  cases es with
  | nil => cases h
  | cons f es =>
    rcases List.mem_cons.mp h with rfl | h
    · exact infix_append_left (List.infix_refl _) _
    · exact infix_append_right ((List.suffix_cons sep _).isInfix.trans (infix_spellMore h)) _

theorem infix_spellPredicates {e : Expr} {es : List Expr} (h : e ∈ es) :
    spell e <:+: spellPredicates es := by
  induction es with
  | nil => cases h
  | cons f es ih =>
    rcases List.mem_cons.mp h with rfl | h
    · exact infix_cons (infix_append_left (List.infix_refl _) _) _
    · exact infix_cons (infix_append_right (infix_cons (ih h) _) _) _

/-- A step that is written out is somewhere in the text of the path. -/
theorem infix_spellSteps {w : List Token} {s : Step Expr} {ss : List (Step Expr)} (hs : s ∈ ss)
    (hwritten : s.isDescendantOrSelf = false) (h : w <:+: spellStep s) (n : Nat) :
    w <:+: spellSteps n ss := by
  induction ss generalizing n with
  | nil => cases hs
  | cons t ss ih =>
    by_cases hsome : ss = []
    · subst hsome
      obtain rfl := List.mem_singleton.mp hs
      rw [spellSteps_singleton]
      exact infix_append_right h _
    by_cases hfold : n = 0 ∨ t.isDescendantOrSelf = false
    · rw [spellSteps_written hfold hsome]
      rcases List.mem_cons.mp hs with rfl | hs
      · exact infix_append_right (infix_append_left h _) _
      · exact infix_append_right (infix_append_right (ih hs 1) _) _
    · obtain ⟨hn, ht⟩ := not_or.mp hfold
      rw [spellSteps_folded (Nat.pos_of_ne_zero hn) (by simpa using ht) hsome]
      rcases List.mem_cons.mp hs with rfl | hs
      · exact absurd hwritten ht
      · exact ih hs (n + 1)

theorem infix_spellSteps_predicate {p : Expr} {ss : List (Step Expr)}
    (h : p ∈ ss.flatMap (·.predicates)) (n : Nat) : spell p <:+: spellSteps n ss := by
  obtain ⟨s, hs, hp⟩ := List.mem_flatMap.mp h
  refine infix_spellSteps hs ?_ (infix_append_right (infix_spellPredicates hp) _) n
  cases hgap : s.isDescendantOrSelf with
  | false => rfl
  | true =>
    rw [eq_descendantOrSelf hgap] at hp
    cases hp

theorem infix_spell_of_mem_parts {p e : Expr} (h : p ∈ e.parts) : spell p <:+: spell e := by
  cases e
  case literal | number | variableRef => cases h
  case call name args => exact infix_cons (infix_cons (infix_append_left (infix_spellAll h) _) _) _
  case negate a =>
    obtain rfl := List.mem_singleton.mp h
    exact infix_cons (List.infix_refl _) _
  case group a =>
    obtain rfl := List.mem_singleton.mp h
    exact infix_cons (infix_append_left (List.infix_refl _) _) _
  case binary op a b =>
    rcases List.mem_cons.mp h with rfl | h
    · exact infix_append_left (List.infix_refl _) _
    · obtain rfl := List.mem_singleton.mp h
      exact infix_append_right (infix_cons (List.infix_refl _) _) _
  case union a b =>
    rcases List.mem_cons.mp h with rfl | h
    · exact infix_append_left (List.infix_refl _) _
    · obtain rfl := List.mem_singleton.mp h
      exact infix_append_right (infix_cons (List.infix_refl _) _) _
  case sequence items =>
    cases items with
    | nil => cases h
    | cons e es =>
      have hall : spell p <:+: spell e ++ spellMore .pipe es ++ [.rparen] :=
        infix_append_left (infix_spellAll h) _
      rw [List.append_assoc] at hall
      exact infix_cons hall _
  case filter a preds =>
    rcases List.mem_cons.mp h with rfl | h
    · exact infix_append_left (List.infix_refl _) _
    · exact infix_append_right (infix_spellPredicates h) _
  case absolute steps => exact infix_spellSteps_predicate h 1
  case relative steps => exact infix_spellSteps_predicate h 0
  case continued a steps =>
    rcases List.mem_cons.mp h with rfl | h
    · exact infix_append_left (List.infix_refl _) _
    · exact infix_append_right (infix_spellSteps_predicate h 1) _

theorem infix_spell_of_mem_subterms {x e : Expr} (h : x ∈ e.subterms) : spell x <:+: spell e := by
  induction e using Expr.partsInduction with
  | h e ih =>
    rcases Expr.mem_subterms.mp h with rfl | ⟨p, hp, hx⟩
    · exact List.infix_refl _
    · exact (ih p hp hx).trans (infix_spell_of_mem_parts hp)

/-- Somewhere in the tokens there is a clash. -/
def Clashing (ts : List Token) : Prop := ∃ w ∈ clashes, w <:+: ts

theorem Clashing.of_part {ts us : List Token} (h : Clashing ts) (hpart : ts <:+: us) : Clashing us := by
  obtain ⟨w, hw, hts⟩ := h
  exact ⟨w, hw, hts.trans hpart⟩

theorem clashing_slashes {n : Nat} (h : 3 ≤ n) : Clashing (slashes n) := by
  match n with
  | 0 | 1 | 2 => simp at h
  | 3 => exact ⟨[.doubleSlash, .slash], by decide, List.infix_refl _⟩
  | n + 4 => exact ⟨[.doubleSlash, .doubleSlash], by decide, (List.prefix_append _ _).isInfix⟩

theorem clashing_spellSteps {n : Nat} (h : 3 ≤ n) (ss : List (Step Expr)) : Clashing (spellSteps n ss) := by
  induction ss generalizing n with
  | nil => exact clashing_slashes h
  | cons s ss ih =>
    by_cases hsome : ss = []
    · subst hsome
      rw [spellSteps_singleton]
      exact (clashing_slashes h).of_part (List.prefix_append _ _).isInfix
    cases hs : s.isDescendantOrSelf with
    | false =>
      rw [spellSteps_written (.inr hs) hsome]
      exact (clashing_slashes h).of_part (List.prefix_append _ _).isInfix
    | true =>
      rw [spellSteps_folded (by omega) hs hsome]
      exact ih (by omega)

/-- Two gaps next to each other leave three slashes. -/
theorem clashing_of_gaps {ss : List (Step Expr)}
    (h : ¬ss.dropLast.IsChain fun s t => ¬GapAfterGap s t) {n : Nat} (hn : 0 < n) :
    Clashing (spellSteps n ss) := by
  induction ss generalizing n with
  | nil => exact absurd .nil h
  | cons s ss ih =>
    by_cases hsome : ss = []
    · subst hsome
      exact absurd .nil h
    rw [List.dropLast_cons_of_ne_nil hsome, List.isChain_cons, not_and_or] at h
    rcases h with h | h
    · match ss with
      | [t] => exact absurd (by simp) h
      | t :: u :: more =>
        obtain ⟨hs, ht⟩ : GapAfterGap s t := by
          by_contra hgap
          exact h fun v hv => by
            cases hv
            exact hgap
        rw [spellSteps_folded hn hs (by simp), spellSteps_folded (by omega) ht (by simp)]
        exact clashing_spellSteps (by omega) _
    · cases hs : s.isDescendantOrSelf with
      | false =>
        rw [spellSteps_written (.inr hs) hsome]
        exact (ih h Nat.one_pos).of_part (infix_append_right (infix_append_right (List.infix_refl _) _) _)
      | true =>
        rw [spellSteps_folded hn hs hsome]
        exact ih h (Nat.succ_pos n)

theorem clashing_of_target {s : Step Expr} {ss : List (Step Expr)} (hs : s ∈ ss) {v : String}
    (hv : s.test.target? = some v) (hquotes : HasBothQuotes v) (n : Nat) : Clashing (spellSteps n ss) := by
  obtain ⟨axis, test, preds⟩ := s
  cases test
  case instruction target =>
    obtain rfl : target = some v := hv
    have htest : [.nodeType "processing-instruction", .lparen, .functionName "concat"] <:+:
        (NodeTest.instruction (some v)).tokens := by
      have hspell : spellLiteral v =
          .functionName "concat" :: .lparen :: (spellPieces (Text.pieces '\'' v) ++ [.rparen]) := by
        unfold spellLiteral
        rw [if_neg (by simp [hquotes.1, hquotes.2])]
      refine ⟨[], .lparen :: (spellPieces (Text.pieces '\'' v) ++ [.rparen]) ++ [.rparen], ?_⟩
      rw [NodeTest.tokens, hspell]
      rfl
    have hhead : ∀ bare, (NodeTest.instruction (some v)).tokens <:+:
        spellHead axis (.instruction (some v)) bare := by
      intro bare
      cases axis
      case child => exact List.infix_refl _
      case attributes => exact infix_cons (List.infix_refl _) _
      all_goals exact infix_cons (infix_cons (List.infix_refl _) _) _
    refine ⟨_, by decide, infix_spellSteps hs ?_ (infix_append_left (htest.trans (hhead _)) _) n⟩
    simp [Step.isDescendantOrSelf]
  all_goals cases hv

theorem startsMinus_spell {e : Expr} (h : e.startsMinus = true) : ∃ us, spell e = .minus :: us := by
  fun_induction Expr.startsMinus e with
  | case1 a => exact ⟨_, rfl⟩
  | case2 op a b ih =>
    obtain ⟨us, hus⟩ := ih h
    exact ⟨_, by rw [spell, hus]; rfl⟩
  | case3 a b ih =>
    obtain ⟨us, hus⟩ := ih h
    exact ⟨_, by rw [spell, hus]; rfl⟩
  | case4 => cases h

theorem clashing_of_sign {e x : Expr} (hx : x ∈ e.items.tail) (h : x.startsMinus = true) :
    Clashing (spell e) := by
  obtain ⟨us, hus⟩ := startsMinus_spell h
  cases e
  case sequence items =>
    cases items with
    | nil => cases hx
    | cons f fs =>
      have hbar : Token.pipe :: .minus :: us <:+: spellMore .pipe fs := hus ▸ infix_spellMore hx
      have hsign : [.pipe, .minus] <:+: spellMore .pipe fs :=
        List.IsInfix.trans (List.prefix_append [Token.pipe, .minus] us).isInfix hbar
      exact ⟨_, by decide, infix_cons (infix_append_right (infix_append_left hsign _) _) _⟩
  all_goals cases hx

theorem legible_of_not_clashing {e : Expr} (h : ¬Clashing (spell e)) : e.Legible where
  targets := by
    intro s hs v hv hquotes
    refine h ?_
    cases e
    case absolute steps => exact clashing_of_target hs hv hquotes 1
    case relative steps => exact clashing_of_target hs hv hquotes 0
    case continued a steps =>
      exact (clashing_of_target hs hv hquotes 1).of_part (List.suffix_append _ _).isInfix
    all_goals cases hs
  gaps := by
    by_contra hgaps
    refine h ?_
    cases e
    case absolute steps => exact clashing_of_gaps hgaps Nat.one_pos
    case relative steps =>
      cases steps with
      | nil => exact absurd .nil hgaps
      | cons s ss =>
        by_cases hsome : ss = []
        · subst hsome
          exact absurd .nil hgaps
        rw [Expr.innerSteps, List.dropLast_cons_of_ne_nil hsome] at hgaps
        rw [spell, spellSteps_written (.inl rfl) hsome]
        exact (clashing_of_gaps hgaps Nat.one_pos).of_part (List.suffix_append _ _).isInfix
    case continued a steps =>
      exact (clashing_of_gaps hgaps Nat.one_pos).of_part (List.suffix_append _ _).isInfix
    all_goals exact absurd .nil hgaps
  filtered := by
    cases hfilter : e.filtersNothing with
    | false => rfl
    | true =>
      unfold Expr.filtersNothing at hfilter
      split at hfilter
      · rename_i p preds
        exact absurd ⟨[.dotDot, .lbracket], by decide, ⟨[.slash], _, rfl⟩⟩ h
      · cases hfilter
  signs := by
    intro x hx
    by_contra hsign
    exact h (clashing_of_sign hx (Bool.not_eq_false _ ▸ hsign))

/-- An expression whose text can be read at all is legible. -/
theorem legible_of_reads_spell {e x : Expr} {k : Part} {t : k.Tree} (h : Reads k (spell e) t)
    (hx : x ∈ e.subterms) : x.Legible := by
  refine legible_of_not_clashing ?_
  intro hclash
  obtain ⟨w, hw, hpart⟩ := hclash.of_part (infix_spell_of_mem_subterms hx)
  exact h.no_clash w hw hpart

end Grammar

end Schematron.XPath
