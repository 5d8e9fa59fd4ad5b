import Schematron.Proofs.XPath.RoundTrip
import Schematron.Query.Language

/-!
What the text of an anchored context tells of it.
-/

namespace Schematron.XPath

open Schematron.XPath.Expr (compared comparedAll comparedSteps)

theorem anchorAll_eq_map (es : List Expr) : anchorAll es = es.map anchor := by
  induction es with
  | nil => rfl
  | cons e es ih => rw [anchorAll, ih, List.map_cons]

namespace Grammar

variable (rule : QuoteRule) (comparisons : Bool)

/-- The text of a part, with its relative paths anchored, has the tokens of it. -/
def AnchoredPart : (k : Part) → k.Tree → Prop
  | .expr _, e => Written rule comparisons (anchor e)
  | .items, es => WrittenItems rule comparisons (anchorAll es)
  | .arguments, es => es = [] ∨ WrittenItems rule comparisons (anchorAll es)
  | _, _ => True

theorem Reads.anchored {k : Part} {ts : List Token} {x : k.Tree} (h : Reads k ts x) (hfit : Fit ts) :
    AnchoredPart rule comparisons k x := by
  have hself := h.written rule comparisons hfit
  induction h with
  | tighter h ih => exact ih hfit (h.written rule comparisons hfit)
  | @binary l t join ts us a b op left right ha hb =>
    obtain ⟨hts, hus⟩ := hfit.of_append
    rcases Level.join_eq op with ⟨-, rfl⟩ | ⟨o, rfl, -⟩
    · exact written_union (ha hts (left.written rule comparisons hts))
        (hb hus.of_cons.2 (right.written rule comparisons hus.of_cons.2))
    · exact hself
  | @relative ts ss h =>
    have hsteps : WrittenSteps rule comparisons ss := h.written rule comparisons hfit
    exact written_absolute (writtenSteps_cons trivial writtenPredicates_nil hsteps)
  | group h ih =>
    have hinside := hfit.of_cons.2.of_append.1
    exact written_group (ih hinside (h.written rule comparisons hinside))
  | sequence h _ ih =>
    have hinside := hfit.of_cons.2.of_append.1
    rcases ih hinside (h.written rule comparisons hinside) with rfl | hitems
    · exact written_emptySequence
    · exact hitems.sequence
  | noArguments => exact .inl rfl
  | arguments h ih => exact .inr (ih hfit (h.written rule comparisons hfit))
  | lastItem h ih => exact writtenItems_singleton (ih hfit (h.written rule comparisons hfit))
  | item h hmore ih more =>
    obtain ⟨hts, hus⟩ := hfit.of_append
    exact writtenItems_cons (ih hts (h.written rule comparisons hts))
      (more hus.of_cons.2 (hmore.written rule comparisons hus.of_cons.2))
  | negate | root | absolute | continued | filter | variableRef | literal | number | call => exact hself
  | lastStep | joined | self | parent | tested | noPredicates | predicate => trivial

end Grammar

theorem lexes_anchor {rule : QuoteRule} {source : String} {p : Parsed} (h : parse source = .ok p)
    (comparisons : Bool) :
    Lexes rule true (emit comparisons (anchor p.expr)).toList (spell (compared comparisons (anchor p.expr))) := by
  obtain ⟨ts, hlex, hreads⟩ := reads_of_parse h
  have hwritten : Written rule comparisons (anchor p.expr) := hreads.anchored rule comparisons hlex.fits.1
  have hall := hwritten [] [] apart_nil (by simp) (.done rfl)
  rwa [List.append_nil, List.append_nil] at hall

namespace Grammar

/-- A part can be read with its relative paths anchored. -/
def AnchorPart : (k : Part) → k.Tree → Prop
  | .expr l, e => ∃ us, Reads (.expr l) us (anchor e)
  | .items, es => ∃ us, Reads .items us (anchorAll es)
  | .arguments, es => ∃ us, Reads .arguments us (anchorAll es)
  | _, _ => True

theorem Reads.anchor {k : Part} {ts : List Token} {x : k.Tree} (h : Reads k ts x) : AnchorPart k x := by
  induction h with
  | tighter _ ih =>
    obtain ⟨us, h⟩ := ih
    exact ⟨us, .tighter h⟩
  | binary hop left right ha hb =>
    rcases Level.join_eq hop with ⟨rfl, rfl⟩ | ⟨op, rfl, -⟩
    · obtain ⟨us, ha⟩ := ha
      obtain ⟨vs, hb⟩ := hb
      exact ⟨_, .binary (t := .pipe) rfl ha hb⟩
    · exact ⟨_, .binary hop left right⟩
  | negate h => exact ⟨_, .negate h⟩
  | root => exact ⟨_, .root⟩
  | absolute ht h => exact ⟨_, .absolute ht h⟩
  | relative h => exact ⟨_, .absolute (t := .doubleSlash) rfl h⟩
  | continued start ht h => exact ⟨_, .continued start ht h⟩
  | filter h some hp => exact ⟨_, .filter h some hp⟩
  | variableRef name => exact ⟨_, .variableRef name⟩
  | literal value => exact ⟨_, .literal value⟩
  | number spelling => exact ⟨_, .number spelling⟩
  | call name h => exact ⟨_, .call name h⟩
  | group _ ih =>
    obtain ⟨us, h⟩ := ih
    exact ⟨_, .group h⟩
  | sequence _ many ih =>
    obtain ⟨us, h⟩ := ih
    exact ⟨_, .sequence h (by rwa [anchorAll_eq_map, List.length_map])⟩
  | noArguments => exact ⟨_, .noArguments⟩
  | arguments _ ih =>
    obtain ⟨us, h⟩ := ih
    exact ⟨us, .arguments h⟩
  | lastItem _ ih =>
    obtain ⟨us, h⟩ := ih
    exact ⟨us, .lastItem h⟩
  | item _ _ ih more =>
    obtain ⟨us, h⟩ := ih
    obtain ⟨vs, hs⟩ := more
    exact ⟨_, .item h hs⟩
  | lastStep | joined | self | parent | tested | noPredicates | predicate => trivial

end Grammar

/-- A function is called without arguments somewhere in the tokens. -/
def callsBare (name : String) : List Token → Bool
  | [] => false
  | t :: ts => (t == .functionName name && ts.take 2 == [.lparen, .rparen]) || callsBare name ts

/-- Tokens that no call goes on behind. -/
def Closed (ts : List Token) : Prop := ∀ t ∈ ts.getLast?, t ≠ .lparen ∧ ∀ name, t ≠ .functionName name

theorem callsBare_cons (name : String) (t : Token) (ts : List Token) :
    callsBare name (t :: ts)
      = ((t == .functionName name && ts.take 2 == [.lparen, .rparen]) || callsBare name ts) := rfl

theorem callsBare_append {name : String} {ts us : List Token} (h : Closed ts) :
    callsBare name (ts ++ us) = (callsBare name ts || callsBare name us) := by
  induction ts with
  | nil => rfl
  | cons t ts ih =>
    cases ts with
    | nil =>
      have ht : (t == Token.functionName name) = false := beq_eq_false_iff_ne.mpr ((h t rfl).2 name)
      simp [callsBare_cons, callsBare, ht]
    | cons u ts =>
      have htail : Closed (u :: ts) := by
        intro v hv
        exact h v (by rwa [List.getLast?_cons_cons])
      rw [List.cons_append, callsBare_cons, ih htail, callsBare_cons name t (u :: ts), ← Bool.or_assoc]
      cases ts with
      | nil =>
        -- the last token opens no call, so what follows closes none
        have hu : (u == Token.lparen) = false := beq_eq_false_iff_ne.mpr (h u rfl).1
        simp [hu]
      | cons => simp

/-- Tokens of one piece: they end in no beginning of a call, and hold a call without arguments or
none. -/
structure Holds (name : String) (ts : List Token) (found : Bool) : Prop where
  closed : Closed ts
  calls : callsBare name ts = found

namespace Holds

variable {name : String} {ts us : List Token} {a b : Bool}

theorem append (h : Holds name ts a) (h' : Holds name us b) : Holds name (ts ++ us) (a || b) where
  closed := by
    intro t ht
    rw [List.getLast?_append, Option.mem_def] at ht
    cases hus : us.getLast? with
    | none =>
      rw [hus] at ht
      exact h.closed t ht
    | some u =>
      rw [hus] at ht
      exact h'.closed t (hus.trans ht)
  calls := by rw [callsBare_append h.closed, h.calls, h'.calls]

theorem nil : Holds name [] false where
  closed := by
    intro t ht
    cases ht
  calls := rfl

/-- A token that neither calls nor opens a call. -/
theorem token {t : Token} (hopen : t ≠ .lparen) (hname : ∀ n, t ≠ .functionName n) :
    Holds name [t] false where
  closed := by
    intro u heq
    cases heq
    exact ⟨hopen, hname⟩
  calls := by
    have ht : (t == Token.functionName name) = false := beq_eq_false_iff_ne.mpr (hname name)
    simp [callsBare, ht]

theorem cons {t : Token} (hopen : t ≠ .lparen) (hname : ∀ n, t ≠ .functionName n)
    (h : Holds name ts a) : Holds name (t :: ts) a := by
  have hsingle : Holds name [t] false := token hopen hname
  have happend := hsingle.append h
  rwa [Bool.false_or] at happend

/-- An open parenthesis that is closed behind what it encloses. -/
theorem lparen (h : Holds name ts a) : Holds name (.lparen :: (ts ++ [.rparen])) a where
  closed := by
    intro t ht
    rw [← List.cons_append, List.getLast?_concat] at ht
    cases ht
    exact ⟨by simp, by simp⟩
  calls := by
    have hclose : Holds name [.rparen] false := token (by simp) (by simp)
    have hall := h.append hclose
    rw [Bool.or_false] at hall
    rw [callsBare_cons, hall.calls]
    rfl

end Holds

/-- Tokens that are there, and that an open parenthesis may stand before. -/
structure Opened (name : String) (ts : List Token) (found : Bool) : Prop extends Holds name ts found where
  opens : ∃ t us, ts = t :: us ∧ t ≠ .rparen

namespace Opened

variable {name : String} {ts us : List Token} {a b : Bool}

theorem append (h : Opened name ts a) (h' : Holds name us b) : Opened name (ts ++ us) (a || b) := by
  obtain ⟨t, vs, rfl, ht⟩ := h.opens
  exact ⟨h.toHolds.append h', t, vs ++ us, rfl, ht⟩

theorem token {t : Token} (hopen : t ≠ .lparen) (hclose : t ≠ .rparen) (hname : ∀ n, t ≠ .functionName n) :
    Opened name [t] false :=
  ⟨.token hopen hname, t, [], rfl, hclose⟩

theorem lparen (h : Holds name ts a) : Opened name (.lparen :: (ts ++ [.rparen])) a :=
  ⟨h.lparen, _, _, rfl, by simp⟩

theorem emptyCall (n : String) : Opened name [.functionName n, .lparen, .rparen] (n == name) where
  closed := by
    intro t heq
    cases heq
    exact ⟨by simp, by simp⟩
  calls := by simp [callsBare]
  opens := ⟨_, _, rfl, by simp⟩

theorem call (n : String) (h : Opened name ts a) :
    Opened name (.functionName n :: .lparen :: (ts ++ [.rparen])) a where
  closed := by
    intro t ht
    rw [List.getLast?_cons_cons] at ht
    exact h.toHolds.lparen.closed t ht
  calls := by
    obtain ⟨t, us, rfl, ht⟩ := h.opens
    have hne : (t == Token.rparen) = false := beq_eq_false_iff_ne.mpr ht
    rw [callsBare_cons, h.toHolds.lparen.calls]
    simp [hne]
  opens := ⟨_, _, rfl, by simp⟩

end Opened

section

variable (name : String)

theorem holds_spellPieces (ps : List String) : Holds name (spellPieces ps) false := by
  fun_induction spellPieces ps with
  | case1 => exact .nil
  | case2 p => exact .token (by simp) (by simp)
  | case3 p q more ih =>
    exact .cons (by simp) (by simp) (.cons (by simp) (by simp) (.cons (by simp) (by simp)
      (.cons (by simp) (by simp) ih)))

theorem opened_spellLiteral (value : String) : Opened name (spellLiteral value) false := by
  unfold spellLiteral
  split
  · exact .token (by simp) (by simp) (by simp)
  · refine .call "concat" ⟨holds_spellPieces name _, ?_⟩
    have hne : Text.pieces '\'' value ≠ [] := Text.pieces_ne_nil _ _
    rcases hps : Text.pieces '\'' value with _ | ⟨p, _ | ⟨q, more⟩⟩
    · exact absurd hps hne
    · exact ⟨_, _, rfl, by simp⟩
    · exact ⟨_, _, rfl, by simp⟩

theorem opened_tokens (test : NodeTest) : Opened name test.tokens false := by
  have htype : ∀ kind, Opened name [.nodeType kind, .lparen, .rparen] false := fun kind =>
    (Opened.token (by simp) (by simp) (by simp)).append (Opened.lparen .nil).toHolds
  cases test
  case wildcard => exact .token (by simp) (by simp) (by simp)
  case wildcardIn => exact .token (by simp) (by simp) (by simp)
  case name => exact .token (by simp) (by simp) (by simp)
  case instruction target =>
    cases target with
    | none => exact htype _
    | some value =>
      exact (Opened.token (by simp) (by simp) (by simp)).append
        (Opened.lparen (opened_spellLiteral name value).toHolds).toHolds
  all_goals exact htype _

theorem opened_spellHead (a : Axis) (test : NodeTest) (bare : Bool) :
    Opened name (spellHead a test bare) false := by
  have htest := opened_tokens name test
  have hnamed : ∀ n, Opened name (.axisName n :: .colonColon :: test.tokens) false := fun n =>
    (Opened.token (by simp) (by simp) (by simp)).append (.cons (by simp) (by simp) htest.toHolds)
  have hdot : Opened name [.dot] false := .token (by simp) (by simp) (by simp)
  have hdots : Opened name [.dotDot] false := .token (by simp) (by simp) (by simp)
  unfold spellHead
  split
  · split
    · exact hdot
    · exact hnamed _
  · split
    · exact hdots
    · exact hnamed _
  · exact htest
  · exact (Opened.token (by simp) (by simp) (by simp)).append htest.toHolds
  · exact hnamed _

theorem holds_slashes (n : Nat) : Holds name (slashes n) false := by
  fun_induction slashes n with
  | case1 => exact .nil
  | case2 => exact .token (by simp) (by simp)
  | case3 n ih => exact .cons (by simp) (by simp) ih

variable (comparisons : Bool)

/-- The tokens of an expression hold a call without arguments where the expression does. -/
def Held (e : Expr) : Prop := Opened name (spell (compared comparisons e)) (e.calls name 0)

def HeldItems (es : List Expr) : Prop :=
  ∀ sep, sep = .comma ∨ sep = .pipe →
    Opened name (spellAll sep (comparedAll comparisons es))
      ((Expr.subtermsAll es).any (Expr.isCall name 0))

def HeldPredicates (es : List Expr) : Prop :=
  Holds name (spellPredicates (comparedAll comparisons es))
    ((Expr.subtermsAll es).any (Expr.isCall name 0))

def HeldSteps (ss : List (Step Expr)) : Prop :=
  ss ≠ [] ∧ ∀ n, Opened name (spellSteps n (comparedSteps comparisons ss))
    ((Expr.subtermsSteps ss).any (Expr.isCall name 0))

variable {name comparisons}

theorem held_binary {op : BinaryOp} {a b : Expr} (ha : Held name comparisons a)
    (hb : Held name comparisons b) : Held name comparisons (.binary op a b) := by
  have hcalls : (Expr.binary op a b).calls name 0 = (a.calls name 0 || b.calls name 0) := by
    rw [Expr.calls, Expr.subterms, List.any_cons, List.any_append]
    rfl
  have hop : ∀ {ts found}, Holds name ts found → Holds name (op.token :: ts) found := fun h =>
    .cons (by cases op <;> simp [BinaryOp.token]) (by cases op <;> simp [BinaryOp.token]) h
  unfold Held
  rw [hcalls, compared]
  split
  · have hargs := ha.append (Holds.cons (t := .comma) (by simp) (by simp) hb.toHolds)
    have hcall := (Opened.call compareFunction hargs).append
      (hop (Holds.token (t := .number "0") (by simp) (by simp)))
    simpa [spell, spellAll, spellMore] using hcall
  · exact ha.append (hop hb.toHolds)

theorem held_union {a b : Expr} (ha : Held name comparisons a) (hb : Held name comparisons b) :
    Held name comparisons (.union a b) := by
  have hcalls : (Expr.union a b).calls name 0 = (a.calls name 0 || b.calls name 0) := by
    rw [Expr.calls, Expr.subterms, List.any_cons, List.any_append]
    rfl
  unfold Held
  rw [hcalls]
  exact ha.append (.cons (by simp) (by simp) hb.toHolds)

theorem held_negate {e : Expr} (h : Held name comparisons e) : Held name comparisons (.negate e) :=
  ⟨.cons (by simp) (by simp) h.toHolds, _, _, rfl, by simp⟩

theorem held_group {e : Expr} (h : Held name comparisons e) : Held name comparisons (.group e) :=
  .lparen h.toHolds

theorem held_emptyCall (n : String) : Held name comparisons (.call n []) := by
  have hcalls : (Expr.call n []).calls name 0 = (n == name) := by
    simp [Expr.calls, Expr.subterms, Expr.subtermsAll, Expr.isCall]
  unfold Held
  rw [hcalls]
  exact .emptyCall n

theorem held_call (n : String) {e : Expr} {es : List Expr} (h : HeldItems name comparisons (e :: es)) :
    Held name comparisons (.call n (e :: es)) := by
  have hcalls : (Expr.call n (e :: es)).calls name 0
      = (Expr.subtermsAll (e :: es)).any (Expr.isCall name 0) := by
    simp [Expr.calls, Expr.subterms, Expr.isCall]
  unfold Held
  rw [hcalls]
  exact .call n (h .comma (.inl rfl))

theorem held_emptySequence : Held name comparisons (.sequence []) :=
  ⟨.cons (by simp) (by simp) (.token (by simp) (by simp)), _, _, rfl, by simp⟩

theorem held_sequence {e : Expr} {es : List Expr} (h : HeldItems name comparisons (e :: es)) :
    Held name comparisons (.sequence (e :: es)) := by
  have hitems := Opened.lparen (h .pipe (.inr rfl)).toHolds
  unfold Held
  simpa [compared, comparedAll, spell, spellAll, Expr.calls, Expr.subterms, Expr.isCall] using hitems

theorem heldItems_singleton {e : Expr} (h : Held name comparisons e) :
    HeldItems name comparisons [e] := by
  intro sep _
  unfold Held Expr.calls at h
  simpa [comparedAll, spellAll, spellMore, Expr.subtermsAll] using h

theorem heldItems_cons {e f : Expr} {es : List Expr} (h : Held name comparisons e)
    (hes : HeldItems name comparisons (f :: es)) : HeldItems name comparisons (e :: f :: es) := by
  intro sep hsep
  have hmore := hes sep hsep
  have hsepHolds : Holds name (sep :: spellAll sep (comparedAll comparisons (f :: es)))
      ((Expr.subtermsAll (f :: es)).any (Expr.isCall name 0)) := by
    rcases hsep with rfl | rfl <;> exact .cons (by simp) (by simp) hmore.toHolds
  rw [Expr.subtermsAll, List.any_append]
  exact h.append hsepHolds

theorem heldPredicates_cons {e : Expr} {es : List Expr} (h : Held name comparisons e)
    (hes : HeldPredicates name comparisons es) : HeldPredicates name comparisons (e :: es) := by
  unfold HeldPredicates
  rw [Expr.subtermsAll, List.any_append]
  exact .cons (by simp) (by simp) (h.toHolds.append (.cons (by simp) (by simp) hes))

theorem holds_step (a : Axis) (test : NodeTest) {preds : List Expr}
    (h : HeldPredicates name comparisons preds) (n : Nat) :
    Opened name (slashes n ++ (spellHead a test preds.isEmpty ++
      spellPredicates (comparedAll comparisons preds))) ((Expr.subtermsAll preds).any (Expr.isCall name 0)) := by
  have hhead := (opened_spellHead name a test preds.isEmpty).append h
  rw [Bool.false_or] at hhead
  have hall := (holds_slashes name n).append hhead.toHolds
  rw [Bool.false_or] at hall
  refine ⟨hall, ?_⟩
  match n with
  | 0 => exact hhead.opens
  | 1 => exact ⟨_, _, rfl, by simp⟩
  | n + 2 => exact ⟨_, _, rfl, by simp⟩

theorem heldSteps_singleton {a : Axis} {test : NodeTest} {preds : List Expr}
    (h : HeldPredicates name comparisons preds) : HeldSteps name comparisons [⟨a, test, preds⟩] := by
  refine ⟨by simp, fun n => ?_⟩
  have hstep := holds_step a test h n
  simpa [comparedSteps, spellSteps, isEmpty_comparedAll, Expr.subtermsSteps] using hstep

theorem heldSteps_cons {a : Axis} {test : NodeTest} {preds : List Expr} {ss : List (Step Expr)}
    (h : HeldPredicates name comparisons preds) (hss : HeldSteps name comparisons ss) :
    HeldSteps name comparisons (⟨a, test, preds⟩ :: ss) := by
  refine ⟨by simp, fun n => ?_⟩
  have hne : ss.isEmpty = false := by simpa using hss.1
  rw [comparedSteps, spellSteps, isEmpty_comparedSteps, isDescendantOrSelf_compared, isEmpty_comparedAll,
    Expr.subtermsSteps, List.any_append]
  split
  · rename_i hfold
    simp only [Bool.and_eq_true, Step.isDescendantOrSelf, List.isEmpty_iff] at hfold
    rw [hfold.2.2]
    exact hss.2 (n + 1)
  · have hall := (holds_step a test h n).append (hss.2 1).toHolds
    rw [hne]
    simpa using hall

theorem held_filter {e : Expr} {preds : List Expr} (h : Held name comparisons e)
    (hp : HeldPredicates name comparisons preds) : Held name comparisons (.filter e preds) := by
  have hcalls : (Expr.filter e preds).calls name 0
      = (e.calls name 0 || (Expr.subtermsAll preds).any (Expr.isCall name 0)) := by
    rw [Expr.calls, Expr.subterms, List.any_cons, List.any_append]
    rfl
  unfold Held
  rw [hcalls]
  exact h.append hp

theorem held_root : Held name comparisons (.absolute []) := .token (by simp) (by simp) (by simp)

theorem held_absolute {ss : List (Step Expr)} (h : HeldSteps name comparisons ss) :
    Held name comparisons (.absolute ss) := h.2 1

theorem held_relative {ss : List (Step Expr)} (h : HeldSteps name comparisons ss) :
    Held name comparisons (.relative ss) := h.2 0

theorem held_continued {e : Expr} {ss : List (Step Expr)} (h : Held name comparisons e)
    (hss : HeldSteps name comparisons ss) : Held name comparisons (.continued e ss) := by
  have hcalls : (Expr.continued e ss).calls name 0
      = (e.calls name 0 || (Expr.subtermsSteps ss).any (Expr.isCall name 0)) := by
    rw [Expr.calls, Expr.subterms, List.any_cons, List.any_append]
    rfl
  unfold Held
  rw [hcalls]
  exact h.append (hss.2 1).toHolds

theorem heldSteps_between {t : Token} {between : List (Step Expr)} {ss : List (Step Expr)}
    (ht : Grammar.stepOp t = some between) (h : HeldSteps name comparisons ss) :
    HeldSteps name comparisons (between ++ ss) := by
  rcases Grammar.stepOp_eq_some ht with ⟨-, rfl⟩ | ⟨-, rfl⟩
  · exact h
  · exact heldSteps_cons .nil h

end

namespace Grammar

section

variable (name : String) (comparisons : Bool)

/-- The tokens of a part, as it is and anchored, hold a call without arguments where the part does. -/
def HeldPart : (k : Part) → k.Tree → Prop
  | .expr _, e => Held name comparisons e ∧ Held name comparisons (anchor e)
  | .items, es => es ≠ [] ∧ HeldItems name comparisons es ∧ HeldItems name comparisons (anchorAll es)
  | .arguments, es =>
    es ≠ [] → HeldItems name comparisons es ∧ HeldItems name comparisons (anchorAll es)
  | .steps, ss => HeldSteps name comparisons ss
  | .step, s => HeldPredicates name comparisons s.predicates
  | .predicates, es => HeldPredicates name comparisons es

theorem Reads.held {k : Part} {ts : List Token} {x : k.Tree} (h : Reads k ts x) :
    HeldPart name comparisons k x := by
  induction h with
  | tighter _ ih => exact ih
  | @binary l t join ts us a b op _ _ ha hb =>
    rcases Level.join_eq op with ⟨-, rfl⟩ | ⟨o, rfl, -⟩
    · exact ⟨held_union ha.1 hb.1, held_union ha.2 hb.2⟩
    · exact ⟨held_binary ha.1 hb.1, held_binary ha.1 hb.1⟩
  | negate _ ih => exact ⟨held_negate ih.1, held_negate ih.1⟩
  | root => exact ⟨held_root, held_root⟩
  | absolute ht _ ih =>
    have hsteps := heldSteps_between ht ih
    exact ⟨held_absolute hsteps, held_absolute hsteps⟩
  | relative _ ih => exact ⟨held_relative ih, held_absolute (heldSteps_cons .nil ih)⟩
  | continued _ ht _ hstart ih =>
    have hall := held_continued hstart.1 (heldSteps_between ht ih)
    exact ⟨hall, hall⟩
  | filter _ _ _ ih hp => exact ⟨held_filter ih.1 hp, held_filter ih.1 hp⟩
  | variableRef n =>
    have hvariable : Held name comparisons (.variableRef n) := .token (by simp) (by simp) (by simp)
    exact ⟨hvariable, hvariable⟩
  | literal value => exact ⟨opened_spellLiteral name value, opened_spellLiteral name value⟩
  | number spelling =>
    have hnumber : Held name comparisons (.number spelling) := .token (by simp) (by simp) (by simp)
    exact ⟨hnumber, hnumber⟩
  | @call n ts args _ ih =>
    cases args with
    | nil => exact ⟨held_emptyCall n, held_emptyCall n⟩
    | cons e es =>
      have hitems := (ih (by simp)).1
      exact ⟨held_call n hitems, held_call n hitems⟩
  | group _ ih => exact ⟨held_group ih.1, held_group ih.2⟩
  | @sequence ts items _ _ ih =>
    cases items with
    | nil => exact ⟨held_emptySequence, held_emptySequence⟩
    | cons e es =>
      obtain ⟨hitems, hanchored⟩ := ih (by simp)
      exact ⟨held_sequence hitems, held_sequence hanchored⟩
  | noArguments => exact fun hne => absurd rfl hne
  | arguments _ ih => exact fun _ => ih.2
  | lastItem _ ih => exact ⟨by simp, heldItems_singleton ih.1, heldItems_singleton ih.2⟩
  | @item ts us e es _ _ ih more =>
    obtain ⟨hne, hitems, hanchored⟩ := more
    cases es with
    | nil => exact absurd rfl hne
    | cons f es => exact ⟨by simp, heldItems_cons ih.1 hitems, heldItems_cons ih.2 hanchored⟩
  | lastStep _ ih => exact heldSteps_singleton ih
  | joined _ ht _ ih more => exact heldSteps_cons ih (heldSteps_between ht more)
  | self | parent | noPredicates => exact Holds.nil
  | tested _ _ _ ih => exact ih
  | predicate _ _ ih more => exact heldPredicates_cons ih.1 more

end

end Grammar

/-- Anchored expressions with the same text agree on the calls without arguments in them. -/
theorem calls_anchor_of_text_eq {first second : String} {p q : Parsed} (hp : parse first = .ok p)
    (hq : parse second = .ok q) {comparisons : Bool}
    (h : emit comparisons (anchor p.expr) = emit comparisons (anchor q.expr)) (name : String) :
    (anchor p.expr).calls name 0 = (anchor q.expr).calls name 0 := by
  obtain ⟨ts, -, hreads⟩ := reads_of_parse hp
  obtain ⟨us, -, hreads'⟩ := reads_of_parse hq
  have hheld : Held name comparisons (anchor p.expr) := (hreads.held name comparisons).2
  have hheld' : Held name comparisons (anchor q.expr) := (hreads'.held name comparisons).2
  have hlex : Lexes .doubled true _ _ := lexes_anchor hp comparisons
  have htokens := hlex.unique (h ▸ lexes_anchor hq comparisons)
  rw [← hheld.calls, ← hheld'.calls, htokens]

end Schematron.XPath

namespace Schematron.Query

open Schematron.XPath

/-- A context is compiled as it is when it is one variable, else from what it selects. -/
theorem compilePattern_eq_ok {language : Language} {source : String} {q : Compiled}
    (h : compilePattern language source = .ok q) :
    ∃ p, parse source = .ok p ∧
      (q.variableRef ≠ none ∧ q.changed = false ∧ q.text = Text.trim source ∨
        q.variableRef = none ∧ q.changed = true ∧ q.text = emit (language == .xpath2) (anchor p.expr) ∧
          q.usesCurrent = (language.hasCurrent && (anchor p.expr).calls "current" 0)) := by
  unfold compilePattern at h
  cases hp : parse source with
  | error e =>
    rw [hp] at h
    cases h
  | ok p =>
    rw [hp] at h
    dsimp only [bind, Except.bind] at h
    split at h
    · cases h
      exact ⟨p, rfl, .inl ⟨Option.some_ne_none _, rfl, rfl⟩⟩
    · cases h
      exact ⟨p, rfl, .inr ⟨rfl, rfl, rfl, rfl⟩⟩

/-- The contexts of one language that have the same text need the node they stand for alike. -/
theorem usesCurrent_of_text_eq {language : Language} {first second : String} {p q : Compiled}
    (hp : compilePattern language first = .ok p) (hq : compilePattern language second = .ok q)
    (hpv : p.variableRef = none) (hqv : q.variableRef = none) (h : p.text = q.text) :
    p.usesCurrent = q.usesCurrent := by
  obtain ⟨e, he, ⟨hsome, -⟩ | ⟨-, -, htext, huses⟩⟩ := compilePattern_eq_ok hp
  · exact absurd hpv hsome
  obtain ⟨f, hf, ⟨hsome, -⟩ | ⟨-, -, htext', huses'⟩⟩ := compilePattern_eq_ok hq
  · exact absurd hqv hsome
  rw [htext, htext'] at h
  rw [huses, huses', calls_anchor_of_text_eq he hf h]

end Schematron.Query
