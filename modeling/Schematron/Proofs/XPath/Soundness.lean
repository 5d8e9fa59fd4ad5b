import Mathlib.Tactic.SplitIfs
import Schematron.Proofs.XPath.Syntax

/-!
What the parser reads: each parser of the grammar takes tokens that its rules allow for the tree that
it returns.
-/

namespace Schematron.XPath

namespace Grammar

variable {α β : Type}

theorem bind_eq_ok {p : Parser α} {f : α → Parser β} {ts rest : List Token} {b : β} :
    (p >>= f) ts = .ok (b, rest) ↔ ∃ a mid, p ts = .ok (a, mid) ∧ f a mid = .ok (b, rest) := by
  show Except.bind (p ts) (fun x => f x.1 x.2) = .ok (b, rest) ↔ _
  cases p ts with
  | error e => simp [Except.bind]
  | ok x =>
    constructor
    · intro h
      exact ⟨x.1, x.2, rfl, h⟩
    · intro h
      obtain ⟨a, mid, ha, h⟩ := h
      cases ha
      exact h

theorem pure_eq_ok {a b : α} {ts rest : List Token} :
    (pure a : Parser α) ts = .ok (b, rest) ↔ a = b ∧ ts = rest := by
  show Except.ok (a, ts) = Except.ok (b, rest) ↔ _
  simp

theorem get_bind {f : List Token → Parser β} {ts : List Token} :
    ((do let s ← get; f s) : Parser β) ts = f ts ts := rfl

theorem set_bind {s : List Token} {p : Parser β} {ts : List Token} :
    ((do set s; p) : Parser β) ts = p s := rfl

theorem fail_ne_ok {cause : SyntaxCause} {ts : List Token} {x : α × List Token} :
    (fail cause : Parser α) ts ≠ .ok x := by
  intro h
  cases h

theorem expect_eq_ok {t : Token} {ts rest : List Token} {u : Unit} :
    expect t ts = .ok (u, rest) ↔ ts = t :: rest := by
  unfold expect
  rw [get_bind]
  cases ts with
  | nil => simp [fail_ne_ok]
  | cons s ts =>
    by_cases h : s = t
    · subst h
      simp only [if_true, List.cons.injEq, true_and]
      show Except.ok ((), ts) = Except.ok (u, rest) ↔ _
      simp
    · simp [h, fail_ne_ok]

/-- The tokens that a parser takes off the front are of a kind. -/
def Sound (p : Parser α) (R : List Token → α → Prop) : Prop :=
  ∀ ts x rest, p ts = .ok (x, rest) → ∃ used, ts = used ++ rest ∧ R used x

/-- Items one after the other, each behind a token that leads one in, up to a token that does not. -/
inductive Repeats (lead : Token → Option β) (item : β → Parser α) :
    List Token → List α → List Token → Prop where
  | stop {ts : List Token} (h : ∀ t, ts.head? = some t → lead t = none) : Repeats lead item ts [] ts
  | more {t : Token} {b : β} {a : α} {ts mid rest : List Token} {as : List α} (hl : lead t = some b)
      (hi : item b ts = .ok (a, mid)) (h : Repeats lead item mid as rest) :
      Repeats lead item (t :: ts) (a :: as) rest

theorem repeats_of_repeated {lead : Token → Option β} {item : β → Parser α}
    (short : ∀ b ts a rest, item b ts = .ok (a, rest) → rest.length ≤ ts.length)
    {ts rest : List Token} {as : List α} (h : repeated lead item ts = .ok (as, rest)) :
    Repeats lead item ts as rest := by
  fun_induction repeated lead item ts generalizing as with
  | case1 =>
    cases h
    exact .stop (by simp)
  | case2 t ts hl =>
    cases h
    exact .stop (by simpa using hl)
  | case3 => cases h
  | case4 => cases h
  | case5 t ts b hl a mid hi hlen as' last hr ih =>
    cases h
    exact .more hl hi (ih hr)
  | case6 t ts b hl a mid hi hlen => exact absurd (short b ts a mid hi) hlen

theorem Sound.length_le {p : Parser α} {R : List Token → α → Prop} (h : Sound p R)
    {ts rest : List Token} {x : α} (hp : p ts = .ok (x, rest)) : rest.length ≤ ts.length := by
  obtain ⟨used, rfl, -⟩ := h ts x rest hp
  rw [List.length_append]
  omega

/-- What is read so far is the left operand of the next operator. -/
theorem Repeats.grouped {l : Level} {operand : Parser Expr}
    (h : Sound operand (Reads (.expr l.next))) {ts rest : List Token}
    {more : List ((Expr → Expr → Expr) × Expr)}
    (hrep : Repeats l.operator (fun join => do return (join, ← operand)) ts more rest)
    (used : List Token) (left : Expr) (hleft : Reads (.expr l) used left) :
    ∃ us, ts = us ++ rest ∧
      Reads (.expr l) (used ++ us) (more.foldl (fun left (join, right) => join left right) left) := by
  induction hrep generalizing used left with
  | stop => exact ⟨[], rfl, by simpa using hleft⟩
  | @more t join _ ts mid rest more hl hi _ ih =>
    obtain ⟨right, next, hright, hx⟩ := bind_eq_ok.mp hi
    obtain ⟨rfl, rfl⟩ := pure_eq_ok.mp hx
    obtain ⟨vs, rfl, hr⟩ := h _ _ _ hright
    obtain ⟨us, rfl, hall⟩ := ih _ _ (.binary hl hleft hr)
    refine ⟨t :: (vs ++ us), by simp, ?_⟩
    simpa using hall

theorem chain_sound {l : Level} {operand : Parser Expr}
    (h : Sound operand (Reads (.expr l.next))) :
    Sound (chain l.operator operand) (Reads (.expr l)) := by
  intro ts e rest he
  unfold chain at he
  obtain ⟨first, mid, hfirst, he⟩ := bind_eq_ok.mp he
  obtain ⟨more, last, hmore, he⟩ := bind_eq_ok.mp he
  obtain ⟨rfl, rfl⟩ := pure_eq_ok.mp he
  have hrep := repeats_of_repeated (fun join ts x rest hx => by
    obtain ⟨a, mid, ha, hx⟩ := bind_eq_ok.mp hx
    obtain ⟨-, rfl⟩ := pure_eq_ok.mp hx
    exact h.length_le ha) hmore
  obtain ⟨used, rfl, hr⟩ := h _ _ _ hfirst
  obtain ⟨us, rfl, hall⟩ := hrep.grouped h used first (.tighter hr)
  exact ⟨used ++ us, by simp, hall⟩

theorem unary_sound {operand : Parser Expr} (h : Sound operand (Reads (.expr .union))) :
    Sound (unary operand) (Reads (.expr .unary)) := by
  intro ts e rest he
  fun_induction unary operand ts generalizing e with
  | case1 => cases he
  | case2 ts e' after hu ih =>
    cases he
    obtain ⟨used, rfl, hr⟩ := ih _ hu
    exact ⟨.minus :: used, rfl, .negate hr⟩
  | case3 ts hts =>
    obtain ⟨used, rfl, hr⟩ := h _ _ _ he
    exact ⟨used, rfl, .tighter hr⟩

theorem axis_sound : Sound axis AxisReads := by
  intro ts a rest ha
  unfold axis at ha
  rw [get_bind] at ha
  split at ha
  · rename_i more
    rw [set_bind] at ha
    obtain ⟨rfl, rfl⟩ := pure_eq_ok.mp ha
    exact ⟨[.atSign], rfl, .atSign⟩
  · rename_i name more
    cases hb : Axis.ofName? name with
    | some b =>
      simp only [hb] at ha
      rw [set_bind] at ha
      obtain ⟨u, mid, hcolons, ha⟩ := bind_eq_ok.mp ha
      obtain ⟨rfl, rfl⟩ := pure_eq_ok.mp ha
      rw [expect_eq_ok.mp hcolons]
      exact ⟨[.axisName name, .colonColon], rfl, .named hb⟩
    | none =>
      simp only [hb] at ha
      exact absurd ha fail_ne_ok
  · obtain ⟨rfl, rfl⟩ := pure_eq_ok.mp ha
    exact ⟨[], rfl, .none⟩

theorem target?_eq_ok {ts rest : List Token} {t : Option String} (h : target? ts = .ok (t, rest)) :
    (t = none ∧ ts = rest) ∨ ∃ value, t = some value ∧ ts = .literal value :: rest := by
  unfold target? at h
  rw [get_bind] at h
  split at h
  · rename_i value more
    rw [set_bind] at h
    obtain ⟨rfl, rfl⟩ := pure_eq_ok.mp h
    exact .inr ⟨value, rfl, rfl⟩
  · obtain ⟨rfl, rfl⟩ := pure_eq_ok.mp h
    exact .inl ⟨rfl, rfl⟩

/-- What stands between the parentheses of a node type. -/
def typed (kind : String) : Parser NodeTest :=
  match typeTest? kind with
  | some test => pure test
  | none => NodeTest.instruction <$> target?

theorem typeTest_eq (kind : String) :
    typeTest kind = (do
      expect .lparen
      let test ← typed kind
      expect .rparen
      return test) := by
  unfold typeTest typed typeTest?
  split_ifs <;> rfl

theorem typeTest_sound (kind : String) :
    Sound (typeTest kind) fun ts test => TestReads (.nodeType kind :: ts) test := by
  intro ts test rest h
  rw [typeTest_eq] at h
  obtain ⟨_, mid, hopen, h⟩ := bind_eq_ok.mp h
  obtain ⟨found, next, hfound, h⟩ := bind_eq_ok.mp h
  obtain ⟨_, last, hclose, h⟩ := bind_eq_ok.mp h
  obtain ⟨rfl, rfl⟩ := pure_eq_ok.mp h
  rw [expect_eq_ok.mp hopen]
  have hnext := expect_eq_ok.mp hclose
  unfold typed at hfound
  cases hk : typeTest? kind with
  | some plain =>
    simp only [hk] at hfound
    obtain ⟨rfl, rfl⟩ := pure_eq_ok.mp hfound
    rw [hnext]
    exact ⟨[.lparen, .rparen], rfl, .type hk⟩
  | none =>
    simp only [hk, map_eq_pure_bind] at hfound
    obtain ⟨t, after, ht, hx⟩ := bind_eq_ok.mp hfound
    obtain ⟨rfl, rfl⟩ := pure_eq_ok.mp hx
    rcases target?_eq_ok ht with ⟨rfl, rfl⟩ | ⟨value, rfl, rfl⟩
    · rw [hnext]
      exact ⟨[.lparen, .rparen], rfl, .instruction hk⟩
    · rw [hnext]
      exact ⟨[.lparen, .literal value, .rparen], rfl, .target hk value⟩

theorem nodeTest_sound : Sound nodeTest TestReads := by
  intro ts test rest h
  unfold nodeTest at h
  rw [get_bind] at h
  split at h
  · rename_i name more
    rw [set_bind] at h
    obtain ⟨rfl, rfl⟩ := pure_eq_ok.mp h
    exact ⟨[.nameTest name], rfl, .name name⟩
  · rename_i kind more
    rw [set_bind] at h
    obtain ⟨used, rfl, ht⟩ := typeTest_sound kind _ _ _ h
    exact ⟨.nodeType kind :: used, rfl, ht⟩
  · exact absurd h fail_ne_ok
  · exact absurd h fail_ne_ok

/-- One item is no more than itself in parentheses. -/
theorem Reads.of_singleton {ts : List Token} {e : Expr} (h : Reads .arguments ts [e]) :
    Reads (.expr .or) ts e := by
  cases h with
  | arguments h =>
    cases h with
    | lastItem h => exact h
    | item _ more => cases more

section Nested

variable {nested : Parser Expr} (h : Sound nested (Reads (.expr .or)))

include h

theorem bracketed_sound :
    Sound (do
      let e ← nested
      expect .rbracket
      return e) fun ts e => ∃ us, ts = us ++ [.rbracket] ∧ Reads (.expr .or) us e := by
  intro ts e rest he
  obtain ⟨e', mid, hn, he⟩ := bind_eq_ok.mp he
  obtain ⟨_, last, hclose, he⟩ := bind_eq_ok.mp he
  obtain ⟨rfl, rfl⟩ := pure_eq_ok.mp he
  obtain ⟨used, rfl, hr⟩ := h _ _ _ hn
  rw [expect_eq_ok.mp hclose]
  exact ⟨used ++ [.rbracket], by simp, used, rfl, hr⟩

theorem predicates_sound : Sound (predicates nested) (Reads .predicates) := by
  intro ts preds rest hp
  have hrep := repeats_of_repeated (fun _ _ _ _ hx => (bracketed_sound h).length_le hx) hp
  clear hp
  induction hrep with
  | stop => exact ⟨[], rfl, .noPredicates⟩
  | @more t b e ts mid es rest hl hi _ ih =>
    obtain ⟨used, rfl, us, rfl, hr⟩ := bracketed_sound h _ _ _ hi
    obtain ⟨vs, rfl, hall⟩ := ih
    have ht : t = .lbracket := by
      unfold isBracket at hl
      split at hl
      · rfl
      · cases hl
    subst ht
    exact ⟨.lbracket :: (us ++ .rbracket :: vs), by simp, .predicate hr hall⟩

theorem step_sound : Sound (step nested) (Reads .step) := by
  intro ts s rest hs
  unfold step at hs
  rw [get_bind] at hs
  split at hs
  · rw [set_bind] at hs
    obtain ⟨rfl, rfl⟩ := pure_eq_ok.mp hs
    exact ⟨[.dot], rfl, .self⟩
  · rw [set_bind] at hs
    obtain ⟨rfl, rfl⟩ := pure_eq_ok.mp hs
    exact ⟨[.dotDot], rfl, .parent⟩
  · obtain ⟨a, afterAxis, haxis, hs⟩ := bind_eq_ok.mp hs
    obtain ⟨test, afterTest, htest, hs⟩ := bind_eq_ok.mp hs
    obtain ⟨preds, last, hpreds, hs⟩ := bind_eq_ok.mp hs
    obtain ⟨rfl, rfl⟩ := pure_eq_ok.mp hs
    obtain ⟨as, rfl, ha⟩ := axis_sound _ _ _ haxis
    obtain ⟨us, rfl, ht⟩ := nodeTest_sound _ _ _ htest
    obtain ⟨ps, rfl, hp⟩ := predicates_sound h _ _ _ hpreds
    exact ⟨as ++ (us ++ ps), by simp, .tested ha ht hp⟩

/-- A step and those behind it. -/
theorem Repeats.joined {ts rest : List Token} {more : List (List (Step Expr))}
    (hrep : Repeats stepOp (fun between => do return between ++ [← step nested]) ts more rest)
    (used : List Token) (first : Step Expr) (hfirst : Reads .step used first) :
    ∃ us, ts = us ++ rest ∧ Reads .steps (used ++ us) (first :: more.flatten) := by
  induction hrep generalizing used first with
  | stop => exact ⟨[], rfl, by simpa using Reads.lastStep hfirst⟩
  | @more t between _ ts mid more rest hl hi _ ih =>
    obtain ⟨s, next, hs, hx⟩ := bind_eq_ok.mp hi
    obtain ⟨rfl, rfl⟩ := pure_eq_ok.mp hx
    obtain ⟨vs, rfl, hr⟩ := step_sound h _ _ _ hs
    obtain ⟨us, rfl, hall⟩ := ih vs s hr
    refine ⟨t :: (vs ++ us), by simp, ?_⟩
    simpa using Reads.joined hfirst hl hall

theorem steps_sound : Sound (steps nested) (Reads .steps) := by
  intro ts ss rest hs
  unfold steps at hs
  obtain ⟨first, mid, hfirst, hs⟩ := bind_eq_ok.mp hs
  obtain ⟨more, last, hmore, hs⟩ := bind_eq_ok.mp hs
  obtain ⟨rfl, rfl⟩ := pure_eq_ok.mp hs
  have hrep := repeats_of_repeated (fun between ts ss rest hx => by
    obtain ⟨s, mid, hstep, hx⟩ := bind_eq_ok.mp hx
    obtain ⟨-, rfl⟩ := pure_eq_ok.mp hx
    exact (step_sound h).length_le hstep) hmore
  obtain ⟨used, rfl, hr⟩ := step_sound h _ _ _ hfirst
  obtain ⟨us, rfl, hall⟩ := hrep.joined h used first hr
  exact ⟨used ++ us, by simp, hall⟩

theorem Repeats.listed {ts rest : List Token} {more : List Expr}
    (hrep : Repeats isComma (fun _ => nested) ts more rest) (used : List Token) (first : Expr)
    (hfirst : Reads (.expr .or) used first) :
    ∃ us, ts = us ++ rest ∧ Reads .items (used ++ us) (first :: more) := by
  induction hrep generalizing used first with
  | stop => exact ⟨[], rfl, by simpa using Reads.lastItem hfirst⟩
  | @more t _ e ts mid rest es hl hi _ ih =>
    obtain ⟨vs, rfl, hv⟩ := h _ _ _ hi
    obtain ⟨us, rfl, hall⟩ := ih vs e hv
    have ht : t = .comma := by
      unfold isComma at hl
      split at hl
      · rfl
      · cases hl
    subst ht
    exact ⟨.comma :: (vs ++ us), by simp, .item hfirst hall⟩

theorem commaList_sound : Sound (commaList nested) (Reads .items) := by
  intro ts es rest he
  unfold commaList at he
  obtain ⟨first, mid, hfirst, he⟩ := bind_eq_ok.mp he
  obtain ⟨more, last, hmore, he⟩ := bind_eq_ok.mp he
  obtain ⟨rfl, rfl⟩ := pure_eq_ok.mp he
  have hrep := repeats_of_repeated (fun _ _ _ _ hx => h.length_le hx) hmore
  obtain ⟨used, rfl, hr⟩ := h _ _ _ hfirst
  obtain ⟨us, rfl, hall⟩ := hrep.listed h used first hr
  exact ⟨used ++ us, by simp, hall⟩

/-- What stands between parentheses, and the closing one. -/
theorem arguments_sound :
    Sound (arguments nested) fun ts es => ∃ us, ts = us ++ [.rparen] ∧ Reads .arguments us es := by
  intro ts es rest he
  unfold arguments at he
  obtain ⟨next, mid, hnext, he⟩ := bind_eq_ok.mp he
  obtain ⟨rfl, rfl⟩ : ts.head? = next ∧ ts = mid := pure_eq_ok.mp hnext
  split at he
  · obtain ⟨_, last, hclose, he⟩ := bind_eq_ok.mp he
    obtain ⟨rfl, rfl⟩ := pure_eq_ok.mp he
    rw [expect_eq_ok.mp hclose]
    exact ⟨[.rparen], rfl, [], rfl, .noArguments⟩
  · obtain ⟨args, mid, hargs, he⟩ := bind_eq_ok.mp he
    obtain ⟨_, last, hclose, he⟩ := bind_eq_ok.mp he
    obtain ⟨rfl, rfl⟩ := pure_eq_ok.mp he
    obtain ⟨used, rfl, hr⟩ := commaList_sound h _ _ _ hargs
    rw [expect_eq_ok.mp hclose]
    exact ⟨used ++ [.rparen], by simp, used, rfl, .arguments hr⟩

theorem parenthesized_sound :
    Sound (parenthesized nested) fun ts e => Reads (.expr .primary) (.lparen :: ts) e := by
  intro ts e rest he
  unfold parenthesized at he
  obtain ⟨items, mid, hitems, hend⟩ := bind_eq_ok.mp he
  obtain ⟨used, rfl, us, rfl, hr⟩ := arguments_sound h _ _ _ hitems
  split at hend
  · obtain ⟨rfl, rfl⟩ := pure_eq_ok.mp hend
    exact ⟨us ++ [.rparen], rfl, .group hr.of_singleton⟩
  · rename_i hmany
    obtain ⟨rfl, rfl⟩ := pure_eq_ok.mp hend
    refine ⟨us ++ [.rparen], rfl, .sequence hr ?_⟩
    intro hone
    obtain ⟨e, rfl⟩ := List.length_eq_one_iff.mp hone
    exact hmany e rfl

theorem primary_sound : Sound (primary nested) (Reads (.expr .primary)) := by
  intro ts e rest he
  unfold primary at he
  rw [get_bind] at he
  split at he
  · rename_i name more
    rw [set_bind] at he
    obtain ⟨rfl, rfl⟩ := pure_eq_ok.mp he
    exact ⟨[.variableName name], rfl, .variableRef name⟩
  · rename_i value more
    rw [set_bind] at he
    obtain ⟨rfl, rfl⟩ := pure_eq_ok.mp he
    exact ⟨[.literal value], rfl, .literal value⟩
  · rename_i spelling more
    rw [set_bind] at he
    obtain ⟨rfl, rfl⟩ := pure_eq_ok.mp he
    exact ⟨[.number spelling], rfl, .number spelling⟩
  · rename_i name more
    rw [set_bind] at he
    obtain ⟨_, mid, hopen, he⟩ := bind_eq_ok.mp he
    obtain ⟨args, last, hargs, he⟩ := bind_eq_ok.mp he
    obtain ⟨rfl, rfl⟩ := pure_eq_ok.mp he
    rw [expect_eq_ok.mp hopen]
    obtain ⟨used, rfl, us, rfl, hr⟩ := arguments_sound h _ _ _ hargs
    exact ⟨.functionName name :: .lparen :: (us ++ [.rparen]), by simp, .call name hr⟩
  · rw [set_bind] at he
    obtain ⟨used, rfl, hr⟩ := parenthesized_sound h _ _ _ he
    exact ⟨.lparen :: used, rfl, hr⟩
  · exact absurd he fail_ne_ok
  · exact absurd he fail_ne_ok

theorem filter_sound : Sound (filter nested) (Reads (.expr .filter)) := by
  intro ts e rest he
  unfold filter at he
  obtain ⟨p, mid, hp, hmore⟩ := bind_eq_ok.mp he
  obtain ⟨preds, last, hpreds, hend⟩ := bind_eq_ok.mp hmore
  obtain ⟨used, rfl, hr⟩ := primary_sound h _ _ _ hp
  obtain ⟨us, rfl, hps⟩ := predicates_sound h _ _ _ hpreds
  split at hend
  · obtain ⟨rfl, rfl⟩ := pure_eq_ok.mp hend
    cases hps
    exact ⟨used, by simp, .tighter hr⟩
  · rename_i hsome
    obtain ⟨rfl, rfl⟩ := pure_eq_ok.mp hend
    exact ⟨used ++ us, by simp, .filter hr hsome hps⟩

theorem path_sound : Sound (path nested) (Reads (.expr .path)) := by
  intro ts e rest he
  unfold path at he
  rw [get_bind] at he
  split at he
  · rename_i more
    rw [set_bind] at he
    split at he
    · obtain ⟨ss, mid, hss, he⟩ := bind_eq_ok.mp he
      obtain ⟨rfl, rfl⟩ := pure_eq_ok.mp he
      obtain ⟨used, rfl, hr⟩ := steps_sound h _ _ _ hss
      exact ⟨.slash :: used, rfl, .absolute (b := []) rfl hr⟩
    · obtain ⟨rfl, rfl⟩ := pure_eq_ok.mp he
      exact ⟨[.slash], rfl, .root⟩
  · rename_i more
    rw [set_bind] at he
    obtain ⟨ss, mid, hss, he⟩ := bind_eq_ok.mp he
    obtain ⟨rfl, rfl⟩ := pure_eq_ok.mp he
    obtain ⟨used, rfl, hr⟩ := steps_sound h _ _ _ hss
    exact ⟨.doubleSlash :: used, rfl, .absolute (b := [.descendantOrSelf]) rfl hr⟩
  · split at he
    · obtain ⟨ss, mid, hss, he⟩ := bind_eq_ok.mp he
      obtain ⟨rfl, rfl⟩ := pure_eq_ok.mp he
      obtain ⟨used, rfl, hr⟩ := steps_sound h _ _ _ hss
      exact ⟨used, rfl, .relative hr⟩
    · obtain ⟨start, mid, hstart, hend⟩ := bind_eq_ok.mp he
      obtain ⟨used, rfl, hr⟩ := filter_sound h _ _ _ hstart
      rw [get_bind] at hend
      split at hend
      · rw [set_bind] at hend
        obtain ⟨ss, last, hss, hend⟩ := bind_eq_ok.mp hend
        obtain ⟨rfl, rfl⟩ := pure_eq_ok.mp hend
        obtain ⟨us, rfl, hs⟩ := steps_sound h _ _ _ hss
        exact ⟨used ++ .slash :: us, by simp, .continued (b := []) hr rfl hs⟩
      · rw [set_bind] at hend
        obtain ⟨ss, last, hss, hend⟩ := bind_eq_ok.mp hend
        obtain ⟨rfl, rfl⟩ := pure_eq_ok.mp hend
        obtain ⟨us, rfl, hs⟩ := steps_sound h _ _ _ hss
        exact ⟨used ++ .doubleSlash :: us, by simp, .continued (b := [.descendantOrSelf]) hr rfl hs⟩
      · obtain ⟨rfl, rfl⟩ := pure_eq_ok.mp hend
        exact ⟨used, rfl, .tighter hr⟩

theorem level_sound : Sound (level nested) (Reads (.expr .or)) := by
  have hunion := chain_sound (l := .union) (path_sound h)
  have hfactor := chain_sound (l := .multiplicative) (unary_sound hunion)
  have hterm := chain_sound (l := .additive) hfactor
  have hrelation := chain_sound (l := .relational) hterm
  have hequality := chain_sound (l := .equality) hrelation
  exact chain_sound (l := .or) (chain_sound (l := .and) hequality)

end Nested

/-- The parser of what stands between brackets in a text of `n` tokens. -/
def inside (n : Nat) : Parser Expr := fun ts =>
  if ts.length < n then expr ts else .error ⟨ts, .unexpected none⟩

theorem expr_eq (ts : List Token) : expr ts = level (inside ts.length) ts := by
  rw [expr]
  rfl

theorem inside_of_lt {n : Nat} {ts : List Token} (h : ts.length < n) : inside n ts = expr ts :=
  if_pos h

theorem expr_sound : Sound expr (Reads (.expr .or)) := by
  intro ts
  induction hn : ts.length using Nat.strongRecOn generalizing ts with
  | ind n ih =>
    intro e rest he
    rw [expr_eq] at he
    refine level_sound ?_ ts e rest he
    intro inner e rest hinner
    by_cases hlt : inner.length < ts.length
    · rw [inside_of_lt hlt] at hinner
      exact ih _ (hn ▸ hlt) inner rfl e rest hinner
    · rw [inside, if_neg hlt] at hinner
      cases hinner

end Grammar

end Schematron.XPath
