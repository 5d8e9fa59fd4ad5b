import Schematron.Proofs.XPath.Completeness

/-!
Expressions written next to each other with a bar between them. The bar binds tighter than all
operators but the path's own, so it joins the nearest operands only.
-/

namespace Schematron.XPath

open Schematron.XPath.Grammar (Level)

/-- The level that an operator belongs to. -/
def BinaryOp.level : BinaryOp → Level
  | or => .or
  | and => .and
  | eq | notEq => .equality
  | lt | ltEq | gt | gtEq => .relational
  | add | sub => .additive
  | mul | div | mod => .multiplicative

theorem BinaryOp.rank_level_lt (op : BinaryOp) : op.level.rank < Level.unary.rank := by
  cases op <;> decide

theorem BinaryOp.rank_next_level (op : BinaryOp) : op.level.next.rank = op.level.rank + 1 := by
  cases op <;> rfl

namespace Expr

/-- The level of the operator on top of an expression, and the tightest level where there is none. -/
def level : Expr → Level
  | binary op _ _ => op.level
  | negate _ => .unary
  | union _ _ => .union
  | _ => .primary

theorem unary_le_level {e : Expr} (hbinary : ∀ op a b, e = binary op a b → False) :
    Level.unary.rank ≤ e.level.rank := by
  cases e
  case binary op a b => exact absurd rfl (hbinary op a b)
  all_goals exact Nat.le_of_ble_eq_true rfl

theorem union_le_level {e : Expr} (hbinary : ∀ op a b, e = binary op a b → False)
    (hnegate : ∀ a, e = negate a → False) : Level.union.rank ≤ e.level.rank := by
  cases e
  case binary op a b => exact absurd rfl (hbinary op a b)
  case negate a => exact absurd rfl (hnegate a)
  all_goals exact Nat.le_of_ble_eq_true rfl

theorem path_le_level {e : Expr} (hbinary : ∀ op a b, e = binary op a b → False)
    (hnegate : ∀ a, e = negate a → False) (hunion : ∀ a b, e = union a b → False) :
    Level.path.rank ≤ e.level.rank := by
  cases e
  case binary op a b => exact absurd rfl (hbinary op a b)
  case negate a => exact absurd rfl (hnegate a)
  case union a b => exact absurd rfl (hunion a b)
  all_goals exact Nat.le_of_ble_eq_true rfl

/-- The expression begins with a minus sign. -/
def startsMinus : Expr → Bool
  | negate _ => true
  | binary _ a _ | union a _ => a.startsMinus
  | _ => false

/-- What two expressions say with a bar between them. Of the operators next to the bar the loosest
comes on top, and of two operators of one level the right one. -/
def barred : Expr → Expr → Expr
  | binary p x a, binary q b y =>
    if q.level.rank ≤ p.level.rank then binary q (barred (binary p x a) b) y
    else binary p x (barred a (binary q b y))
  | a, binary q b y => binary q (barred a b) y
  | binary p x a, b => binary p x (barred a b)
  | negate a, b => negate (barred a b)
  | a, union b y => union (barred a b) y
  | a, b => union a b
termination_by a b => sizeOf a + sizeOf b

end Expr

namespace Grammar

theorem Reads.loosen {l m : Level} {ts : List Token} {e : Expr} (h : Reads (.expr m) ts e)
    (hrank : l.rank ≤ m.rank) : Reads (.expr l) ts e := by
  induction hn : 11 - l.rank generalizing l with
  | zero =>
    have hl : l = .primary := by
      cases l <;> first | rfl | exact absurd hn (by decide)
    subst hl
    have hm : m = .primary := by
      cases m <;> first | rfl | exact absurd hrank (by decide)
    exact hm ▸ h
  | succ n ih =>
    by_cases hlm : l = m
    · exact hlm ▸ h
    · have hlt : l.rank < m.rank := by
        revert hrank hlm
        cases l <;> cases m <;> decide
      have hnext : l.next.rank = l.rank + 1 := by
        cases l <;> first | rfl | cases hn
      exact .tighter (ih (by omega) (by omega))

theorem Reads.loosest {l : Level} {ts : List Token} {e : Expr} (h : Reads (.expr l) ts e) :
    Reads (.expr .or) ts e :=
  h.loosen (by cases l <;> decide)

theorem Reads.of_primary {l : Level} {ts : List Token} {e : Expr} (h : Reads (.expr .primary) ts e) :
    Reads (.expr l) ts e :=
  h.loosen (by cases l <;> decide)

theorem Reads.attributeNamed (name : String) :
    Reads (.expr .path) [.atSign, .nameTest name] (.relative [⟨.attributes, nameTest name, []⟩]) :=
  .relative (.lastStep (.tested .atSign (.name name) .noPredicates))

theorem Reads.childNamed (name : String) {ts : List Token} {preds : List Expr}
    (h : Reads .predicates ts preds) :
    Reads (.expr .path) (.nameTest name :: ts) (.relative [⟨.child, nameTest name, preds⟩]) :=
  .relative (.lastStep (.tested .none (.name name) h))

theorem Level.rank_le_primary (l : Level) : l.rank ≤ Level.primary.rank := by
  cases l <;> decide

/-- The tokens on both sides of the operator on top of an expression. -/
def Split (ts : List Token) : Expr → Prop
  | .binary op a b => ∃ t us vs, ts = us ++ t :: vs ∧ op.level.operator t = some (.binary op) ∧
    Reads (.expr op.level) us a ∧ Reads (.expr op.level.next) vs b
  | .negate a => ∃ us, ts = .minus :: us ∧ Reads (.expr .unary) us a
  | .union a b => ∃ t us vs, ts = us ++ t :: vs ∧ Level.union.operator t = some .union ∧
    Reads (.expr .union) us a ∧ Reads (.expr .path) vs b
  | e => Reads (.expr .path) ts e

/-- An operator that joins operands of a level belongs to the level. -/
theorem Level.operator_eq_some {l : Level} {t : Token} {join : Expr → Expr → Expr}
    (h : l.operator t = some join) :
    (l = .union ∧ join = .union) ∨ ∃ op, join = .binary op ∧ l = op.level := by
  cases l <;> cases t <;>
    simp only [operator, orOp, andOp, equalityOp, relationalOp, additiveOp, multiplicativeOp, unionOp,
      reduceCtorEq] at h <;>
    (try split_ifs at h) <;> cases h <;> first | exact .inl ⟨rfl, rfl⟩ | exact .inr ⟨_, rfl, rfl⟩

/-- Where an expression is read, its parts are, and nothing looser than the level stands on its top. -/
def SplitPart : (k : Part) → List Token → k.Tree → Prop
  | .expr l, ts, e => Split ts e ∧ l.rank ≤ e.level.rank
  | _, _, _ => True

theorem Reads.splitPart {k : Part} {ts : List Token} {x : k.Tree} (h : Reads k ts x) :
    SplitPart k ts x := by
  induction h with
  | @tighter l _ _ _ ih =>
    have hnext : l.rank ≤ l.next.rank := by cases l <;> decide
    exact ⟨ih.1, Nat.le_trans hnext ih.2⟩
  | @binary l t join ts us a b hop left right =>
    rcases Level.operator_eq_some hop with ⟨rfl, rfl⟩ | ⟨op, rfl, rfl⟩
    · exact ⟨⟨t, ts, us, rfl, hop, left, right⟩, Nat.le_refl _⟩
    · exact ⟨⟨t, ts, us, rfl, hop, left, right⟩, Nat.le_refl _⟩
  | negate h => exact ⟨⟨_, rfl, h⟩, Nat.le_refl _⟩
  | root => exact ⟨.root, Level.rank_le_primary _⟩
  | absolute ht h => exact ⟨.absolute ht h, Level.rank_le_primary _⟩
  | relative h => exact ⟨.relative h, Level.rank_le_primary _⟩
  | continued start ht h => exact ⟨.continued start ht h, Level.rank_le_primary _⟩
  | filter h some hp => exact ⟨.tighter (.filter h some hp), Level.rank_le_primary _⟩
  | variableRef name => exact ⟨(Reads.variableRef name).of_primary, Level.rank_le_primary _⟩
  | literal value => exact ⟨(Reads.literal value).of_primary, Level.rank_le_primary _⟩
  | number spelling => exact ⟨(Reads.number spelling).of_primary, Level.rank_le_primary _⟩
  | call name h => exact ⟨(Reads.call name h).of_primary, Level.rank_le_primary _⟩
  | group h => exact ⟨(Reads.group h).of_primary, Level.rank_le_primary _⟩
  | sequence h many => exact ⟨(Reads.sequence h many).of_primary, Level.rank_le_primary _⟩
  | noArguments | arguments | lastItem | item | lastStep | joined | self | parent | tested | noPredicates
    | predicate => trivial

theorem Reads.split {l : Level} {ts : List Token} {e : Expr} (h : Reads (.expr l) ts e) : Split ts e :=
  h.splitPart.1

theorem Reads.rank_le {l : Level} {ts : List Token} {e : Expr} (h : Reads (.expr l) ts e) :
    l.rank ≤ e.level.rank :=
  h.splitPart.2

/-- An expression is read at each level that its operator on top allows. -/
theorem Reads.tighten {l m : Level} {ts : List Token} {e : Expr} (h : Reads (.expr l) ts e)
    (hlevel : m.rank ≤ e.level.rank) (hpath : m.rank ≤ Level.path.rank) : Reads (.expr m) ts e := by
  have hsplit := h.split
  cases e
  case binary op a b =>
    obtain ⟨t, us, vs, rfl, hop, left, right⟩ := hsplit
    exact (Reads.binary hop left right).loosen hlevel
  case negate a =>
    obtain ⟨us, rfl, hoperand⟩ := hsplit
    exact (Reads.negate hoperand).loosen hlevel
  case union a b =>
    obtain ⟨t, us, vs, rfl, hop, left, right⟩ := hsplit
    exact (Reads.binary hop left right).loosen hlevel
  all_goals exact Reads.loosen hsplit hpath

section

variable {l : Level} {ts us : List Token}

/-- The bar is inside the left operand of what comes behind it. -/
theorem Reads.barred_left {q : BinaryOp} {b y e : Expr} (h : Reads (.expr l) us (.binary q b y))
    (hleft : ∀ vs, Reads (.expr q.level) vs b → Reads (.expr q.level) (ts ++ .pipe :: vs) e) :
    Reads (.expr l) (ts ++ .pipe :: us) (.binary q e y) := by
  obtain ⟨t, vs, ws, rfl, hop, left, right⟩ := h.split
  have hall := Reads.binary hop (hleft vs left) right
  rw [List.append_assoc, List.cons_append] at hall
  exact hall.loosen h.rank_le

/-- The bar is inside the right operand of what comes before it. -/
theorem Reads.barred_right {p : BinaryOp} {x a e : Expr} (h : Reads (.expr l) ts (.binary p x a))
    (hright : ∀ vs, Reads (.expr p.level.next) vs a →
      Reads (.expr p.level.next) (vs ++ .pipe :: us) e) :
    Reads (.expr l) (ts ++ .pipe :: us) (.binary p x e) := by
  obtain ⟨t, vs, ws, rfl, hop, left, right⟩ := h.split
  have hall := Reads.binary hop left (hright ws right)
  rw [List.append_assoc, List.cons_append]
  exact hall.loosen h.rank_le

end

/-- Two expressions with a bar between them are read as `barred` says, unless the second begins with a
minus sign, which no bar may stand before. -/
theorem Reads.barred {l : Level} {ts us : List Token} {a b : Expr} (ha : Reads (.expr l) ts a)
    (hb : Reads (.expr l) us b) (hl : l.rank ≤ Level.union.rank) (hminus : b.startsMinus = false) :
    Reads (.expr l) (ts ++ .pipe :: us) (a.barred b) := by
  have hoperator : ∀ op : BinaryOp, op.level.rank < 7 := BinaryOp.rank_level_lt
  fun_induction Expr.barred a b generalizing l ts us with
  | case1 p x a q b y hle ih =>
    have hq := hoperator q
    exact hb.barred_left fun vs hvs =>
      ih (ha.tighten hle (show _ ≤ 9 by omega)) hvs (show _ ≤ 8 by omega) hminus
  | case2 p x a q b y hlt ih =>
    have hp := hoperator p
    have hnext := p.rank_next_level
    have hle : p.level.next.rank ≤ q.level.rank := by omega
    exact ha.barred_right fun vs hvs =>
      ih hvs (hb.tighten hle (show _ ≤ 9 by omega)) (show _ ≤ 8 by omega) hminus
  | case3 a q b y hbinary ih =>
    have hq := hoperator q
    have hunary : 7 ≤ a.level.rank := Expr.unary_le_level hbinary
    exact hb.barred_left fun vs hvs =>
      ih (ha.tighten (by omega) (show _ ≤ 9 by omega)) hvs (show _ ≤ 8 by omega) hminus
  | case4 p x a b hbinary ih =>
    have hp := hoperator p
    have hnext := p.rank_next_level
    have hunary : 7 ≤ b.level.rank := Expr.unary_le_level hbinary
    exact ha.barred_right fun vs hvs =>
      ih hvs (hb.tighten (by omega) (show _ ≤ 9 by omega)) (show _ ≤ 8 by omega) hminus
  | case5 a b hbinary ih =>
    -- the sign reaches no further than the bar, which goes on inside it
    obtain ⟨vs, rfl, hoperand⟩ := ha.split
    have hunion : 8 ≤ b.level.rank := Expr.union_le_level hbinary fun e heq => by
      rw [heq] at hminus
      cases hminus
    have hall := ih hoperand (hb.tighten (show 7 ≤ _ by omega) (by decide)) (by decide) hminus
    exact hall.negate.loosen ha.rank_le
  | case6 a b y hbinary hnegate ih =>
    obtain ⟨t, vs, ws, rfl, hop, left, right⟩ := hb.split
    have hunion := Expr.union_le_level hbinary hnegate
    have hall := Reads.binary hop (ih (ha.tighten hunion (by decide)) left (by decide) hminus) right
    rw [List.append_assoc, List.cons_append] at hall
    exact hall.loosen hl
  | case7 a b _ hbinary' hbinary hnegate hunion' =>
    have hunion := Expr.union_le_level hbinary hnegate
    have hpath := Expr.path_le_level hbinary' (fun e heq => by rw [heq] at hminus; cases hminus) hunion'
    have hall := Reads.binary (l := .union) (t := .pipe) rfl (ha.tighten hunion (by decide))
      (hb.tighten hpath (by decide))
    exact hall.loosen hl

end Grammar

end Schematron.XPath
