import Schematron.Proofs.XPath.RoundTrip

/-!
Comparisons by order that stand beside a bar. An operand that the bar takes into a union is no number
any more.
-/

namespace Schematron.XPath

open Schematron.XPath.Grammar (Level Reads)

namespace Expr

/-- The expression has a comparison by order without a number as an operand, where a bar may stand
before it and behind it. -/
def exposed (before behind : Bool) : Expr → Bool
  | binary op a b =>
    (op.isOrdering && (before || !a.isNumeric) && (behind || !b.isNumeric)) ||
      a.exposed before false || b.exposed false behind
  | _ => false

/-- One of the expressions is exposed when there are bars between them. -/
def exposedAmong (before : Bool) : List Expr → Bool
  | [] => false
  | e :: es => e.exposed before (!es.isEmpty) || exposedAmong true es

/-- No comparison in a sequence loses its number when the sequence is printed as a union. -/
def Settled (e : Expr) : Prop := exposedAmong false e.items = false

instance (e : Expr) : Decidable e.Settled := inferInstanceAs (Decidable (_ = _))

theorem isNumeric_barred (a b : Expr) : (a.barred b).isNumeric = false := by
  fun_induction barred a b with
  | case5 a b _ ih => exact ih
  | _ => rfl

theorem exposed_of_tight {e : Expr} (h : Level.unary.rank ≤ e.level.rank) (before behind : Bool) :
    e.exposed before behind = false := by
  cases e
  case binary op a b => exact absurd op.rank_level_lt (Nat.not_lt.mpr h)
  all_goals rfl

theorem exposed_barred (a b : Expr) (before behind : Bool) :
    (a.barred b).exposed before behind = (a.exposed before true || b.exposed true behind) := by
  fun_induction barred a b generalizing before behind with
  | case1 | case2 | case3 | case4 =>
    rename_i ih
    simp only [exposed, ih, isNumeric_barred, Bool.not_false, Bool.or_true, Bool.true_or, Bool.and_true]
    ac_rfl
  | case5 a b hbinary =>
    rw [exposed_of_tight (unary_le_level hbinary)]
    rfl
  | case6 a b y hbinary =>
    rw [exposed_of_tight (unary_le_level hbinary)]
    rfl
  | case7 a b _ hbinary' hbinary =>
    rw [exposed_of_tight (unary_le_level hbinary), exposed_of_tight (unary_le_level hbinary')]
    rfl

theorem saysMore_binary (op : BinaryOp) (a b : Expr) :
    saysMore true (binary op a b) = (needsCompare op a b || saysMore true a || saysMore true b) := by
  simp only [saysMore, subterms, List.any_cons, List.any_append, isLater, Bool.true_and, Bool.or_assoc]

theorem saysMore_union (a b : Expr) :
    saysMore true (union a b) = (saysMore true a || saysMore true b) := by
  simp only [saysMore, subterms, List.any_cons, List.any_append, isLater, Bool.false_or]

theorem saysMore_negate (a : Expr) : saysMore true (negate a) = saysMore true a := rfl

theorem exposed_mono {e : Expr} {before behind before' behind' : Bool} (h : before = true → before' = true)
    (h' : behind = true → behind' = true) (he : e.exposed before behind = true) :
    e.exposed before' behind' = true := by
  induction e using Expr.partsInduction generalizing before behind before' behind' with
  | h e ih =>
    cases e
    case binary op a b =>
      have ha := ih a List.mem_cons_self h (id : false = true → false = true)
      have hb := ih b (List.mem_cons_of_mem _ List.mem_cons_self) (id : false = true → false = true) h'
      simp only [exposed] at he ⊢
      grind
    all_goals cases he

/-- A comparison that is exposed without any bar has no number as an operand. -/
theorem saysMore_of_exposed {e : Expr} (h : e.exposed false false = true) : saysMore true e = true := by
  induction e using Expr.partsInduction with
  | h e ih =>
    cases e
    case binary op a b =>
      have ha := ih a List.mem_cons_self
      have hb := ih b (List.mem_cons_of_mem _ List.mem_cons_self)
      rw [saysMore_binary, needsCompare]
      simp only [exposed] at h
      grind
    all_goals cases h

/-- A bar inside the left operand of an operator. -/
theorem saysMore_left {b e y : Expr} {q : BinaryOp} {outside more : Bool} (hnumeric : e.isNumeric = false)
    (h : saysMore true e = (outside || b.exposed true false || more || saysMore true b)) :
    saysMore true (binary q e y) =
      (outside || (binary q b y).exposed true false || more || saysMore true (binary q b y)) := by
  have hy := saysMore_of_exposed (e := y)
  rw [saysMore_binary, h, saysMore_binary q b y, exposed, needsCompare, needsCompare, hnumeric]
  grind

/-- A bar inside the right operand of an operator. -/
theorem saysMore_right {a e x : Expr} {p : BinaryOp} {outside more : Bool} (hnumeric : e.isNumeric = false)
    (h : saysMore true e = (a.exposed false true || outside || saysMore true a || more)) :
    saysMore true (binary p x e) =
      ((binary p x a).exposed false true || outside || saysMore true (binary p x a) || more) := by
  have hx := saysMore_of_exposed (e := x)
  rw [saysMore_binary, h, saysMore_binary p x a, exposed, needsCompare, needsCompare, hnumeric]
  grind

theorem saysMore_barred {l m : Level} {ts us : List Token} {a b : Expr} (ha : Reads (.expr l) ts a)
    (hb : Reads (.expr m) us b) :
    saysMore true (a.barred b) =
      (a.exposed false true || b.exposed true false || saysMore true a || saysMore true b) := by
  fun_induction barred a b generalizing l m ts us with
  | case1 p x a q b y hle ih =>
    obtain ⟨t, vs, ws, -, -, left, -⟩ := hb.split
    exact saysMore_left (isNumeric_barred _ _) (ih ha left)
  | case2 p x a q b y hlt ih =>
    obtain ⟨t, vs, ws, -, -, -, right⟩ := ha.split
    exact saysMore_right (isNumeric_barred _ _) (ih right hb)
  | case3 a q b y hbinary ih =>
    obtain ⟨t, vs, ws, -, -, left, -⟩ := hb.split
    exact saysMore_left (isNumeric_barred _ _) (ih ha left)
  | case4 p x a b hbinary ih =>
    obtain ⟨t, vs, ws, -, -, -, right⟩ := ha.split
    exact saysMore_right (isNumeric_barred _ _) (ih right hb)
  | case5 a b hbinary ih =>
    obtain ⟨vs, -, hoperand⟩ := ha.split
    rw [saysMore_negate, ih hoperand hb, exposed_of_tight hoperand.rank_le]
    rfl
  | case6 a b y hbinary hnegate ih =>
    obtain ⟨t, vs, ws, -, -, left, -⟩ := hb.split
    have hunary : Level.unary.rank ≤ b.level.rank := Nat.le_trans (by decide) left.rank_le
    rw [saysMore_union, ih ha left, saysMore_union, exposed_of_tight hunary]
    exact Bool.or_assoc ..
  | case7 a b _ hbinary' hbinary =>
    rw [exposed_of_tight (unary_le_level hbinary), exposed_of_tight (unary_le_level hbinary')]
    exact saysMore_union a b

theorem saysMore_barredAll {ts : List Token} {a : Expr} {es : List Expr} (ha : Reads (.expr .or) ts a)
    (hes : ∀ e ∈ es, e.startsMinus = false ∧ ∃ us, Reads (.expr .or) us e) :
    saysMore true (a.barredAll es) =
      (a.exposed false (!es.isEmpty) || exposedAmong true es || saysMore true a ||
        es.any (saysMore true)) := by
  induction es generalizing ts a with
  | nil =>
    have hexposed := saysMore_of_exposed (e := a)
    simp only [barredAll, exposedAmong, List.isEmpty_nil, Bool.not_true, List.any_nil, Bool.or_false]
    grind
  | cons e es ih =>
    obtain ⟨⟨hminus, us, he⟩, hes⟩ := List.forall_mem_cons.mp hes
    have hmore := ih (ha.barred he (by decide) hminus) hes
    have hexposed : e.exposed true false = true → e.exposed true (!es.isEmpty) = true :=
      exposed_mono id (by simp)
    rw [barredAll, hmore, exposed_barred, saysMore_barred ha he]
    simp only [exposedAmong, List.isEmpty_cons, Bool.not_false, List.any_cons]
    grind

theorem isNumeric_barredAll (a b : Expr) (es : List Expr) :
    ((a.barred b).barredAll es).isNumeric = false := by
  induction es generalizing a b with
  | nil => exact isNumeric_barred a b
  | cons e es ih => exact ih (a.barred b) e

theorem isNumeric_reread {e : Expr} (h : ∀ x ∈ e.subterms, x.items.length ≠ 1) :
    e.reread.isNumeric = e.isNumeric := by
  induction e using partsInduction with
  | h e ih =>
    cases e
    case literal value =>
      rw [reread, requoted]
      split <;> rfl
    case negate a | group a =>
      exact ih a List.mem_cons_self fun x hx => h x (mem_subterms_of_mem_parts List.mem_cons_self hx)
    case sequence items =>
      rcases items with _ | ⟨x, _ | ⟨y, more⟩⟩
      · rfl
      · exact absurd rfl (h _ (mem_subterms_self _))
      · exact isNumeric_barredAll _ _ _
    case continued a steps =>
      rcases reread_continued_cases a steps with ⟨_, heq⟩ | ⟨_, heq⟩ <;> rw [heq] <;> rfl
    all_goals rfl

theorem exposed_reread {e : Expr} (h : ∀ x ∈ e.subterms, x.items.length ≠ 1) (before behind : Bool) :
    e.reread.exposed before behind = e.exposed before behind := by
  induction e using partsInduction generalizing before behind with
  | h e ih =>
    cases e
    case literal value =>
      rw [reread, requoted]
      split <;> rfl
    case binary op a b =>
      have ha : ∀ x ∈ a.subterms, x.items.length ≠ 1 := fun x hx =>
        h x (mem_subterms_of_mem_parts List.mem_cons_self hx)
      have hb : ∀ x ∈ b.subterms, x.items.length ≠ 1 := fun x hx =>
        h x (mem_subterms_of_mem_parts (List.mem_cons_of_mem _ List.mem_cons_self) hx)
      rw [reread, exposed, exposed, isNumeric_reread ha, isNumeric_reread hb, ih a List.mem_cons_self ha,
        ih b (List.mem_cons_of_mem _ List.mem_cons_self) hb]
    case sequence items => cases items <;> rfl
    case continued a steps =>
      rcases reread_continued_cases a steps with ⟨_, heq⟩ | ⟨_, heq⟩ <;> rw [heq] <;> rfl
    all_goals rfl

theorem exposedAmong_rereadAll {es : List Expr}
    (h : ∀ e ∈ es, ∀ x ∈ e.subterms, x.items.length ≠ 1) (before : Bool) :
    exposedAmong before (rereadAll es) = exposedAmong before es := by
  induction es generalizing before with
  | nil => rfl
  | cons e es ih =>
    obtain ⟨he, hes⟩ := List.forall_mem_cons.mp h
    have hempty : (rereadAll es).isEmpty = es.isEmpty := by cases es <;> rfl
    rw [rereadAll, exposedAmong, exposedAmong, exposed_reread he, ih hes, hempty]

end Expr

namespace Grammar

/-- A sequence of one expression would be a group. -/
def SeveralPart : (k : Part) → k.Tree → Prop
  | .expr _, e => e.items.length ≠ 1
  | _, _ => True

theorem Reads.severalPart {k : Part} {ts : List Token} {x : k.Tree} (h : Reads k ts x) :
    SeveralPart k x := by
  induction h with
  | tighter _ ih => exact ih
  | binary hop => rcases Level.operator_eq_some hop with ⟨-, rfl⟩ | ⟨op, rfl, -⟩ <;> exact Nat.zero_ne_one
  | sequence _ many => exact many
  | negate | root | absolute | relative | continued | filter | variableRef | literal | number | call
    | group => exact Nat.zero_ne_one
  | noArguments | arguments | lastItem | item | lastStep | joined | self | parent | tested | noPredicates
    | predicate => trivial

theorem Reads.items_length {ts : List Token} {e x : Expr} (h : Reads (.expr .or) ts e)
    (hx : x ∈ e.subterms) : x.items.length ≠ 1 := by
  obtain ⟨us, hus⟩ := h.of_mem_subterms hx
  exact hus.severalPart

theorem needsCompare_reread {ts : List Token} {op : BinaryOp} {a b : Expr}
    (h : Reads (.expr .or) ts (.binary op a b)) :
    needsCompare op a.reread b.reread = needsCompare op a b := by
  have hitems : ∀ p ∈ (Expr.binary op a b).parts, ∀ x ∈ p.subterms, x.items.length ≠ 1 := fun p hp x hx =>
    h.items_length (Expr.mem_subterms_of_mem_parts hp hx)
  obtain ⟨ha, hb⟩ := List.forall_mem_cons.mp hitems
  rw [needsCompare, needsCompare, Expr.isNumeric_reread ha,
    Expr.isNumeric_reread (List.forall_mem_singleton.mp hb)]

/-- The items of a sequence are read back with bars between them. -/
theorem saysMore_sequence {ts : List Token} {items : List Expr}
    (h : Reads (.expr .or) ts (.sequence items))
    (hlegible : ∀ x ∈ (Expr.sequence items).subterms, x.Legible) :
    saysMore true (Expr.sequence items).reread =
      (Expr.exposedAmong false items || items.any fun e => saysMore true e.reread) := by
  have hread : ∀ e ∈ items, Reads (.expr .or) (spell e) e.reread := by
    intro e he
    obtain ⟨us, hus⟩ := h.partsRead e he
    exact hus.reread (fun x hx => hlegible x (Expr.mem_subterms_of_mem_parts he hx)) fun _ => by decide
  cases items with
  | nil => rfl
  | cons e es =>
    have hsigns := (hlegible _ (Expr.mem_subterms_self _)).signs
    have hlength : ∀ x ∈ e :: es, ∀ y ∈ x.subterms, y.items.length ≠ 1 := fun x hx y hy =>
      h.items_length (Expr.mem_subterms_of_mem_parts hx hy)
    obtain ⟨he, hes⟩ := List.forall_mem_cons.mp hread
    obtain ⟨helength, heslength⟩ := List.forall_mem_cons.mp hlength
    have hlater : ∀ f ∈ Expr.rereadAll es, f.startsMinus = false ∧ ∃ us, Reads (.expr .or) us f := by
      rw [Expr.rereadAll_eq_map]
      exact List.forall_mem_map.mpr fun f hf =>
        ⟨f.startsMinus_reread.trans (hsigns f hf), spell f, hes f hf⟩
    have hall := Expr.saysMore_barredAll he hlater
    have hempty : (Expr.rereadAll es).isEmpty = es.isEmpty := by cases es <;> rfl
    rw [Expr.exposed_reread helength, Expr.exposedAmong_rereadAll heslength, hempty,
      Expr.rereadAll_eq_map, List.any_map] at hall
    rw [Expr.exposedAmong, List.any_cons, ← Bool.or_assoc, Expr.reread, Expr.rereadAll_eq_map]
    exact hall

/-- What is read back from an expression without comparisons to replace has some just where a
comparison in a sequence is exposed. -/
theorem saysMore_reread {ts : List Token} {e : Expr} (h : Reads (.expr .or) ts e)
    (hlegible : ∀ x ∈ e.subterms, x.Legible)
    (hcompared : ∀ x ∈ e.subterms, x.isLater true = x.isSequence) :
    saysMore true e.reread = e.subterms.any fun x => Expr.exposedAmong false x.items := by
  induction e using Expr.partsInduction generalizing ts with
  | h e ih =>
    have hparts : (e.parts.any fun p => p.subterms.any fun x => Expr.exposedAmong false x.items) =
        e.parts.any fun p => saysMore true p.reread := by
      rw [Bool.eq_iff_iff, List.any_eq_true, List.any_eq_true]
      refine exists_congr fun p => and_congr_right fun hp => ?_
      obtain ⟨us, hus⟩ := h.partsRead p hp
      rw [ih p hp hus (fun x hx => hlegible x (Expr.mem_subterms_of_mem_parts hp hx))
        fun x hx => hcompared x (Expr.mem_subterms_of_mem_parts hp hx)]
    rw [Expr.any_subterms, hparts]
    cases e
    case literal value => exact Expr.any_requoted (fun _ => rfl) (fun _ _ => rfl) value
    case sequence items => exact saysMore_sequence h hlegible
    case binary op a b =>
      have hneeds : needsCompare op a b = false := hcompared _ (Expr.mem_subterms_self _)
      rw [saysMore, Expr.any_reread rfl (by simp) rfl, Expr.reread, Expr.isLater, needsCompare_reread h,
        hneeds]
      rfl
    case continued a steps =>
      rw [saysMore, Expr.any_reread rfl (by simp) rfl]
      rcases Expr.reread_continued_cases a steps with ⟨_, heq⟩ | ⟨_, heq⟩ <;> rw [heq] <;> rfl
    all_goals
      rw [saysMore, Expr.any_reread rfl (by simp) rfl]
      rfl

end Grammar

end Schematron.XPath
