import Schematron.Proofs.XPath.Derivation
import Schematron.Proofs.XPath.Rewriting

/-!
The operands of the union that the text of a sequence is read as.
-/

namespace Schematron.XPath

open Schematron.XPath.Expr (compared comparedAll comparedSteps)

namespace Expr

/-- The operands of a union, on both sides of its bars. -/
def operands : Expr → List Expr
  | union a b => a.operands ++ b.operands
  | e => [e]

def isUnion : Expr → Bool
  | union _ _ => true
  | _ => false

/-- An operator other than a bar is on top of the expression. -/
def isOperation : Expr → Bool
  | binary _ _ _ | negate _ => true
  | _ => false

/-- The union of two expressions, whose bars group to the left. -/
def joined (a b : Expr) : Expr := b.operands.foldl union a

mutual
/-- What an expression is in the first version of the language, its comparisons apart: a string with both
kinds of quotes is joined from pieces, and a sequence is the union of its items. -/
def translated : Expr → Expr
  | literal value => requoted value
  | number spelling => number spelling
  | variableRef name => variableRef name
  | call name args => call name (translatedAll args)
  | negate e => negate (translated e)
  | binary op a b => binary op (translated a) (translated b)
  | union a b => union (translated a) (translated b)
  | group e => group (translated e)
  | sequence [] => absolute [.bare .parent .node]
  | sequence (e :: es) => group ((translatedAll es).foldl joined (translated e))
  | filter e preds => filter (translated e) (translatedAll preds)
  | absolute steps => absolute (translatedSteps steps)
  | relative steps => relative (translatedSteps steps)
  | continued (sequence []) steps => absolute (.bare .parent .node :: translatedSteps steps)
  | continued e steps => continued (translated e) (translatedSteps steps)

def translatedAll : List Expr → List Expr
  | [] => []
  | e :: es => translated e :: translatedAll es

def translatedSteps : List (Step Expr) → List (Step Expr)
  | [] => []
  | ⟨axis, test, preds⟩ :: steps => ⟨axis, test, translatedAll preds⟩ :: translatedSteps steps
end

/-- No item of a sequence in the expression has an operator on top that a bar could come under. -/
def KeepsApart (e : Expr) : Prop := ∀ x ∈ e.subterms, ∀ i ∈ x.items, i.isOperation = false

theorem keepsApart_iff (e : Expr) :
    e.KeepsApart ↔ (∀ i ∈ e.items, i.isOperation = false) ∧ ∀ p ∈ e.parts, p.KeepsApart :=
  forall_mem_subterms

theorem operands_ne_nil (e : Expr) : e.operands ≠ [] := by
  fun_induction operands e with
  | case1 a b iha => simp [iha]
  | case2 => simp

theorem operands_eq_self {e : Expr} (h : e.isUnion = false) : e.operands = [e] := by
  cases e
  case union => cases h
  all_goals rfl

theorem operands_of_operation {e : Expr} (h : e.isOperation = true) : e.operands = [e] := by
  cases e
  case binary | negate => rfl
  all_goals cases h

/-- An operand is no union itself. -/
theorem operands_operand {e x : Expr} (h : x ∈ e.operands) : x.operands = [x] := by
  fun_induction operands e with
  | case1 a b iha ihb =>
    rcases List.mem_append.mp h with h | h
    · exact iha h
    · exact ihb h
  | case2 e hunion =>
    obtain rfl := List.mem_singleton.mp h
    exact operands.eq_2 _ hunion

theorem operands_foldl_union (a : Expr) (es : List Expr) :
    (es.foldl union a).operands = a.operands ++ es.flatMap operands := by
  induction es generalizing a with
  | nil => simp
  | cons e es ih => simp [ih, operands]

theorem operands_joined (a b : Expr) : (joined a b).operands = a.operands ++ b.operands := by
  have hoperands : b.operands.flatMap operands = b.operands := by
    rw [List.flatMap_congr fun x hx => operands_operand hx, List.flatMap_singleton']
  rw [joined, operands_foldl_union, hoperands]

theorem operands_foldl_joined (a : Expr) (es : List Expr) :
    (es.foldl joined a).operands = a.operands ++ es.flatMap operands := by
  induction es generalizing a with
  | nil => simp
  | cons e es ih => simp [ih, operands_joined]

theorem isOperation_joined (a b : Expr) (h : a.isOperation = false) : (joined a b).isOperation = false := by
  unfold joined
  generalize b.operands = es
  induction es generalizing a with
  | nil => exact h
  | cons e es ih => exact ih (union a e) rfl

theorem isOperation_eq_false {e : Expr} (h : Grammar.Level.union.rank ≤ e.level.rank) :
    e.isOperation = false := by
  cases e
  case binary op a b => exact absurd op.rank_level_lt (Nat.not_lt.mpr (Nat.le_trans (by decide) h))
  case negate a => exact absurd (show 8 ≤ 7 from h) (by decide)
  all_goals rfl

theorem isUnion_eq_false {e : Expr} (h : Grammar.Level.path.rank ≤ e.level.rank) : e.isUnion = false := by
  cases e
  case union a b => exact absurd (show 9 ≤ 8 from h) (by decide)
  all_goals rfl

/-- The unions on the way down to the left are as they are read: no operator is on top of the left
operand, and the right one is no union. -/
def GroupsLeft : Expr → Prop
  | union a b => a.GroupsLeft ∧ a.isOperation = false ∧ b.isUnion = false
  | _ => True

theorem barred_eq_joined {a b : Expr} (ha : a.isOperation = false) (hb : b.isOperation = false)
    (hleft : b.GroupsLeft) : a.barred b = joined a b := by
  fun_induction barred a b with
  | case6 a b y hbinary hnegate ih =>
    obtain ⟨hgroups, htight, hright⟩ := hleft
    rw [ih ha htight hgroups, joined, joined, operands, operands_eq_self hright, List.foldl_append]
    rfl
  | case7 a b _ hbinary' hbinary hnegate hunion =>
    rw [joined, operands.eq_2 b hunion]
    rfl
  | case1 | case2 | case4 | case5 => cases ha
  | case3 => cases hb

/-- An operator next to a bar stays on top, but for a minus sign, which no bar may stand before. -/
theorem isOperation_barred {a b : Expr} (hminus : b.startsMinus = false) :
    (a.barred b).isOperation = (a.isOperation || b.isOperation) := by
  fun_induction barred a b with
  | case1 | case2 | case4 | case5 => rfl
  | case3 a => exact (Bool.or_true _).symm
  | case6 a b y hbinary hnegate =>
    rw [isOperation_eq_false (union_le_level hbinary hnegate)]
    rfl
  | case7 a b _ hbinary' hbinary hnegate =>
    have hunion := union_le_level hbinary' fun x heq => by
      rw [heq] at hminus
      cases hminus
    rw [isOperation_eq_false (union_le_level hbinary hnegate), isOperation_eq_false hunion]
    rfl

theorem isOperation_barredAll {a : Expr} {es : List Expr} (hminus : ∀ e ∈ es, e.startsMinus = false) :
    (a.barredAll es).isOperation = (a.isOperation || es.any isOperation) := by
  induction es generalizing a with
  | nil => simp [barredAll]
  | cons e es ih =>
    obtain ⟨he, hes⟩ := List.forall_mem_cons.mp hminus
    rw [barredAll, ih hes, isOperation_barred he, List.any_cons, Bool.or_assoc]

theorem barredAll_eq_joined {a : Expr} {es : List Expr} (ha : a.isOperation = false)
    (hes : ∀ e ∈ es, e.isOperation = false ∧ e.GroupsLeft) : a.barredAll es = es.foldl joined a := by
  induction es generalizing a with
  | nil => rfl
  | cons e es ih =>
    obtain ⟨⟨htight, hleft⟩, hes⟩ := List.forall_mem_cons.mp hes
    rw [barredAll, barred_eq_joined ha htight hleft, ih (isOperation_joined a e ha) hes, List.foldl_cons]

theorem translatedAll_eq_map (es : List Expr) : translatedAll es = es.map translated := by
  induction es with
  | nil => rfl
  | cons e es ih => rw [translatedAll, ih, List.map_cons]

theorem translated_continued {e : Expr} (h : e ≠ sequence []) (steps : List (Step Expr)) :
    (continued e steps).translated = continued e.translated (translatedSteps steps) := by
  cases e
  case sequence items =>
    cases items with
    | nil => exact absurd rfl h
    | cons => rfl
  all_goals rfl

theorem isOperation_reread (e : Expr) : e.reread.isOperation = e.isOperation := by
  cases e
  case literal value =>
    rw [reread, requoted]
    split <;> rfl
  case sequence items => cases items <;> rfl
  case continued a steps =>
    rcases reread_continued_cases a steps with ⟨_, heq⟩ | ⟨_, heq⟩ <;> rw [heq] <;> rfl
  all_goals rfl

theorem isUnion_reread (e : Expr) : e.reread.isUnion = e.isUnion := by
  cases e
  case literal value =>
    rw [reread, requoted]
    split <;> rfl
  case sequence items => cases items <;> rfl
  case continued a steps =>
    rcases reread_continued_cases a steps with ⟨_, heq⟩ | ⟨_, heq⟩ <;> rw [heq] <;> rfl
  all_goals rfl

theorem isUnion_translated (e : Expr) : e.translated.isUnion = e.isUnion := by
  cases e
  case literal value =>
    rw [translated, requoted]
    split <;> rfl
  case sequence items => cases items <;> rfl
  case continued a steps =>
    by_cases ha : a = sequence []
    · rw [ha]
      rfl
    · rw [translated_continued ha]
      rfl
  all_goals rfl

theorem groupsLeft_reread {e : Expr} (h : e.GroupsLeft) : e.reread.GroupsLeft := by
  induction e using partsInduction with
  | h e ih =>
    by_cases hunion : e.isUnion = true
    · cases e
      case union a b =>
        obtain ⟨hleft, htight, hright⟩ := h
        exact ⟨ih a List.mem_cons_self hleft, (isOperation_reread a).trans htight,
          (isUnion_reread b).trans hright⟩
      all_goals cases hunion
    · have hsingle := (isUnion_reread e).trans (Bool.eq_false_iff.mpr hunion)
      generalize e.reread = r at hsingle
      cases r
      case union => cases hsingle
      all_goals trivial

/-- The operands are as many as are meant, and where they are meant, the expression is. -/
theorem operands_reread_iff (e : Expr) : e.reread.operands.length = e.translated.operands.length ∧
    (e.reread.operands = e.translated.operands ↔ e.reread = e.translated) := by
  induction e using partsInduction with
  | h e ih =>
    by_cases hunion : e.isUnion = true
    · cases e
      case union a b =>
        obtain ⟨halength, ha⟩ := ih a List.mem_cons_self
        obtain ⟨hblength, hb⟩ := ih b (List.mem_cons_of_mem _ List.mem_cons_self)
        simp only [reread, translated, operands, List.length_append, halength, hblength, union.injEq, ← ha,
          ← hb, true_and]
        refine ⟨fun h => List.append_inj h halength, fun hboth => ?_⟩
        rw [hboth.1, hboth.2]
      all_goals cases hunion
    · have hsingle := Bool.eq_false_iff.mpr hunion
      rw [operands_eq_self ((isUnion_reread e).trans hsingle),
        operands_eq_self ((isUnion_translated e).trans hsingle)]
      exact ⟨rfl, by simp⟩

theorem flatMap_operands_iff (es : List Expr) :
    (es.flatMap fun e => e.reread.operands) = (es.flatMap fun e => e.translated.operands) ↔
      ∀ e ∈ es, e.reread = e.translated := by
  induction es with
  | nil => simp
  | cons e es ih =>
    obtain ⟨hlength, hoperands⟩ := operands_reread_iff e
    rw [List.flatMap_cons, List.flatMap_cons, List.forall_mem_cons, ← ih, ← hoperands]
    refine ⟨fun h => List.append_inj h hlength, fun hboth => ?_⟩
    rw [hboth.1, hboth.2]

theorem rereadAll_eq_iff (es : List Expr) :
    rereadAll es = translatedAll es ↔ ∀ e ∈ es, e.reread = e.translated := by
  rw [rereadAll_eq_map, translatedAll_eq_map, List.map_inj_left]

theorem rereadSteps_eq_iff (ss : List (Step Expr)) :
    rereadSteps ss = translatedSteps ss ↔ ∀ p ∈ ss.flatMap (·.predicates), p.reread = p.translated := by
  induction ss with
  | nil => simp [rereadSteps, translatedSteps]
  | cons s ss ih =>
    rw [rereadSteps, translatedSteps, List.cons.injEq, ih, List.flatMap_cons, List.forall_mem_append,
      rereadAll_eq_map, translatedAll_eq_map, Step.mk.injEq, List.map_inj_left]
    simp only [true_and]

/-- What is meant by a sequence has the operands of its items. -/
theorem operands_translatedAll (e : Expr) (es : List Expr) :
    ((translatedAll es).foldl joined e.translated).operands =
      (e :: es).flatMap fun i => i.translated.operands := by
  rw [operands_foldl_joined, translatedAll_eq_map, List.flatMap_map]
  rfl

section

variable {e : Expr} {es : List Expr} (hleft : ∀ i ∈ e :: es, i.GroupsLeft)

include hleft

/-- Tight items with bars between them are read as the union of all their operands. -/
theorem barredAll_reread_eq (htight : ∀ i ∈ e :: es, i.isOperation = false) :
    e.reread.barredAll (rereadAll es) = (rereadAll es).foldl joined e.reread := by
  obtain ⟨-, hleft⟩ := List.forall_mem_cons.mp hleft
  obtain ⟨he, hes⟩ := List.forall_mem_cons.mp htight
  refine barredAll_eq_joined ((isOperation_reread e).trans he) ?_
  rw [rereadAll_eq_map]
  exact List.forall_mem_map.mpr fun i hi =>
    ⟨(isOperation_reread i).trans (hes i hi), groupsLeft_reread (hleft i hi)⟩

/-- The operands that are read are those of the items just where all items are tight and read as they are
meant. -/
theorem operands_barredAll_iff (hmany : es ≠ []) (hminus : ∀ i ∈ es, i.startsMinus = false) :
    (e.reread.barredAll (rereadAll es)).operands = ((e :: es).flatMap fun i => i.translated.operands) ↔
      (∀ i ∈ e :: es, i.isOperation = false) ∧ ∀ i ∈ e :: es, i.reread = i.translated := by
  have hoperands (htight : ∀ i ∈ e :: es, i.isOperation = false) :
      (e.reread.barredAll (rereadAll es)).operands = (e :: es).flatMap fun i => i.reread.operands := by
    rw [barredAll_reread_eq hleft htight, operands_foldl_joined, rereadAll_eq_map, List.flatMap_map,
      List.flatMap_cons]
  refine ⟨fun h => ?_, fun ⟨htight, hmeant⟩ => ?_⟩
  · have htight : ∀ i ∈ e :: es, i.isOperation = false := by
      -- else what is read is one operand, and the items have more
      by_contra hloose
      have hall : (e.reread.barredAll (rereadAll es)).isOperation = true := by
        rw [isOperation_barredAll, isOperation_reread, rereadAll_eq_map, List.any_map]
        · simpa [isOperation_reread, Function.comp_def, -forall_eq_or_imp] using hloose
        · rw [rereadAll_eq_map]
          exact List.forall_mem_map.mpr fun i hi => i.startsMinus_reread.trans (hminus i hi)
      rw [operands_of_operation hall] at h
      obtain ⟨f, fs, rfl⟩ := List.exists_cons_of_ne_nil hmany
      have hlength := congrArg List.length h
      have he := List.length_pos_iff.mpr (operands_ne_nil e.translated)
      have hf := List.length_pos_iff.mpr (operands_ne_nil f.translated)
      simp only [List.flatMap_cons, List.length_append, List.length_singleton] at hlength
      omega
    exact ⟨htight, (flatMap_operands_iff _).mp ((hoperands htight).symm.trans h)⟩
  · rw [hoperands htight]
    exact (flatMap_operands_iff _).mpr hmeant

/-- A sequence is read as it is meant just where its items are all the operands that are read. -/
theorem reread_sequence_iff (hmany : es ≠ []) (hminus : ∀ i ∈ es, i.startsMinus = false) :
    (sequence (e :: es)).reread = (sequence (e :: es)).translated ↔
      (e.reread.barredAll (rereadAll es)).operands = (e :: es).flatMap fun i => i.translated.operands := by
  rw [reread, translated, group.injEq, ← operands_translatedAll]
  refine ⟨congrArg operands, fun h => ?_⟩
  rw [operands_translatedAll, operands_barredAll_iff hleft hmany hminus] at h
  obtain ⟨htight, hmeant⟩ := h
  rw [barredAll_reread_eq hleft htight, (rereadAll_eq_iff es).mpr (List.forall_mem_cons.mp hmeant).2,
    (List.forall_mem_cons.mp hmeant).1]

end

end Expr

namespace Grammar

/-- The expression is read from a run of the tokens. -/
def Within (ts : List Token) (e : Expr) : Prop := ∃ us, us <:+: ts ∧ Reads (.expr .or) us e

theorem Within.mono {ts us : List Token} {e : Expr} (h : Within ts e) (hrun : ts <:+: us) :
    Within us e := by
  obtain ⟨vs, hvs, hreads⟩ := h
  exact ⟨vs, hvs.trans hrun, hreads⟩

/-- All that is in an expression is read from runs of its tokens when all that is in its parts is. -/
theorem within_subterms {l : Level} {ts : List Token} {e : Expr} (h : Reads (.expr l) ts e)
    (hparts : ∀ p ∈ e.parts, ∀ x ∈ p.subterms, Within ts x) : ∀ x ∈ e.subterms, Within ts x :=
  Expr.forall_mem_subterms.mpr ⟨⟨ts, List.infix_rfl, h.loosest⟩, hparts⟩

/-- All that is in the expressions of a part is read from runs of its tokens. -/
def WithinPart (k : Part) (ts : List Token) (x : k.Tree) : Prop :=
  ∀ e ∈ k.exprs x, ∀ y ∈ e.subterms, Within ts y

theorem WithinPart.mono {k : Part} {ts us : List Token} {x : k.Tree} (h : WithinPart k ts x)
    (hrun : ts <:+: us) : ∀ e ∈ k.exprs x, ∀ y ∈ e.subterms, Within us y :=
  fun e he y hy => (h e he y hy).mono hrun

theorem exprs_between {t : Token} {between : List (Step Expr)} (ht : stepOp t = some between)
    (ss : List (Step Expr)) : (between ++ ss).flatMap (·.predicates) = ss.flatMap (·.predicates) := by
  rw [List.flatMap_append, (later_of_between (between_iff.mpr ht)).2, List.nil_append]

theorem Reads.withinPart {k : Part} {ts : List Token} {x : k.Tree} (h : Reads k ts x) :
    WithinPart k ts x := by
  induction h with
  | tighter _ ih | arguments _ ih | lastItem _ ih => exact ih
  | @binary l t join ts us a b op left right ihl ihr =>
    have ha := ihl.mono (List.prefix_append ts (t :: us)).isInfix
    have hb := ihr.mono ((List.suffix_cons t us).trans (List.suffix_append ts (t :: us))).isInfix
    refine List.forall_mem_singleton.mpr (within_subterms (.binary op left right) ?_)
    rcases Level.operator_eq_some op with ⟨-, rfl⟩ | ⟨o, rfl, -⟩ <;>
      exact List.forall_mem_append.mpr ⟨ha, hb⟩
  | negate h ih =>
    exact List.forall_mem_singleton.mpr (within_subterms (.negate h)
      (ih.mono (List.suffix_cons _ _).isInfix))
  | root => exact List.forall_mem_singleton.mpr (within_subterms .root (List.forall_mem_nil _))
  | absolute ht h ih =>
    refine List.forall_mem_singleton.mpr (within_subterms (.absolute ht h) ?_)
    rw [Expr.parts, exprs_between ht]
    exact ih.mono (List.suffix_cons _ _).isInfix
  | relative h ih => exact List.forall_mem_singleton.mpr (within_subterms (.relative h) ih)
  | @continued t b ts us e ss start ht h ihe ihs =>
    have he := ihe.mono (List.prefix_append ts (t :: us)).isInfix
    have hs := ihs.mono ((List.suffix_cons t us).trans (List.suffix_append ts (t :: us))).isInfix
    refine List.forall_mem_singleton.mpr (within_subterms (.continued start ht h) ?_)
    rw [Expr.parts, exprs_between ht]
    exact List.forall_mem_append.mpr ⟨he, hs⟩
  | @filter ts us e preds h some hp ihe ihp =>
    have he := ihe.mono (List.prefix_append ts us).isInfix
    have hps := ihp.mono (List.suffix_append ts us).isInfix
    exact List.forall_mem_singleton.mpr (within_subterms (.filter h some hp)
      (List.forall_mem_append.mpr ⟨he, hps⟩))
  | variableRef name =>
    exact List.forall_mem_singleton.mpr (within_subterms (.variableRef name) (List.forall_mem_nil _))
  | literal value =>
    exact List.forall_mem_singleton.mpr (within_subterms (.literal value) (List.forall_mem_nil _))
  | number spelling =>
    exact List.forall_mem_singleton.mpr (within_subterms (.number spelling) (List.forall_mem_nil _))
  | @call name ts args h ih =>
    exact List.forall_mem_singleton.mpr (within_subterms (.call name h)
      (ih.mono ⟨[.functionName name, .lparen], [.rparen], by simp⟩))
  | @group ts e h ih =>
    exact List.forall_mem_singleton.mpr (within_subterms (.group h)
      (ih.mono ⟨[.lparen], [.rparen], by simp⟩))
  | @sequence ts items h many ih =>
    exact List.forall_mem_singleton.mpr (within_subterms (.sequence h many)
      (ih.mono ⟨[.lparen], [.rparen], by simp⟩))
  | noArguments | self | parent | noPredicates => exact List.forall_mem_nil _
  | @item ts us e es h more ihe ihs =>
    have he := ihe.mono (List.prefix_append ts (.comma :: us)).isInfix
    have hs := ihs.mono ((List.suffix_cons _ us).trans (List.suffix_append ts (.comma :: us))).isInfix
    exact List.forall_mem_append.mpr ⟨he, hs⟩
  | lastStep _ ih =>
    rw [WithinPart, Part.exprs, List.flatMap_cons, List.flatMap_nil, List.append_nil]
    exact ih
  | @joined t between ts us s ss h ht more ihs ihss =>
    have hs := ihs.mono (List.prefix_append ts (t :: us)).isInfix
    have hss := ihss.mono ((List.suffix_cons t us).trans (List.suffix_append ts (t :: us))).isInfix
    rw [WithinPart, Part.exprs, List.flatMap_cons, exprs_between ht]
    exact List.forall_mem_append.mpr ⟨hs, hss⟩
  | @tested as ts ps a test preds ha ht hp ih =>
    exact ih.mono ((List.suffix_append ts ps).trans (List.suffix_append as (ts ++ ps))).isInfix
  | @predicate ts us e es h more ihe ihs =>
    have hts : ts <:+: .lbracket :: (ts ++ .rbracket :: us) := ⟨[.lbracket], .rbracket :: us, by simp⟩
    have hus : us <:+: .lbracket :: (ts ++ .rbracket :: us) :=
      ⟨.lbracket :: (ts ++ [.rbracket]), [], by simp⟩
    exact List.forall_mem_append.mpr ⟨ihe.mono hts, ihs.mono hus⟩

theorem Reads.groupsLeft {l : Level} {ts : List Token} {e : Expr} (h : Reads (.expr l) ts e) :
    e.GroupsLeft := by
  induction e using Expr.partsInduction generalizing l ts with
  | h e ih =>
    cases e
    case union a b =>
      obtain ⟨t, us, vs, -, -, left, right⟩ := h.split
      exact ⟨ih a List.mem_cons_self left, Expr.isOperation_eq_false left.rank_le,
        Expr.isUnion_eq_false right.rank_le⟩
    all_goals trivial

/-- The text of an expression is read as it is meant just where all items of its sequences are tight. -/
theorem Reads.reread_eq_translated_iff {ts : List Token} {e : Expr} (h : Reads (.expr .or) ts e)
    (hlegible : ∀ x ∈ e.subterms, x.Legible) : e.reread = e.translated ↔ e.KeepsApart := by
  induction e using Expr.partsInduction generalizing ts with
  | h e ih =>
    have hread : ∀ p ∈ e.parts, ∃ us, Reads (.expr .or) us p := h.partsRead
    have hparts : ∀ p ∈ e.parts, (p.reread = p.translated ↔ p.KeepsApart) := by
      intro p hp
      obtain ⟨us, hus⟩ := hread p hp
      exact ih p hp hus fun x hx => hlegible x (Expr.mem_subterms_of_mem_parts hp hx)
    rw [e.keepsApart_iff, ← forall₂_congr hparts]
    cases e
    case sequence items =>
      match items with
      | [] => exact iff_of_true rfl ⟨List.forall_mem_nil _, List.forall_mem_nil _⟩
      | [i] => exact absurd rfl (h.items_length (Expr.mem_subterms_self _))
      | i :: j :: more =>
        have hleft : ∀ x ∈ i :: j :: more, x.GroupsLeft := fun x hx =>
          (hread x hx).elim fun _ hus => hus.groupsLeft
        have hsigns := (hlegible _ (Expr.mem_subterms_self _)).signs
        rw [Expr.reread_sequence_iff hleft (List.cons_ne_nil j more) hsigns,
          Expr.operands_barredAll_iff hleft (List.cons_ne_nil j more) hsigns]
        rfl
    case continued a steps =>
      by_cases ha : a = .sequence []
      · subst ha
        simp [Expr.reread, Expr.translated, Expr.parts, Expr.items, Expr.rereadSteps_eq_iff]
      · simp [Expr.reread_continued ha, Expr.translated_continued ha, Expr.parts, Expr.items,
          Expr.rereadSteps_eq_iff]
    all_goals
      simp [Expr.reread, Expr.translated, Expr.parts, Expr.items, Expr.rereadSteps_eq_iff,
        Expr.rereadAll_eq_iff]

/-- The operands that the text of a sequence is read with are those of its items just where all in it is
kept apart. -/
theorem Reads.operands_sequence_iff {ts : List Token} {e : Expr} {es : List Expr}
    (h : Reads (.expr .or) ts (.sequence (e :: es)))
    (hlegible : ∀ x ∈ (Expr.sequence (e :: es)).subterms, x.Legible) :
    (e.reread.barredAll (Expr.rereadAll es)).operands = ((e :: es).flatMap fun i => i.translated.operands) ↔
      (Expr.sequence (e :: es)).KeepsApart := by
  have hmany : es ≠ [] := fun heq => h.items_length (Expr.mem_subterms_self _) (congrArg (·.length + 1) heq)
  have hleft : ∀ i ∈ e :: es, i.GroupsLeft := fun i hi =>
    (h.partsRead i hi).elim fun _ hus => hus.groupsLeft
  have hsigns := (hlegible _ (Expr.mem_subterms_self _)).signs
  rw [← Expr.reread_sequence_iff hleft hmany hsigns, h.reread_eq_translated_iff hlegible]

end Grammar

open Grammar

theorem Fit.of_run {ts us : List Token} (h : Fit us) (hrun : ts <:+: us) : Fit ts := by
  obtain ⟨before, behind, rfl⟩ := hrun
  exact h.of_append.1.of_append.2

/-- The text of an expression in a parsed one has the tokens of its tree. -/
theorem lexes_emit_of_mem {source : String} {p : Parsed} (h : parse source = .ok p) {x : Expr}
    (hx : x ∈ p.expr.subterms) (comparisons : Bool) :
    ∃ ts, Reads (.expr .or) ts x ∧
      Lexes .doubled true (emit comparisons x).toList (spell (compared comparisons x)) := by
  obtain ⟨ts, hlex, hreads⟩ := reads_of_parse h
  obtain ⟨us, hrun, hus⟩ := hreads.withinPart p.expr List.mem_cons_self x hx
  have hwritten : Written .doubled comparisons x :=
    hus.written .doubled comparisons (hlex.fits.1.of_run hrun)
  have hall := hwritten [] [] apart_nil (by simp) (.done rfl)
  rw [List.append_nil, List.append_nil] at hall
  exact ⟨us, hus, hall⟩

/-- A sequence of several items, with its comparisons replaced where the text replaces them. -/
theorem compared_sequence (comparisons : Bool) (items : List Expr) :
    compared comparisons (.sequence items) = .sequence (items.map (compared comparisons)) := by
  rw [compared, Expr.comparedAll_eq_map]

/-- The text of a sequence is read as the union of its items in parentheses just where it can be read at
all and no item of a sequence in it has an operator on top. The bars take the nearest operands of such an
operator otherwise. -/
theorem parse_emit_sequence_iff {source : String} {p : Parsed} (h : parse source = .ok p)
    {items : List Expr} (hitems : .sequence items ∈ p.expr.subterms) (hmany : 2 ≤ items.length)
    (comparisons : Bool) :
    (∃ p' u, parse (emit comparisons (.sequence items)) = .ok p' ∧ p'.expr = .group u ∧
        u.operands = items.flatMap fun i => (compared comparisons i).translated.operands) ↔
      ∀ x ∈ (compared comparisons (.sequence items)).subterms,
        x.Legible ∧ ∀ i ∈ x.items, i.isOperation = false := by
  obtain ⟨ts, hreads, hlex⟩ := lexes_emit_of_mem h hitems comparisons
  obtain ⟨us, hcompared⟩ := hreads.compared comparisons
  obtain ⟨i, rest, rfl⟩ := List.exists_cons_of_length_pos (Nat.lt_of_lt_of_le Nat.zero_lt_two hmany)
  rw [compared_sequence, List.map_cons] at *
  have hoperands := hcompared.operands_sequence_iff
  rw [← List.map_cons, List.flatMap_map] at hoperands
  refine ⟨fun ⟨p', u, hp', hu, happart⟩ x hx => ?_, fun hall => ?_⟩
  · have hlegible := (parse_iff_legible hlex hcompared).mp ⟨p', hp'⟩
    cases hp'.symm.trans (parse_of_legible hlex hcompared hlegible)
    cases hu
    exact ⟨hlegible x hx, (hoperands hlegible).mp happart x hx⟩
  · have hlegible := fun x hx => (hall x hx).1
    exact ⟨_, _, parse_of_legible hlex hcompared hlegible, rfl,
      (hoperands hlegible).mpr fun x hx => (hall x hx).2⟩

section

/-- The tree of `@name`. -/
private def namedAttribute (name : String) : Expr := .relative [⟨.attributes, nameTest name, []⟩]

private theorem reads_namedAttribute {l : Level} (name : String) (hl : l.rank ≤ Level.path.rank) :
    Reads (.expr l) [.atSign, .nameTest name] (namedAttribute name) :=
  (Reads.attributeNamed name).loosen hl

/-- The items of `(@a, @b | @c)`. -/
private def withUnion : List Expr :=
  [namedAttribute "a", .union (namedAttribute "b") (namedAttribute "c")]

theorem parse_emit_sequence_iff_union :
    parse "(@a, @b | @c)" = .ok ⟨.sequence withUnion, true⟩ ∧
      (∀ x ∈ (compared true (.sequence withUnion)).subterms,
        x.Legible ∧ ∀ i ∈ x.items, i.isOperation = false) ∧
      ∃ p' u, parse (emit true (.sequence withUnion)) = .ok p' ∧ p'.expr = .group u ∧
        u.operands = [namedAttribute "a", namedAttribute "b", namedAttribute "c"] := by
  have hlex : Lexes .doubled true "(@a, @b | @c)".toList
      [.lparen, .atSign, .nameTest "a", .comma, .atSign, .nameTest "b", .pipe, .atSign, .nameTest "c",
        .rparen] := by
    iterate 10 refine .more rfl rfl ?_
    exact .done rfl
  have hunion := Reads.binary (l := .union) (t := .pipe) rfl (reads_namedAttribute "b" (by decide))
    (reads_namedAttribute "c" (by decide))
  have hitems := Reads.item (reads_namedAttribute "a" (by decide)) (.lastItem hunion.loosest)
  have hparse := parse_of_reads hlex (Reads.sequence (.arguments hitems) (by decide)).of_primary
  have hapart : ∀ x ∈ (compared true (.sequence withUnion)).subterms,
      x.Legible ∧ ∀ i ∈ x.items, i.isOperation = false := by
    decide
  have hread := (parse_emit_sequence_iff hparse (Expr.mem_subterms_self _) (by decide) true).mpr hapart
  exact ⟨hparse, hapart, hread⟩

/-- The bar takes an operand of the operator before it. -/
theorem parse_emit_sequence_exposed :
    parse "(@a or @b, @c)" =
        .ok ⟨.sequence [.binary .or (namedAttribute "a") (namedAttribute "b"), namedAttribute "c"], true⟩ ∧
      emit true (.sequence [.binary .or (namedAttribute "a") (namedAttribute "b"), namedAttribute "c"]) =
        "(@a or @b | @c)" ∧
      parse "(@a or @b | @c)" =
        .ok ⟨.group (.binary .or (namedAttribute "a") (.union (namedAttribute "b") (namedAttribute "c"))),
          false⟩ := by
  have hlex : Lexes .doubled true "(@a or @b, @c)".toList
      [.lparen, .atSign, .nameTest "a", .operatorName "or", .atSign, .nameTest "b", .comma, .atSign,
        .nameTest "c", .rparen] := by
    iterate 10 refine .more rfl rfl ?_
    exact .done rfl
  have hor := Reads.binary (l := .or) (t := .operatorName "or") rfl
    (reads_namedAttribute "a" (by decide)) (reads_namedAttribute "b" (by decide))
  have hitems := Reads.item hor (.lastItem (reads_namedAttribute "c" (by decide)))
  have hread : Reads (.expr .or) _ _ := (Reads.sequence (.arguments hitems) (by decide)).of_primary
  have hparse := parse_of_reads hlex hread
  obtain ⟨ts, hcompared⟩ := hread.compared true
  have hagain := parse_of_legible (lexes_emit hparse true) hcompared (by decide)
  have hreread : (compared true (.sequence [.binary .or (namedAttribute "a") (namedAttribute "b"),
        namedAttribute "c"])).reread =
      .group (.binary .or (namedAttribute "a") (.union (namedAttribute "b") (namedAttribute "c"))) := by
    show Expr.group (Expr.barred (.binary .or _ (namedAttribute "b")) (namedAttribute "c")) = _
    simp only [namedAttribute, Expr.barred]
    rfl
  rw [hreread] at hagain
  exact ⟨hparse, rfl, hagain⟩

end

end Schematron.XPath
