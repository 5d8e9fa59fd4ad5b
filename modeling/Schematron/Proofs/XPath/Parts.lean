import Mathlib.Data.List.Flatten
import Schematron.XPath.Expr

/-!
Induction over expressions: what holds of an expression whenever it holds of its parts holds of all.
-/

namespace Schematron.XPath.Expr

/-- The expressions that an expression is put together from. -/
def parts : Expr → List Expr
  | literal _ | number _ | variableRef _ => []
  | call _ args => args
  | negate a | group a => [a]
  | binary _ a b | union a b => [a, b]
  | sequence items => items
  | filter a preds => a :: preds
  | absolute steps | relative steps => steps.flatMap (·.predicates)
  | continued a steps => a :: steps.flatMap (·.predicates)

theorem subtermsAll_eq (es : List Expr) : subtermsAll es = es.flatMap subterms := by
  induction es with
  | nil => rfl
  | cons e es ih => rw [subtermsAll, ih, List.flatMap_cons]

theorem subtermsSteps_eq (ss : List (Step Expr)) :
    subtermsSteps ss = (ss.flatMap (·.predicates)).flatMap subterms := by
  induction ss with
  | nil => rfl
  | cons s ss ih =>
    rw [subtermsSteps, ih, subtermsAll_eq, List.flatMap_cons, List.flatMap_append]

theorem subterms_eq (e : Expr) : e.subterms = e :: e.parts.flatMap subterms := by
  cases e <;> simp [subterms, parts, subtermsAll_eq, subtermsSteps_eq]

theorem sizeOf_lt_of_mem_predicates {p : Expr} {ss : List (Step Expr)}
    (h : p ∈ ss.flatMap (·.predicates)) : sizeOf p < sizeOf ss := by
  obtain ⟨⟨axis, test, preds⟩, hs, hp⟩ := List.mem_flatMap.mp h
  have hstep := List.sizeOf_lt_of_mem hs
  have hpred := List.sizeOf_lt_of_mem hp
  simp only [Step.mk.sizeOf_spec] at hstep hpred
  omega

theorem sizeOf_lt_of_mem_parts {p e : Expr} (h : p ∈ e.parts) : sizeOf p < sizeOf e := by
  cases e
  case literal | number | variableRef => cases h
  case call name args =>
    have harg : sizeOf p < sizeOf args := List.sizeOf_lt_of_mem h
    simp only [call.sizeOf_spec]
    omega
  case sequence items =>
    have hitem : sizeOf p < sizeOf items := List.sizeOf_lt_of_mem h
    simp only [sequence.sizeOf_spec]
    omega
  case filter a preds =>
    rcases List.mem_cons.mp h with rfl | h
    · simp only [filter.sizeOf_spec]
      omega
    · have hpred := List.sizeOf_lt_of_mem h
      simp only [filter.sizeOf_spec]
      omega
  case absolute steps =>
    have hstep := sizeOf_lt_of_mem_predicates h
    simp only [absolute.sizeOf_spec]
    omega
  case relative steps =>
    have hstep := sizeOf_lt_of_mem_predicates h
    simp only [relative.sizeOf_spec]
    omega
  case continued a steps =>
    rcases List.mem_cons.mp h with rfl | h
    · simp only [continued.sizeOf_spec]
      omega
    · have hstep := sizeOf_lt_of_mem_predicates h
      simp only [continued.sizeOf_spec]
      omega
  all_goals
    simp only [parts, List.mem_cons, List.not_mem_nil, or_false] at h
    rcases h with rfl | rfl
    all_goals
      simp only [negate.sizeOf_spec, group.sizeOf_spec, binary.sizeOf_spec, union.sizeOf_spec]
      omega

@[elab_as_elim]
theorem partsInduction {P : Expr → Prop} (h : ∀ e : Expr, (∀ p ∈ e.parts, P p) → P e) (e : Expr) : P e :=
  h e fun p _ => partsInduction h p
termination_by sizeOf e
decreasing_by exact sizeOf_lt_of_mem_parts ‹_›

theorem mem_subterms {x e : Expr} : x ∈ e.subterms ↔ x = e ∨ ∃ p ∈ e.parts, x ∈ p.subterms := by
  rw [subterms_eq, List.mem_cons, List.mem_flatMap]

theorem mem_subterms_self (e : Expr) : e ∈ e.subterms := mem_subterms.mpr (.inl rfl)

theorem mem_subterms_of_mem_parts {x p e : Expr} (hp : p ∈ e.parts) (hx : x ∈ p.subterms) :
    x ∈ e.subterms :=
  mem_subterms.mpr (.inr ⟨p, hp, hx⟩)

theorem forall_mem_subterms {P : Expr → Prop} {e : Expr} :
    (∀ x ∈ e.subterms, P x) ↔ P e ∧ ∀ p ∈ e.parts, ∀ x ∈ p.subterms, P x := by
  rw [subterms_eq, List.forall_mem_cons, List.forall_mem_flatMap]

theorem any_subterms (f : Expr → Bool) (e : Expr) :
    e.subterms.any f = (f e || e.parts.any fun p => p.subterms.any f) := by
  rw [subterms_eq, List.any_cons, List.any_flatMap]

theorem mem_subterms_trans {x y e : Expr} (hy : y ∈ e.subterms) (hx : x ∈ y.subterms) : x ∈ e.subterms := by
  induction e using partsInduction with
  | h e ih =>
    rcases mem_subterms.mp hy with rfl | ⟨p, hp, hy⟩
    · exact hx
    · exact mem_subterms_of_mem_parts hp (ih p hp hy)

end Schematron.XPath.Expr
