import Mathlib.Data.List.TakeDrop
import Schematron.Proofs.Evaluation.Selection
import Schematron.Proofs.XPath.Variables
import Schematron.Proofs.Xml.Address
import Schematron.Validation.Environment

/-!
What `current()` stands for: wherever in an expression it is called, it is the node that the whole expression
is evaluated at, as a variable bound to that node would be.
-/

namespace Schematron.XPath.Expr

mutual
/-- An expression with the variable `v` for each call of `current()`. -/
def currentAs (v : String) : Expr → Expr
  | call name args =>
    if isCall "current" 0 (call name args) then variableRef v else call name (currentAsAll v args)
  | negate e => negate (currentAs v e)
  | binary op a b => binary op (currentAs v a) (currentAs v b)
  | union a b => union (currentAs v a) (currentAs v b)
  | group e => group (currentAs v e)
  | sequence items => sequence (currentAsAll v items)
  | filter e preds => filter (currentAs v e) (currentAsAll v preds)
  | absolute steps => absolute (currentAsSteps v steps)
  | relative steps => relative (currentAsSteps v steps)
  | continued e steps => continued (currentAs v e) (currentAsSteps v steps)
  | e => e

def currentAsAll (v : String) : List Expr → List Expr
  | [] => []
  | e :: es => currentAs v e :: currentAsAll v es

def currentAsSteps (v : String) : List (Step Expr) → List (Step Expr)
  | [] => []
  | ⟨axis, test, preds⟩ :: steps => ⟨axis, test, currentAsAll v preds⟩ :: currentAsSteps v steps
end

theorem mem_variableNames {name : String} {e : Expr} : name ∈ e.variableNames ↔ name ∈ e.uses := by
  rw [variableNames_eq, List.mem_eraseDups]

/-- The variables of a part are variables of the whole. -/
theorem uses_of_mem_parts {p e : Expr} (hp : p ∈ e.parts) {name : String} (h : name ∈ p.uses) :
    name ∈ e.uses := by
  rw [uses_eq]
  exact List.mem_append_right _ (List.mem_flatMap.mpr ⟨p, hp, h⟩)

/-- What a part calls the whole calls. -/
theorem calls_of_mem_parts {p e : Expr} (hp : p ∈ e.parts) {name : String} {arity : Nat}
    (h : p.calls name arity = true) : e.calls name arity = true := by
  unfold calls at h ⊢
  rw [any_subterms, Bool.or_eq_true]
  exact .inr (List.any_eq_true.mpr ⟨p, hp, h⟩)

end Schematron.XPath.Expr

namespace Schematron.Evaluation

open Schematron.Xml
open Schematron.XPath (Expr Step)

theorem localPart_of_splitName {name l : String} (h : splitName name = ⟨none, l⟩) : l = name := by
  unfold splitName at h
  split at h
  · cases h
  · cases h
    rfl

theorem splitName_of_plain {name : String} (h : ':' ∉ name.toList) : splitName name = ⟨none, name⟩ := by
  have hspan : name.toList.span (· ≠ ':') = (name.toList, []) := by
    have hall : ∀ c ∈ name.toList, decide (c ≠ ':') = true := fun c hc =>
      decide_eq_true fun heq => h (heq ▸ hc)
    rw [List.span_eq_takeWhile_dropWhile, List.takeWhile_eq_self_iff.mpr hall, List.dropWhile_eq_nil_iff.mpr hall]
  unfold splitName
  rw [hspan]

section

variable (s : Setting) (focus : Focus)

theorem evaluate_call (name : String) (args : List Expr) : evaluate s (.call name args) focus =
    functionOf s name >>= fun f => evaluateAll s args focus >>= f.apply s focus := rfl

theorem evaluate_negate (e : Expr) : evaluate s (.negate e) focus =
    return .number (-(← evaluate s e focus).toNumber s.document) := rfl

theorem evaluate_binary (op : XPath.BinaryOp) (a b : Expr) : evaluate s (.binary op a b) focus = do
    let left ← evaluate s a focus
    if settled op = some left.toBoolean then return .boolean left.toBoolean
    return operate s.document op left (← evaluate s b focus) := rfl

theorem evaluate_absolute (steps : List (Step Expr)) : evaluate s (.absolute steps) focus =
    return .nodes (← evaluateSteps s steps [Node.root]) := rfl

theorem evaluate_relative (steps : List (Step Expr)) : evaluate s (.relative steps) focus =
    return .nodes (← evaluateSteps s steps [focus.node]) := rfl

theorem evaluateAll_cons (e : Expr) (es : List Expr) : evaluateAll s (e :: es) focus =
    return (← evaluate s e focus) :: (← evaluateAll s es focus) := rfl

theorem narrow_cons (e : Expr) (es : List Expr) (ns : List Node) :
    narrow s (e :: es) ns = filterNodes (evaluate s e) ns >>= narrow s es := rfl

theorem evaluateSteps_cons (step : Step Expr) (rest : List (Step Expr)) (ns : List Node) :
    evaluateSteps s (step :: rest) ns =
      ns.mapM (takeStep s step) >>= fun found => evaluateSteps s rest (inOrder found.flatten) := rfl

end

/-- The setting with one more variable, which stands for a node. -/
def Setting.binding (s : Setting) (v : String) (n : Node) : Setting :=
  { s with bindings := (v, .nodes [n]) :: s.bindings }

section

variable {s : Setting} {v : String} {n : Node}

theorem variableValue_binding (hv : ':' ∉ v.toList) : variableValue (s.binding v n) v = .ok (.nodes [n]) := by
  unfold variableValue
  rw [splitName_of_plain hv]
  simp [Setting.binding]

theorem variableValue_binding_of_ne {name : String} (h : name ≠ v) :
    variableValue (s.binding v n) name = variableValue s name := by
  unfold variableValue
  split
  · rename_i l hl
    have hne : (l == v) = false := by simpa [localPart_of_splitName hl] using h
    simp [Setting.binding, List.lookup_cons, hne]
  · rfl

/-- Where the address leads to a node, `current()` has that node as its value. -/
theorem evaluate_current {focus : Focus}
    (h : s.current.bind (·.resolveFrom s.document focus.node) = some n) :
    evaluate s (.call "current" []) focus = .ok (.nodes [n]) := by
  have hfind : Function.find? s "current" = some .current := by
    obtain ⟨a, ha, -⟩ := Option.bind_eq_some_iff.mp h
    have hlookup : Function.standard.lookup "current" = none := by decide
    rw [Function.find?, hlookup, ha]
    rfl
  have hfunction : functionOf s "current" = .ok .current := by
    unfold functionOf
    rw [splitName_of_plain (by decide)]
    simp only [hfind]
  have hcall : Function.call s focus .current [] = .ok (.nodes [n]) := by
    simp only [Function.call, h]
  rw [evaluate_call, hfunction]
  show (Function.call s focus .current []).mapError Fault.argument = _
  rw [hcall]
  rfl

theorem evaluateAll_currentAs {es : List Expr}
    (h : ∀ e ∈ es, evaluate (s.binding v n) (e.currentAs v) = evaluate s e) (focus : Focus) :
    evaluateAll (s.binding v n) (Expr.currentAsAll v es) focus = evaluateAll s es focus := by
  induction es with
  | nil => rfl
  | cons e es ih =>
    obtain ⟨he, hes⟩ := List.forall_mem_cons.mp h
    rw [Expr.currentAsAll, evaluateAll_cons, evaluateAll_cons, he, ih hes]

theorem evaluateItems_currentAs {es : List Expr}
    (h : ∀ e ∈ es, evaluate (s.binding v n) (e.currentAs v) = evaluate s e) (focus : Focus) :
    evaluateItems (s.binding v n) (Expr.currentAsAll v es) focus = evaluateItems s es focus := by
  induction es with
  | nil => rfl
  | cons e es ih =>
    obtain ⟨he, hes⟩ := List.forall_mem_cons.mp h
    rw [Expr.currentAsAll, evaluateItems_cons, evaluateItems_cons, he, ih hes]

theorem narrow_currentAs {es : List Expr}
    (h : ∀ e ∈ es, evaluate (s.binding v n) (e.currentAs v) = evaluate s e) (ns : List Node) :
    narrow (s.binding v n) (Expr.currentAsAll v es) ns = narrow s es ns := by
  induction es generalizing ns with
  | nil => rfl
  | cons e es ih =>
    obtain ⟨he, hes⟩ := List.forall_mem_cons.mp h
    rw [Expr.currentAsAll, narrow_cons, narrow_cons, he]
    exact congrArg _ (funext (ih hes))

theorem evaluateSteps_currentAs {steps : List (Step Expr)}
    (h : ∀ e ∈ steps.flatMap (·.predicates), evaluate (s.binding v n) (e.currentAs v) = evaluate s e)
    (ns : List Node) :
    evaluateSteps (s.binding v n) (Expr.currentAsSteps v steps) ns = evaluateSteps s steps ns := by
  induction steps generalizing ns with
  | nil => rfl
  | cons step steps ih =>
    obtain ⟨axis, test, preds⟩ := step
    rw [List.flatMap_cons, List.forall_mem_append] at h
    have hstep : takeStep (s.binding v n) ⟨axis, test, Expr.currentAsAll v preds⟩ =
        takeStep s ⟨axis, test, preds⟩ := by
      funext m
      -- what a step selects has nothing to do with the variables
      show (select s axis test m >>= narrow (s.binding v n) (Expr.currentAsAll v preds)) = _
      rw [show narrow (s.binding v n) (Expr.currentAsAll v preds) = narrow s preds from
        funext (narrow_currentAs h.1)]
      rfl
    rw [Expr.currentAsSteps, evaluateSteps_cons, evaluateSteps_cons, hstep]
    exact congrArg _ (funext fun found => ih h.2 _)

/-- An expression has the value that it has with a variable for `current()`, if that is bound to the node at
the address of the current one and is not used otherwise. -/
theorem evaluate_currentAs {e : Expr} (hv : ':' ∉ v.toList) (hfresh : v ∉ e.uses)
    (hcurrent : e.calls "current" 0 = true → ∀ anchor,
      s.current.bind (·.resolveFrom s.document anchor) = some n) :
    evaluate (s.binding v n) (e.currentAs v) = evaluate s e := by
  -- `s` goes unchanged into predicates at any depth, where only the focus is another
  induction e using Expr.partsInduction with
  | h e ih =>
    have hparts : ∀ p ∈ e.parts, evaluate (s.binding v n) (p.currentAs v) = evaluate s p := fun p hp =>
      ih p hp (fun h => hfresh (Expr.uses_of_mem_parts hp h)) fun h => hcurrent (Expr.calls_of_mem_parts hp h)
    funext focus
    cases e with
    | literal value => rfl
    | number spelling => rfl
    | variableRef name =>
      have hne : name ≠ v := by
        rintro rfl
        exact hfresh (by rw [Expr.uses_eq]; exact List.mem_cons_self)
      exact variableValue_binding_of_ne hne
    | call name args =>
      rw [Expr.currentAs]
      split
      · rename_i hcall
        obtain ⟨rfl, rfl⟩ : name = "current" ∧ args = [] := by simpa [Expr.isCall] using hcall
        rw [evaluate_current (hcurrent (by decide) focus.node)]
        exact variableValue_binding hv
      · have hargs : evaluateAll (s.binding v n) (Expr.currentAsAll v args) focus = evaluateAll s args focus :=
          evaluateAll_currentAs hparts focus
        rw [evaluate_call, evaluate_call, hargs]
        rfl
    | negate a =>
      have ha := hparts a List.mem_cons_self
      rw [Expr.currentAs, evaluate_negate, evaluate_negate, ha]
      rfl
    | binary op a b =>
      have ha := hparts a List.mem_cons_self
      have hb := hparts b (List.mem_cons_of_mem _ List.mem_cons_self)
      rw [Expr.currentAs, evaluate_binary, evaluate_binary, ha, hb]
      rfl
    | union a b =>
      have ha := hparts a List.mem_cons_self
      have hb := hparts b (List.mem_cons_of_mem _ List.mem_cons_self)
      rw [Expr.currentAs, evaluate_union, evaluate_union, ha, hb]
    | group a => exact congrFun (hparts a List.mem_cons_self) focus
    | sequence items =>
      have hitems : evaluateItems (s.binding v n) (Expr.currentAsAll v items) focus = evaluateItems s items focus :=
        evaluateItems_currentAs hparts focus
      rw [Expr.currentAs, evaluate_sequence, evaluate_sequence, hitems]
    | filter a preds =>
      obtain ⟨ha, hpreds⟩ := List.forall_mem_cons.mp hparts
      rw [Expr.currentAs, evaluate_filter, evaluate_filter, ha]
      simp only [narrow_currentAs hpreds]
    | absolute steps =>
      have hsteps : evaluateSteps (s.binding v n) (Expr.currentAsSteps v steps) [Node.root] =
          evaluateSteps s steps [Node.root] := evaluateSteps_currentAs hparts _
      rw [Expr.currentAs, evaluate_absolute, evaluate_absolute, hsteps]
    | relative steps =>
      have hsteps : evaluateSteps (s.binding v n) (Expr.currentAsSteps v steps) [focus.node] =
          evaluateSteps s steps [focus.node] := evaluateSteps_currentAs hparts _
      rw [Expr.currentAs, evaluate_relative, evaluate_relative, hsteps]
    | continued a steps =>
      obtain ⟨ha, hsteps⟩ := List.forall_mem_cons.mp hparts
      rw [Expr.currentAs, evaluate_continued, evaluate_continued, ha]
      simp only [evaluateSteps_currentAs hsteps]

end

end Schematron.Evaluation

namespace Schematron.Validation

open Schematron.Evaluation
open Schematron.Xml

/-- What a query is evaluated in at a node. -/
def settingAt (b : Basis) (q : Query.Compiled) (node : Node) (bindings : List (String × Value)) : Setting where
  document := b.document
  language := b.language
  prefixes := b.prefixes
  current := if q.usesCurrent then some (.ofNode b.document node) else none
  bindings := bindings

section

variable {b : Basis} {q : Query.Compiled} {n : Node}

theorem evaluateExpr_congr {e f : XPath.Expr} {first second : List (String × Value)}
    (h : evaluate (settingAt b q n first) e = evaluate (settingAt b q n second) f) :
    evaluateExpr b q e n first = evaluateExpr b q f n second := by
  unfold settingAt at h
  simp only [evaluateExpr, h]

/-- Wherever one stands in the document, the address leads to the node of the query. -/
theorem current_settingAt (hn : b.document.HasNode n) (huses : q.usesCurrent = true)
    (bindings : List (String × Value)) (anchor : Node) :
    (settingAt b q n bindings).current.bind (·.resolveFrom b.document anchor) = some n := by
  rw [settingAt, if_pos huses, Option.bind_some]
  exact Address.resolveFrom_ofNode hn anchor

/-- `current()` as a whole query has the node as its value. -/
theorem evaluateExpr_current (hn : b.document.HasNode n) (huses : q.usesCurrent = true)
    (bindings : List (String × Value)) :
    evaluateExpr b q (.call "current" []) n bindings = .ok (.nodes [n]) := by
  have hvalue : evaluate (settingAt b q n bindings) (.call "current" []) ⟨n, 1, 1⟩ = .ok (.nodes [n]) :=
    evaluate_current (current_settingAt hn huses bindings n)
  unfold settingAt at hvalue
  simp only [evaluateExpr, hvalue]

/-- `current()` in a query, at whatever depth, has the value of a variable that stands for the node at which
the query is evaluated. -/
theorem evaluateExpr_currentAs (hn : b.document.HasNode n) {e : XPath.Expr}
    (huses : e.calls "current" 0 = true → q.usesCurrent = true) {v : String} (hv : ':' ∉ v.toList)
    (hfresh : v ∉ e.variableNames) (bindings : List (String × Value)) :
    evaluateExpr b q e n bindings = evaluateExpr b q (e.currentAs v) n ((v, .nodes [n]) :: bindings) := by
  have hbinding : settingAt b q n ((v, .nodes [n]) :: bindings) = (settingAt b q n bindings).binding v n := rfl
  apply evaluateExpr_congr
  rw [hbinding, evaluate_currentAs hv (mt XPath.Expr.mem_variableNames.mpr hfresh)]
  exact fun hcall => current_settingAt hn (huses hcall) bindings

end

/-- From every node of a document the address of a node leads to that node, so no two nodes share theirs; and
`current()` anywhere in an expression is the node the whole of it is evaluated at. -/
theorem addresses_exact (d : Document) :
    (∀ n, d.HasNode n → ∀ anchor, d.HasNode anchor → (Address.ofNode d n).resolveFrom d anchor = some n) ∧
    (∀ n m, d.HasNode n → d.HasNode m → n ≠ m → Address.ofNode d n ≠ Address.ofNode d m) ∧
    ∀ (b : Basis) (q : Query.Compiled) (n : Node) (bindings : List (String × Value)),
      b.document = d → d.HasNode n →
      (q.usesCurrent = true → evaluateExpr b q (.call "current" []) n bindings = .ok (.nodes [n])) ∧
      ∀ (e : XPath.Expr) (v : String), (e.calls "current" 0 = true → q.usesCurrent = true) →
        ':' ∉ v.toList → v ∉ e.variableNames →
        evaluateExpr b q e n bindings = evaluateExpr b q (e.currentAs v) n ((v, .nodes [n]) :: bindings) := by
  refine ⟨fun n hn anchor _ => Address.resolveFrom_ofNode hn anchor, ?_, ?_⟩
  · exact fun n m hn hm hne heq => hne (Address.eq_of_ofNode_eq hn hm heq)
  · rintro b q n bindings rfl hn
    refine ⟨fun huses => evaluateExpr_current hn huses bindings, fun e v huses hv hfresh => ?_⟩
    exact evaluateExpr_currentAs hn huses hv hfresh bindings

/-- The document `<r><a x=""/><!----></r>`. -/
private def commented : Document :=
  ⟨[.element ⟨⟨none, "r"⟩, none, [], [],
    [.element ⟨⟨none, "a"⟩, none, [], [⟨⟨none, "x"⟩, none, ""⟩], []⟩, .comment ""]⟩]⟩

/-- The tree of `*[@x[. = e]]`. -/
private def nestedIn (e : XPath.Expr) : XPath.Expr :=
  .relative [⟨.child, .wildcard, [.relative [⟨.attributes, .name "x",
    [.binary .eq (.relative [⟨.self, .node, []⟩]) e]⟩]]⟩]

private def asksNested : Query.Compiled :=
  ⟨"*[@x[. = current()]]", "*[@x[. = current()]]", false, [], true, none⟩

/-- An attribute and its element are told apart, and the attribute is compared with `r`. -/
theorem addresses_exact_nestedPredicate :
    (Address.ofNode commented ⟨[0, 0], .attribute 0⟩).resolveFrom commented ⟨[0, 1], .whole⟩ =
        some ⟨[0, 0], .attribute 0⟩ ∧
      Address.ofNode commented ⟨[0, 0], .attribute 0⟩ ≠ Address.ofNode commented ⟨[0, 0], .whole⟩ ∧
      Query.compile .xslt "*[@x[. = current()]]" = .ok asksNested ∧
      XPath.Strict.parse? asksNested.text = some (nestedIn (.call "current" [])) ∧
      evaluateExpr ⟨commented, .xslt, []⟩ asksNested (.call "current" []) ⟨[0], .whole⟩ [] =
        .ok (.nodes [⟨[0], .whole⟩]) ∧
      evaluateExpr ⟨commented, .xslt, []⟩ asksNested (nestedIn (.call "current" [])) ⟨[0], .whole⟩ [] =
        evaluateExpr ⟨commented, .xslt, []⟩ asksNested (nestedIn (.variableRef "n")) ⟨[0], .whole⟩
          [("n", .nodes [⟨[0], .whole⟩])] ∧
      evaluateExpr ⟨commented, .xslt, []⟩ asksNested (nestedIn (.variableRef "n")) ⟨[0], .whole⟩
          [("n", .nodes [⟨[0], .whole⟩])] = .ok (.nodes [⟨[0, 0], .whole⟩]) := by
  obtain ⟨hresolve, hapart, hcurrent⟩ := addresses_exact commented
  have hr : commented.HasNode ⟨[0], .whole⟩ := trivial
  have ha : commented.HasNode ⟨[0, 0], .whole⟩ := trivial
  have hx : commented.HasNode ⟨[0, 0], .attribute 0⟩ := trivial
  have hcomment : commented.HasNode ⟨[0, 1], .whole⟩ := trivial
  obtain ⟨hwhole, hnested⟩ := hcurrent ⟨commented, .xslt, []⟩ asksNested _ [] rfl hr
  refine ⟨hresolve _ hx _ hcomment, hapart _ _ hx ha (by decide), by decide +kernel,
    by with_unfolding_all rfl, hwhole rfl, ?_, by with_unfolding_all rfl⟩
  exact hnested (nestedIn (.call "current" [])) "n" (fun _ => rfl) (by decide) (by decide)

end Schematron.Validation
