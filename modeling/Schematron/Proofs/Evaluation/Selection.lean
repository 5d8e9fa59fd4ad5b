import Schematron.Proofs.Evaluation.Steps
import Schematron.Proofs.XPath.Anchoring

/-!
The nodes that a pattern selects from the root once its relative paths begin at any depth.
-/

namespace Schematron.XPath.Expr

def isRelative : Expr → Bool
  | relative _ => true
  | _ => false

mutual
/-- The expressions that unions, sequences and parentheses on top of an expression join. -/
def branches : Expr → List Expr
  | union a b => branches a ++ branches b
  | group e => branches e
  | sequence items => branchesAll items
  | e => [e]

def branchesAll : List Expr → List Expr
  | [] => []
  | e :: es => branches e ++ branchesAll es
end

mutual
/-- All paths that an expression begins with start at the root or at a variable. -/
def rooted : Expr → Bool
  | absolute _ | variableRef _ => true
  | group e | filter e _ | continued e _ => rooted e
  | union a b => rooted a && rooted b
  | sequence items => rootedAll items
  | _ => false

def rootedAll : List Expr → Bool
  | [] => true
  | e :: es => rooted e && rootedAll es
end

/-- An expression that joins others without adding to them. -/
def isJoin : Expr → Bool
  | union _ _ | group _ | sequence _ => true
  | _ => false

theorem branchesAll_eq (es : List Expr) : branchesAll es = es.flatMap branches := by
  induction es with
  | nil => rfl
  | cons e es ih => rw [branchesAll, ih, List.flatMap_cons]

theorem rootedAll_eq (es : List Expr) : rootedAll es = es.all rooted := by
  induction es with
  | nil => rfl
  | cons e es ih => rw [rootedAll, ih, List.all_cons]

theorem isJoin_of_mem_branches {b e : Expr} (h : b ∈ e.branches) : b.isJoin = false := by
  induction e using partsInduction with
  | h e ih =>
    cases e
    case union x y =>
      rcases List.mem_append.mp h with h | h
      · exact ih x List.mem_cons_self h
      · exact ih y (List.mem_cons_of_mem _ List.mem_cons_self) h
    case group x => exact ih x List.mem_cons_self h
    case sequence items =>
      rw [branches, branchesAll_eq] at h
      obtain ⟨x, hx, h⟩ := List.mem_flatMap.mp h
      exact ih x hx h
    all_goals
      obtain rfl := List.mem_singleton.mp h
      rfl

end Schematron.XPath.Expr

namespace Schematron.XPath

/-- The branches of a pattern are anchored one by one. -/
theorem branches_anchor (e : Expr) : (anchor e).branches = e.branches.map anchor := by
  induction e using Expr.partsInduction with
  | h e ih =>
    cases e
    case union a b =>
      rw [anchor, Expr.branches, Expr.branches, List.map_append, ih a List.mem_cons_self,
        ih b (List.mem_cons_of_mem _ List.mem_cons_self)]
    case group a => exact ih a List.mem_cons_self
    case sequence items =>
      rw [anchor, Expr.branches, Expr.branches, Expr.branchesAll_eq, Expr.branchesAll_eq, anchorAll_eq_map,
        List.flatMap_map, List.map_flatMap]
      exact List.flatMap_congr ih
    all_goals rfl

end Schematron.XPath

namespace Schematron.Evaluation

open Schematron.Xml
open Schematron.XPath (Expr Step anchor)

section

variable (s : Setting)

/-- At a node, the value of the expression is a set of nodes. -/
def HasNodes (e : Expr) (m : Node) : Prop := ∃ ns, evaluate s e ⟨m, 1, 1⟩ = .ok (.nodes ns)

/-- At the node `m`, the node `n` is in the value of the expression. -/
def Selects (e : Expr) (m n : Node) : Prop := ∃ ns, evaluate s e ⟨m, 1, 1⟩ = .ok (.nodes ns) ∧ n ∈ ns

/-- At the node `m`, the expression selects what its sources select together, each at its own node. -/
structure Gathers (e : Expr) (m : Node) (sources : Expr → Node → Prop) : Prop where
  hasNodes : HasNodes s e m ↔ ∀ b k, sources b k → HasNodes s b k
  selects : HasNodes s e m → ∀ n, Selects s e m n ↔ ∃ b k, sources b k ∧ Selects s b k n

variable {s} {e : Expr} {m : Node}

theorem selects_iff {ns : List Node} (h : evaluate s e ⟨m, 1, 1⟩ = .ok (.nodes ns)) {n : Node} :
    Selects s e m n ↔ n ∈ ns := by
  refine ⟨fun ⟨ns', h', hn⟩ => ?_, fun hn => ⟨ns, h, hn⟩⟩
  cases h.symm.trans h'
  exact hn

theorem nodesOf_eq_ok_iff {v : Value} {ns : List Node} : nodesOf v = .ok ns ↔ v = .nodes ns := by
  cases v <;> simp [nodesOf]

namespace Gathers

variable {sources : Expr → Node → Prop}

theorem refl (e : Expr) (m : Node) : Gathers s e m fun b k => b = e ∧ k = m :=
  ⟨by simp, fun _ n => by simp⟩

/-- What joins expressions has the sources of all. -/
theorem join {es : List Expr} {f : Expr → Expr} {inner : Expr → Expr → Node → Prop}
    (h : Gathers s e m fun b k => b ∈ es.map f ∧ k = m) (hes : ∀ x ∈ es, Gathers s (f x) m (inner x)) :
    Gathers s e m fun c l => ∃ x ∈ es, inner x c l := by
  have hall : HasNodes s e m ↔ ∀ x ∈ es, HasNodes s (f x) m := by
    rw [h.hasNodes, ← List.forall_mem_map (P := fun b => HasNodes s b m)]
    exact ⟨fun hall b hb => hall b m ⟨hb, rfl⟩, fun hall b k ⟨hb, hk⟩ => hk ▸ hall b hb⟩
  refine ⟨?_, fun hnodes n => ?_⟩
  · rw [hall]
    constructor
    · rintro hall c l ⟨x, hx, hcl⟩
      exact (hes x hx).hasNodes.mp (hall x hx) c l hcl
    · exact fun hall x hx => (hes x hx).hasNodes.mpr fun c l hcl => hall c l ⟨x, hx, hcl⟩
  · have hparts := hall.mp hnodes
    rw [h.selects hnodes]
    constructor
    · rintro ⟨b, k, ⟨hb, rfl⟩, hn⟩
      obtain ⟨x, hx, rfl⟩ := List.mem_map.mp hb
      obtain ⟨c, l, hcl, hn⟩ := ((hes x hx).selects (hparts x hx) n).mp hn
      exact ⟨c, l, ⟨x, hx, hcl⟩, hn⟩
    · rintro ⟨c, l, ⟨x, hx, hcl⟩, hn⟩
      exact ⟨f x, m, ⟨List.mem_map_of_mem hx, rfl⟩, ((hes x hx).selects (hparts x hx) n).mpr ⟨c, l, hcl, hn⟩⟩

theorem of_eq {e' : Expr} (h : Gathers s e' m sources)
    (heq : evaluate s e ⟨m, 1, 1⟩ = evaluate s e' ⟨m, 1, 1⟩) : Gathers s e m sources := by
  obtain ⟨hasNodes, selects⟩ := h
  refine ⟨?_, ?_⟩
  · rwa [HasNodes, heq]
  · simpa only [HasNodes, Selects, heq] using selects

theorem of_iff {sources' : Expr → Node → Prop} (h : Gathers s e m sources)
    (hiff : ∀ b k, sources b k ↔ sources' b k) : Gathers s e m sources' := by
  obtain rfl : sources = sources' := funext fun b => funext fun k => propext (hiff b k)
  exact h

end Gathers

theorem map_nodes_eq_ok_iff {x : Except Fault (List Node)} {ns : List Node} :
    (return .nodes (← x) : Except Fault Value) = .ok (.nodes ns) ↔ x = .ok ns := by
  cases x <;> simp [bind, Except.bind, pure, Except.pure]

section

variable (e : Expr) (focus : Focus)

theorem evaluate_union (a b : Expr) : evaluate s (.union a b) focus = do
    let left ← nodesOf (← evaluate s a focus)
    let right ← nodesOf (← evaluate s b focus)
    return .nodes (inOrder (left ++ right)) := rfl

theorem evaluate_sequence (items : List Expr) : evaluate s (.sequence items) focus =
    return .nodes (inOrder (← evaluateItems s items focus)) := rfl

theorem evaluate_filter (preds : List Expr) : evaluate s (.filter e preds) focus = do
    let ns ← nodesOf (← evaluate s e focus)
    return .nodes (← narrow s preds ns) := rfl

theorem evaluate_continued (steps : List (Step Expr)) : evaluate s (.continued e steps) focus = do
    let ns ← nodesOf (← evaluate s e focus)
    return .nodes (← evaluateSteps s steps ns) := rfl

theorem evaluateItems_nil : evaluateItems s [] focus = pure [] := rfl

theorem evaluateItems_cons (es : List Expr) : evaluateItems s (e :: es) focus =
    return (← nodesOf (← evaluate s e focus)) ++ (← evaluateItems s es focus) := rfl

end

variable (s) in
/-- The nodes of an expression. -/
def nodesAt (focus : Focus) (e : Expr) : Except Fault (List Node) := evaluate s e focus >>= nodesOf

theorem nodesAt_eq_ok_iff {focus : Focus} {ns : List Node} :
    nodesAt s focus e = .ok ns ↔ evaluate s e focus = .ok (.nodes ns) := by
  simp [nodesAt, bind_eq_ok_iff, nodesOf_eq_ok_iff]

theorem evaluateItems_eq_ok_iff {items : List Expr} {focus : Focus} {ns : List Node} :
    evaluateItems s items focus = .ok ns ↔
      ∃ parts, items.mapM (nodesAt s focus) = .ok parts ∧ parts.flatten = ns := by
  induction items generalizing ns with
  | nil => simp [evaluateItems_nil, pure, Except.pure]
  | cons e es ih =>
    rw [evaluateItems_cons, List.mapM_cons]
    simp only [bind_eq_ok_iff, ih]
    constructor
    · rintro ⟨v, hv, l, hl, r, ⟨parts, hparts, rfl⟩, ⟨⟩⟩
      exact ⟨l :: parts, ⟨l, bind_eq_ok_iff.mpr ⟨v, hv, hl⟩, parts, hparts, rfl⟩, List.flatten_cons⟩
    · rintro ⟨_, ⟨l, hl, parts, hparts, ⟨⟩⟩, rfl⟩
      obtain ⟨v, hv, hl⟩ := bind_eq_ok_iff.mp hl
      exact ⟨v, hv, l, hl, parts.flatten, ⟨parts, hparts, rfl⟩, rfl⟩

theorem evaluate_sequence_eq_ok_iff {items : List Expr} {focus : Focus} {ns : List Node} :
    evaluate s (.sequence items) focus = .ok (.nodes ns) ↔
      ∃ parts, items.mapM (nodesAt s focus) = .ok parts ∧ inOrder parts.flatten = ns := by
  simp only [evaluate_sequence, bind_eq_ok_iff, evaluateItems_eq_ok_iff]
  constructor
  · rintro ⟨_, ⟨parts, hparts, rfl⟩, ⟨⟩⟩
    exact ⟨parts, hparts, rfl⟩
  · rintro ⟨parts, hparts, rfl⟩
    exact ⟨_, ⟨parts, hparts, rfl⟩, rfl⟩

/-- A sequence selects what its items select. -/
theorem gathers_sequence (items : List Expr) (m : Node) :
    Gathers s (.sequence items) m fun b k => b ∈ items ∧ k = m := by
  refine ⟨?_, fun ⟨ns, h⟩ n => ?_⟩
  · have hall : (∃ ns, evaluate s (.sequence items) ⟨m, 1, 1⟩ = .ok (.nodes ns)) ↔
        ∀ b ∈ items, ∃ ns, nodesAt s ⟨m, 1, 1⟩ b = .ok ns := by
      rw [← exists_mapM_eq_ok_iff]
      simp only [evaluate_sequence_eq_ok_iff]
      exact ⟨fun ⟨_, parts, h, _⟩ => ⟨parts, h⟩, fun ⟨parts, h⟩ => ⟨_, parts, h, rfl⟩⟩
    simp only [nodesAt_eq_ok_iff] at hall
    exact hall.trans ⟨fun h b k ⟨hb, hk⟩ => hk ▸ h b hb, fun h b hb => h b m ⟨hb, rfl⟩⟩
  · obtain ⟨parts, hparts, rfl⟩ := evaluate_sequence_eq_ok_iff.mp h
    rw [selects_iff h, mem_inOrder, List.mem_flatten]
    simp only [mem_of_mapM_eq_ok hparts, nodesAt_eq_ok_iff]
    constructor
    · rintro ⟨part, ⟨b, hb, hpart⟩, hn⟩
      exact ⟨b, m, ⟨hb, rfl⟩, part, hpart, hn⟩
    · rintro ⟨b, k, ⟨hb, rfl⟩, part, hpart, hn⟩
      exact ⟨part, ⟨b, hb, hpart⟩, hn⟩

theorem evaluate_union_eq (a b : Expr) (focus : Focus) :
    evaluate s (.union a b) focus = evaluate s (.sequence [a, b]) focus := by
  simp only [evaluate_union, evaluate_sequence, evaluateItems_cons, evaluateItems_nil, bind_assoc,
    pure_bind, List.append_nil]

/-- An expression selects what its branches select. -/
theorem gathers_branches (e : Expr) (m : Node) : Gathers s e m fun b k => b ∈ e.branches ∧ k = m := by
  have hjoin {x : Expr} {es : List Expr} (h : Gathers s x m fun b k => b ∈ es ∧ k = m)
      (hes : ∀ y ∈ es, Gathers s y m fun b k => b ∈ y.branches ∧ k = m) :
      Gathers s x m fun b k => b ∈ es.flatMap Expr.branches ∧ k = m := by
    rw [← List.map_id es] at h
    refine (h.join hes).of_iff fun b k => ?_
    rw [List.mem_flatMap]
    exact ⟨fun ⟨y, hy, hb, hk⟩ => ⟨⟨y, hy, hb⟩, hk⟩, fun ⟨⟨y, hy, hb⟩, hk⟩ => ⟨y, hy, hb, hk⟩⟩
  induction e using Expr.partsInduction with
  | h e ih =>
    cases e
    case union a b =>
      have hboth := hjoin ((gathers_sequence [a, b] m).of_eq (evaluate_union_eq a b _)) ih
      simpa [Expr.branches] using hboth
    case group a => exact (ih a List.mem_cons_self).of_eq rfl
    case sequence items =>
      have hall := hjoin (gathers_sequence items m) ih
      rwa [← Expr.branchesAll_eq] at hall
    all_goals exact (Gathers.refl _ m).of_iff fun b k => and_congr_left' List.mem_singleton.symm

theorem evaluate_absolute_eq_ok_iff {steps : List (Step Expr)} {focus : Focus} {ns : List Node} :
    evaluate s (.absolute steps) focus = .ok (.nodes ns) ↔ evaluateSteps s steps [Node.root] = .ok ns :=
  map_nodes_eq_ok_iff

theorem evaluate_relative_eq_ok_iff {steps : List (Step Expr)} {focus : Focus} {ns : List Node} :
    evaluate s (.relative steps) focus = .ok (.nodes ns) ↔ evaluateSteps s steps [focus.node] = .ok ns :=
  map_nodes_eq_ok_iff

/-- What is evaluated as steps from one node has nodes where the steps can be taken, and they are those that
the steps lead to. -/
theorem selects_of_steps {steps : List (Step Expr)} {start : Node}
    (h : ∀ ns, evaluate s e ⟨m, 1, 1⟩ = .ok (.nodes ns) ↔ evaluateSteps s steps [start] = .ok ns) :
    (HasNodes s e m ↔ Passable s steps start) ∧
      (HasNodes s e m → ∀ n, Selects s e m n ↔ Leads s steps start n) := by
  refine ⟨?_, fun ⟨ns, hns⟩ n => ?_⟩
  · rw [← List.forall_mem_singleton (p := Passable s steps), ← exists_evaluateSteps_iff]
    exact exists_congr h
  · rw [selects_iff hns, mem_of_evaluateSteps ((h ns).mp hns)]
    simp

theorem selects_absolute (steps : List (Step Expr)) (m : Node) :
    (HasNodes s (.absolute steps) m ↔ Passable s steps Node.root) ∧
      (HasNodes s (.absolute steps) m → ∀ n, Selects s (.absolute steps) m n ↔ Leads s steps Node.root n) :=
  selects_of_steps fun _ => evaluate_absolute_eq_ok_iff

theorem selects_relative (steps : List (Step Expr)) (m : Node) :
    (HasNodes s (.relative steps) m ↔ Passable s steps m) ∧
      (HasNodes s (.relative steps) m → ∀ n, Selects s (.relative steps) m n ↔ Leads s steps m n) :=
  selects_of_steps fun _ => evaluate_relative_eq_ok_iff

/-- Behind a double slash at the root, a relative path selects what it selects at all nodes of the tree. -/
theorem gathers_descendants (steps : List (Step Expr)) (m : Node) :
    Gathers s (.absolute (.descendantOrSelf :: steps)) m
      fun b k => b = .relative steps ∧ IsTreeNode s.document k := by
  obtain ⟨hasNodes, selects⟩ := selects_absolute (s := s) (.descendantOrSelf :: steps) m
  obtain ⟨ks, hks, htree⟩ := takeStep_descendantOrSelf s
  have hpass : Passable s (.descendantOrSelf :: steps) Node.root ↔
      ∀ k, IsTreeNode s.document k → HasNodes s (.relative steps) k := by
    simp only [Passable, hks, Except.ok.injEq, exists_eq_left', htree, (selects_relative steps _).1]
  have hleads (n : Node) : Leads s (.descendantOrSelf :: steps) Node.root n ↔
      ∃ k, IsTreeNode s.document k ∧ Leads s steps k n := by
    simp only [Leads, hks, Except.ok.injEq, exists_eq_left', htree]
  refine ⟨?_, fun h n => ?_⟩
  · rw [hasNodes, hpass]
    constructor
    · rintro hall _ k ⟨rfl, hk⟩
      exact hall k hk
    · exact fun hall k hk => hall _ k ⟨rfl, hk⟩
  · have hall := hpass.mp (hasNodes.mp h)
    rw [selects h n, hleads]
    constructor
    · rintro ⟨k, hk, hn⟩
      exact ⟨_, k, ⟨rfl, hk⟩, ((selects_relative steps k).2 (hall k hk) n).mpr hn⟩
    · rintro ⟨_, k, ⟨rfl, hk⟩, hn⟩
      exact ⟨k, hk, ((selects_relative steps k).2 (hall k hk) n).mp hn⟩

/-- The nodes at which a branch is tried: all of the tree for a relative path, else the root. -/
def Origin (d : Document) (b : Expr) (k : Node) : Prop :=
  if b.isRelative then IsTreeNode d k else k = Node.root

theorem gathers_anchor_branch {b : Expr} (h : b.isJoin = false) :
    Gathers s (anchor b) Node.root fun c k => c = b ∧ Origin s.document b k := by
  cases b
  case relative steps => exact gathers_descendants steps Node.root
  case union | group | sequence => cases h
  all_goals exact Gathers.refl _ _

theorem evaluate_sequence_congr {items : List Expr} {f f' : Focus}
    (h : ∀ e ∈ items, evaluate s e f = evaluate s e f') :
    evaluate s (.sequence items) f = evaluate s (.sequence items) f' := by
  have hitems : evaluateItems s items f = evaluateItems s items f' := by
    induction items with
    | nil => rfl
    | cons e es ih =>
      obtain ⟨he, hes⟩ := List.forall_mem_cons.mp h
      rw [evaluateItems_cons, evaluateItems_cons, he, ih hes]
  rw [evaluate_sequence, evaluate_sequence, hitems]

/-- What begins at the root or at a variable has the same value at all nodes. -/
theorem evaluate_of_rooted {e : Expr} (h : e.rooted = true) (f f' : Focus) :
    evaluate s e f = evaluate s e f' := by
  induction e using Expr.partsInduction with
  | h e ih =>
    cases e
    case variableRef | absolute => rfl
    case group a => exact ih a List.mem_cons_self h
    case union a b =>
      obtain ⟨ha, hb⟩ := Bool.and_eq_true_iff.mp h
      rw [evaluate_union_eq, evaluate_union_eq]
      refine evaluate_sequence_congr (List.forall_mem_cons.mpr ⟨ih a List.mem_cons_self ha, ?_⟩)
      exact List.forall_mem_singleton.mpr (ih b (List.mem_cons_of_mem _ List.mem_cons_self) hb)
    case sequence items =>
      rw [Expr.rooted, Expr.rootedAll_eq] at h
      exact evaluate_sequence_congr fun i hi => ih i hi (List.all_eq_true.mp h i hi)
    case filter a preds => rw [evaluate_filter, evaluate_filter, ih a List.mem_cons_self h]
    case continued a steps => rw [evaluate_continued, evaluate_continued, ih a List.mem_cons_self h]
    all_goals cases h

section

variable {b : Expr} (h : b.isRelative = true ∨ b.rooted = true)

include h

/-- A branch is tried at enough nodes. -/
theorem forall_origin_iff (P : Except Fault Value → Prop) :
    (∀ k, Origin s.document b k → P (evaluate s b ⟨k, 1, 1⟩)) ↔
      ∀ k, IsTreeNode s.document k → P (evaluate s b ⟨k, 1, 1⟩) := by
  unfold Origin
  split
  · rfl
  · rename_i hrelative
    have hsame (k : Node) : evaluate s b ⟨k, 1, 1⟩ = evaluate s b ⟨Node.root, 1, 1⟩ :=
      evaluate_of_rooted (h.resolve_left hrelative) _ _
    constructor
    · intro hroot k _
      rw [hsame]
      exact hroot Node.root rfl
    · rintro hall _ rfl
      exact hall Node.root (isTreeNode_root _)

theorem exists_origin_iff (P : Except Fault Value → Prop) :
    (∃ k, Origin s.document b k ∧ P (evaluate s b ⟨k, 1, 1⟩)) ↔
      ∃ k, IsTreeNode s.document k ∧ P (evaluate s b ⟨k, 1, 1⟩) := by
  simpa only [not_forall, not_not, exists_prop] using not_congr (forall_origin_iff h fun v => ¬P v)

end

section

variable {e : Expr} (h : ∀ b ∈ e.branches, b.isRelative = true ∨ b.rooted = true)

include h

/-- Where all branches have nodes at their own places, a pattern has nodes at all nodes of the tree. -/
theorem hasNodes_branches_iff : (∀ b k, b ∈ e.branches ∧ Origin s.document b k → HasNodes s b k) ↔
    ∀ k, IsTreeNode s.document k → HasNodes s e k := by
  calc
    _ ↔ ∀ b ∈ e.branches, ∀ k, Origin s.document b k → HasNodes s b k := by
      simp only [and_imp]
      exact forall_congr' fun b => forall_comm
    _ ↔ ∀ b ∈ e.branches, ∀ k, IsTreeNode s.document k → HasNodes s b k :=
      forall₂_congr fun b hb => forall_origin_iff (h b hb) fun v => ∃ ns, v = .ok (.nodes ns)
    _ ↔ ∀ k, IsTreeNode s.document k → HasNodes s e k := by
      simp only [(gathers_branches e _).hasNodes]
      constructor
      · rintro hall k hk b _ ⟨hb, rfl⟩
        exact hall b hb _ hk
      · exact fun hall b hb k hk => hall k hk b k ⟨hb, rfl⟩

theorem selects_branches_iff (hall : ∀ k, IsTreeNode s.document k → HasNodes s e k) (n : Node) :
    (∃ b k, (b ∈ e.branches ∧ Origin s.document b k) ∧ Selects s b k n) ↔
      ∃ k, IsTreeNode s.document k ∧ Selects s e k n := by
  have hselects {b : Expr} (hb : b ∈ e.branches) : (∃ k, Origin s.document b k ∧ Selects s b k n) ↔
      ∃ k, IsTreeNode s.document k ∧ Selects s b k n :=
    exists_origin_iff (h b hb) fun v => ∃ ns, v = .ok (.nodes ns) ∧ n ∈ ns
  constructor
  · rintro ⟨b, k, ⟨hb, hk⟩, hn⟩
    obtain ⟨l, hl, hn⟩ := (hselects hb).mp ⟨k, hk, hn⟩
    exact ⟨l, hl, ((gathers_branches e l).selects (hall l hl) n).mpr ⟨b, l, ⟨hb, rfl⟩, hn⟩⟩
  · rintro ⟨k, hk, hpattern⟩
    obtain ⟨b, l, ⟨hb, rfl⟩, hbranch⟩ := ((gathers_branches e k).selects (hall k hk) n).mp hpattern
    obtain ⟨l, hl, hn⟩ := (hselects hb).mpr ⟨l, hk, hbranch⟩
    exact ⟨b, l, ⟨hb, hl⟩, hn⟩

end

/-- At the root, an anchored pattern selects what its relative branches select at all nodes of the tree, and
its other branches at the root. Where these begin at the root or at a variable, that is what the
pattern itself selects at all nodes of the tree. -/
theorem gathers_anchor (s : Setting) (e : Expr) :
    Gathers s (anchor e) Node.root (fun b k => b ∈ e.branches ∧ Origin s.document b k) ∧
      ((∀ b ∈ e.branches, b.isRelative = true ∨ b.rooted = true) →
        Gathers s (anchor e) Node.root fun x k => x = e ∧ IsTreeNode s.document k) := by
  have hbranches : Gathers s (anchor e) Node.root fun b k => b ∈ e.branches ∧ Origin s.document b k := by
    have hall := gathers_branches (s := s) (anchor e) Node.root
    rw [XPath.branches_anchor] at hall
    refine (hall.join fun b hb => gathers_anchor_branch (Expr.isJoin_of_mem_branches hb)).of_iff fun b k => ?_
    constructor
    · rintro ⟨_, hb, rfl, hk⟩
      exact ⟨hb, hk⟩
    · exact fun hboth => ⟨b, hboth.1, rfl, hboth.2⟩
  refine ⟨hbranches, fun h => ⟨?_, fun hanchor n => ?_⟩⟩
  · rw [hbranches.hasNodes, hasNodes_branches_iff h]
    constructor
    · rintro hall _ k ⟨rfl, hk⟩
      exact hall k hk
    · exact fun hall k hk => hall e k ⟨rfl, hk⟩
  · have hall := (hasNodes_branches_iff h).mp (hbranches.hasNodes.mp hanchor)
    rw [hbranches.selects hanchor, selects_branches_iff h hall]
    simp

end

section

/-- The document `<r><a><c/></a></r>`. -/
private def nested : Document :=
  ⟨[.element ⟨⟨none, "r"⟩, none, [], [],
    [.element ⟨⟨none, "a"⟩, none, [], [], [.element ⟨⟨none, "c"⟩, none, [], [], []⟩]⟩]⟩]⟩

private def atNested : Setting := ⟨nested, .xslt, [], none, []⟩

/-- The tree of a name. -/
private def childNamed (name : String) : Expr := .relative [⟨.child, .name name, []⟩]

/-- The tree of `(a, /r/a)`. -/
private def namedTwice : Expr :=
  .sequence [childNamed "a", .absolute [⟨.child, .name "r", []⟩, ⟨.child, .name "a", []⟩]]

theorem gathers_anchor_twoBranches :
    (∀ b ∈ namedTwice.branches, b.isRelative = true ∨ b.rooted = true) ∧
      Gathers atNested (anchor namedTwice) Node.root fun x k => x = namedTwice ∧ IsTreeNode nested k := by
  have hbranches : ∀ b ∈ namedTwice.branches, b.isRelative = true ∨ b.rooted = true := by
    decide
  exact ⟨hbranches, (gathers_anchor atNested namedTwice).2 hbranches⟩

/-- The tree of `(a | b)/c`. -/
private def continuedUnion : Expr :=
  .continued (.group (.union (childNamed "a") (childNamed "b"))) [⟨.child, .name "c", []⟩]

private theorem evaluateSteps_named {name : String} {ns : List Node} {parts : List (List Node)}
    (h : ns.mapM (takeStep atNested ⟨.child, .name name, []⟩) = .ok parts) :
    evaluateSteps atNested [⟨.child, .name name, []⟩] ns = .ok (inOrder parts.flatten) :=
  evaluateSteps_cons_eq_ok_iff.mpr ⟨parts, h, rfl⟩

private theorem evaluate_continuedUnion {m : Node} (as bs ns : List Node) (parts : List (List Node))
    (ha : takeStep atNested ⟨.child, .name "a", []⟩ m = .ok as)
    (hb : takeStep atNested ⟨.child, .name "b", []⟩ m = .ok bs)
    (hunion : inOrder (inOrder as ++ inOrder bs) = ns)
    (hc : ns.mapM (takeStep atNested ⟨.child, .name "c", []⟩) = .ok parts) :
    evaluate atNested continuedUnion ⟨m, 1, 1⟩ = .ok (.nodes (inOrder parts.flatten)) := by
  have hchild {name : String} {ks : List Node} (h : takeStep atNested ⟨.child, .name name, []⟩ m = .ok ks) :
      evaluate atNested (childNamed name) ⟨m, 1, 1⟩ = .ok (.nodes (inOrder ks)) := by
    have hone : [m].mapM (takeStep atNested ⟨.child, .name name, []⟩) = .ok [ks] := by
      rw [List.mapM_cons, h]
      rfl
    rw [← List.flatten_singleton (l := ks)]
    exact evaluate_relative_eq_ok_iff.mpr (evaluateSteps_named hone)
  have hgroup : evaluate atNested (.group (.union (childNamed "a") (childNamed "b"))) ⟨m, 1, 1⟩ =
      .ok (.nodes ns) := by
    refine (evaluate_union _ _ _).trans ?_
    rw [hchild ha, hchild hb, ← hunion]
    rfl
  rw [continuedUnion, evaluate_continued, hgroup]
  exact map_nodes_eq_ok_iff.mpr (evaluateSteps_named hc)

open XPath Grammar in
private theorem parse_continuedUnion : XPath.parse "(a | b)/c" = .ok ⟨continuedUnion, false⟩ := by
  have hlex : Lexes .doubled true "(a | b)/c".toList
      [.lparen, .nameTest "a", .pipe, .nameTest "b", .rparen, .slash, .nameTest "c"] := by
    iterate 7 refine .more rfl rfl ?_
    exact .done rfl
  have ha := (Reads.childNamed "a" .noPredicates).loosen (l := .union) (by decide)
  have hunion := Reads.binary (t := .pipe) rfl ha (Reads.childNamed "b" .noPredicates)
  have hgroup := Reads.group hunion.loosest
  have hpath : Reads (.expr .path) _ continuedUnion :=
    .continued (.tighter hgroup) (t := .slash) rfl (.lastStep (.tested .none (.name "c") .noPredicates))
  exact parse_of_reads hlex hpath.loosest

/-- The path goes on from a child of `r`, and it is tried at the root only. -/
theorem gathers_anchor_continued :
    XPath.parse "(a | b)/c" = .ok ⟨continuedUnion, false⟩ ∧ IsTreeNode nested ⟨[0], .whole⟩ ∧
      Selects atNested continuedUnion ⟨[0], .whole⟩ ⟨[0, 0, 0], .whole⟩ ∧
      ¬Selects atNested (anchor continuedUnion) Node.root ⟨[0, 0, 0], .whole⟩ := by
  have hchild : evaluate atNested continuedUnion ⟨⟨[0], .whole⟩, 1, 1⟩ = .ok (.nodes [⟨[0, 0, 0], .whole⟩]) := by
    have hvalue := evaluate_continuedUnion (m := ⟨[0], .whole⟩) [⟨[0, 0], .whole⟩] [] [⟨[0, 0], .whole⟩]
      [[⟨[0, 0, 0], .whole⟩]] rfl rfl (by simp) rfl
    simpa using hvalue
  have hkept : anchor continuedUnion = continuedUnion := rfl
  have hroot : evaluate atNested continuedUnion ⟨Node.root, 1, 1⟩ = .ok (.nodes []) := by
    have hvalue := evaluate_continuedUnion (m := Node.root) [] [] [] [] rfl rfl (by simp) rfl
    simpa using hvalue
  refine ⟨parse_continuedUnion, trivial, ⟨_, hchild, List.mem_cons_self⟩, ?_⟩
  rw [hkept, selects_iff hroot]
  exact List.not_mem_nil

end

end Schematron.Evaluation
