import Schematron.Evaluation.Evaluate
import Schematron.Proofs.Success
import Schematron.Proofs.Xml.Order

/-!
The nodes that a path leads to, one step after the other.
-/

namespace Schematron.Evaluation

open Schematron.Xml
open Schematron.XPath (Expr Step)

theorem mem_dropRepeats {n : Node} {ns : List Node} : n ∈ dropRepeats ns ↔ n ∈ ns := by
  fun_induction dropRepeats ns with
  | case1 a rest ih => simp [ih]
  | case2 a b rest _ ih => rw [List.mem_cons, ih, ← List.mem_cons]
  | case3 => rfl

theorem mem_inOrder {n : Node} {ns : List Node} : n ∈ inOrder ns ↔ n ∈ ns := by
  rw [inOrder, mem_dropRepeats, List.mem_mergeSort]

@[simp]
theorem inOrder_nil : inOrder [] = [] := by
  simp [inOrder, dropRepeats]

@[simp]
theorem inOrder_singleton (n : Node) : inOrder [n] = [n] := by
  simp [inOrder, dropRepeats]

section

variable (s : Setting)

/-- The nodes that one step leads to. -/
def takeStep (step : Step Expr) (n : Node) : Except Fault (List Node) := do
  narrow s step.predicates (← select s step.axis step.test n)

/-- Each step leads to nodes from every node that is met on the way. -/
def Passable : List (Step Expr) → Node → Prop
  | [], _ => True
  | step :: rest, m => ∃ ks, takeStep s step m = .ok ks ∧ ∀ k ∈ ks, Passable rest k

/-- A path leads from one node to another, by way of a node for each step. -/
def Leads : List (Step Expr) → Node → Node → Prop
  | [], m, n => n = m
  | step :: rest, m, n => ∃ ks, takeStep s step m = .ok ks ∧ ∃ k ∈ ks, Leads rest k n

variable {s}

theorem evaluateSteps_cons_eq_ok_iff {step : Step Expr} {rest : List (Step Expr)} {ns found : List Node} :
    evaluateSteps s (step :: rest) ns = .ok found ↔
      ∃ parts, ns.mapM (takeStep s step) = .ok parts ∧
        evaluateSteps s rest (inOrder parts.flatten) = .ok found := by
  rw [evaluateSteps]
  exact bind_eq_ok_iff

/-- What steps lead to from some nodes is what they lead to from one of them. -/
theorem mem_of_evaluateSteps {steps : List (Step Expr)} {ns found : List Node}
    (h : evaluateSteps s steps ns = .ok found) {n : Node} : n ∈ found ↔ ∃ m ∈ ns, Leads s steps m n := by
  induction steps generalizing ns with
  | nil =>
    rw [evaluateSteps] at h
    cases h
    simp [Leads]
  | cons step rest ih =>
    obtain ⟨parts, hparts, hrest⟩ := evaluateSteps_cons_eq_ok_iff.mp h
    have hmem (ks : List Node) : ks ∈ parts ↔ ∃ m ∈ ns, takeStep s step m = .ok ks := mem_of_mapM_eq_ok hparts
    rw [ih hrest]
    constructor
    · rintro ⟨k, hk, hkn⟩
      obtain ⟨ks, hks, hk⟩ := List.mem_flatten.mp (mem_inOrder.mp hk)
      obtain ⟨m, hm, hmks⟩ := (hmem ks).mp hks
      exact ⟨m, hm, ks, hmks, k, hk, hkn⟩
    · rintro ⟨m, hm, ks, hmks, k, hk, hkn⟩
      have hks := (hmem ks).mpr ⟨m, hm, hmks⟩
      exact ⟨k, mem_inOrder.mpr (List.mem_flatten.mpr ⟨ks, hks, hk⟩), hkn⟩

/-- Steps can be taken from some nodes just where they can be taken from each. -/
theorem exists_evaluateSteps_iff {steps : List (Step Expr)} {ns : List Node} :
    (∃ found, evaluateSteps s steps ns = .ok found) ↔ ∀ m ∈ ns, Passable s steps m := by
  induction steps generalizing ns with
  | nil => simp [evaluateSteps, Passable]
  | cons step rest ih =>
    simp only [evaluateSteps_cons_eq_ok_iff, Passable]
    rw [exists_comm]
    simp only [exists_and_left, ih, mem_inOrder]
    constructor
    · rintro ⟨parts, hparts, hrest⟩ m hm
      obtain ⟨ks, hmks⟩ := exists_mapM_eq_ok_iff.mp ⟨parts, hparts⟩ m hm
      have hks := (mem_of_mapM_eq_ok hparts).mpr ⟨m, hm, hmks⟩
      exact ⟨ks, hmks, fun k hk => hrest k (List.mem_flatten.mpr ⟨ks, hks, hk⟩)⟩
    · intro hall
      obtain ⟨parts, hparts⟩ := exists_mapM_eq_ok_iff.mpr fun m hm => (hall m hm).imp fun _ h => h.1
      refine ⟨parts, hparts, fun k hk => ?_⟩
      obtain ⟨ks, hks, hk⟩ := List.mem_flatten.mp hk
      obtain ⟨m, hm, hmks⟩ := (mem_of_mapM_eq_ok hparts).mp hks
      obtain ⟨ks', hmks', hrest⟩ := hall m hm
      cases hmks.symm.trans hmks'
      exact hrest k hk

end

/-- The root, an element, a text, a comment or an instruction, which other nodes of a document belong to. -/
def IsTreeNode (d : Document) (n : Node) : Prop :=
  match d.view? n with
  | some .root | some (.element _) | some (.text _) | some (.comment _) | some (.instruction _ _) => True
  | _ => False

theorem isTreeNode_root (d : Document) : IsTreeNode d Node.root := trivial

theorem isTreeNode_iff {d : Document} {n : Node} :
    IsTreeNode d n ↔ n = Node.root ∨ n.part = .whole ∧ (d.item? n.path).isSome = true := by
  obtain ⟨path, part⟩ := n
  unfold IsTreeNode
  rcases part with _ | i | i <;> cases path with
  | nil => simp [Document.view?, Node.root]
  | cons j way =>
    unfold Document.view?
    rcases hitem : d.item? (j :: way) with _ | (_ | _ | _ | _) <;> simp [Node.root, hitem]

mutual
theorem mem_nodesBelow_iff {n : Node} {path : List Nat} : (item : Item) →
    (n ∈ nodesBelow path item ↔
      ∃ i way, n = ⟨path ++ i :: way, .whole⟩ ∧ (item.descend (i :: way)).isSome = true)
  | .element ⟨_, _, _, _, children⟩ => by
    rw [nodesBelow, mem_nodesBelowFrom_iff]
    simp [Item.descend, Item.children]
  | .text _ | .comment _ | .instruction _ _ => by simp [nodesBelow, Item.descend, Item.children]

theorem mem_nodesBelowFrom_iff {n : Node} {path : List Nat} {index : Nat} : (items : List Item) →
    (n ∈ nodesBelowFrom path index items ↔
      ∃ i way, n = ⟨path ++ (index + i) :: way, .whole⟩ ∧ (items[i]?.bind (·.descend way)).isSome = true)
  | [] => by simp [nodesBelowFrom]
  | item :: rest => by
    rw [nodesBelowFrom, List.cons_append, List.mem_cons, List.mem_append, mem_nodesBelow_iff,
      mem_nodesBelowFrom_iff]
    constructor
    · rintro (rfl | ⟨i, way, rfl, hitem⟩ | ⟨i, way, rfl, hitem⟩)
      · exact ⟨0, [], rfl, rfl⟩
      · exact ⟨0, i :: way, by rw [List.append_assoc]; rfl, hitem⟩
      · exact ⟨i + 1, way, by rw [Nat.add_assoc, Nat.add_comm 1], hitem⟩
    · rintro ⟨i, way, rfl, hitem⟩
      cases i with
      | zero =>
        cases way with
        | nil => exact .inl rfl
        | cons i way => exact .inr (.inl ⟨i, way, by rw [List.append_assoc]; rfl, hitem⟩)
      | succ i => exact .inr (.inr ⟨i, way, by rw [Nat.add_assoc, Nat.add_comm 1], hitem⟩)
end

/-- The root and all below it are the nodes of the tree. -/
theorem mem_descendants_root_iff {d : Document} {n : Node} :
    n ∈ Node.root :: descendants d Node.root ↔ IsTreeNode d n := by
  have hbelow : n ∈ descendants d Node.root ↔
      ∃ i way, n = ⟨i :: way, .whole⟩ ∧ (d.item? (i :: way)).isSome = true := by
    simp only [Document.item?_cons]
    exact (mem_nodesBelowFrom_iff d.content).trans (by simp [Node.root])
  rw [List.mem_cons, isTreeNode_iff, hbelow]
  refine or_congr_right ⟨?_, ?_⟩
  · rintro ⟨i, way, rfl, hitem⟩
    exact ⟨rfl, hitem⟩
  · rintro ⟨hpart, hitem⟩
    obtain ⟨path, part⟩ := n
    cases hpart
    cases path with
    | nil => cases hitem
    | cons i way => exact ⟨i, way, rfl, hitem⟩

theorem isSome_view?_of_isTreeNode {d : Document} {n : Node} (h : IsTreeNode d n) :
    (d.view? n).isSome = true := by
  unfold IsTreeNode at h
  cases hview : d.view? n with
  | some => rfl
  | none =>
    rw [hview] at h
    exact h.elim

/-- From the root a double slash leads to all nodes of the tree. -/
theorem takeStep_descendantOrSelf (s : Setting) :
    ∃ ks, takeStep s .descendantOrSelf Node.root = .ok ks ∧ ∀ k, k ∈ ks ↔ IsTreeNode s.document k := by
  have hselect : select s .descendantOrSelf .node Node.root =
      .ok ((Node.root :: descendants s.document Node.root).filter fun m => (s.document.view? m).isSome) := by
    refine filterM_eq_ok fun m _ => ?_
    cases s.document.view? m <;> rfl
  refine ⟨_, bind_eq_ok_iff.mpr ⟨_, hselect, rfl⟩, fun k => ?_⟩
  rw [List.mem_filter, mem_descendants_root_iff]
  exact and_iff_left_of_imp isSome_view?_of_isTreeNode

end Schematron.Evaluation
