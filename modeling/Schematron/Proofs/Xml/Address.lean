import Schematron.Proofs.Xml.Order
import Schematron.Xml.Location

/-!
Addresses of nodes. The address of a node is the way down to it, and from wherever in the document one starts
it leads to that node.
-/

namespace Schematron.Xml

/-- The root, an element, an attribute, a text, a comment or an instruction of the document. -/
def Document.HasNode (d : Document) (n : Node) : Prop :=
  match d.view? n with
  | some (.binding _ _) | none => False
  | some _ => True

/-- The index of an attribute. -/
def Part.attribute? : Part → Option Nat
  | .attribute i => some i
  | .whole | .binding _ => none

/-- However far down one starts, the way up ends at the root. -/
theorem Node.top_eq_root (n : Node) : n.top = root := by
  induction n using parentInduction with
  | top n h =>
    unfold Node.top
    split
    · exact eq_root_of_parent? h
    · rename_i p hp
      cases h.symm.trans hp
  | below n p h ih =>
    unfold Node.top
    split
    · rename_i hnone
      cases h.symm.trans hnone
    · rename_i q hq
      cases h.symm.trans hq
      exact ih

/-- Of nodes that are numbered, each is at the place of its number. -/
theorem idxOf?_map_range {f : Nat → Node} (hf : Function.Injective f) {i size : Nat} (h : i < size) :
    ((List.range size).map f).idxOf? (f i) = some i := by
  refine List.idxOf?_eq_some_iff.mpr ⟨by simpa using h, by simp, fun j hj heq => ?_⟩
  rw [List.getElem_map, List.getElem_range] at heq
  exact Nat.ne_of_lt hj (hf heq)

namespace Document

variable {d : Document} {path : List Nat} {i : Nat}

/-- A way down from the root that ends at the root or at an item. -/
def IsWay (d : Document) (path : List Nat) : Prop := path = [] ∨ (d.item? path).isSome = true

theorem IsWay.of_concat (h : d.IsWay (path ++ [i])) : d.IsWay path ∧ i < (d.contentAt path).length := by
  rcases h with h | h
  · cases path <;> cases h
  obtain ⟨item, hitem⟩ := Option.isSome_iff_exists.mp h
  have hindex : (d.contentAt path)[i]? = some item := by rw [← item?_concat, hitem]
  refine ⟨?_, (List.getElem?_eq_some_iff.mp hindex).1⟩
  rcases eq_or_ne path [] with hpath | hpath
  · exact .inl hpath
  · obtain ⟨e, he⟩ := item?_of_concat hpath hitem
    exact .inr (by rw [he]; rfl)

theorem childrenOf_whole (d : Document) (path : List Nat) :
    d.childrenOf ⟨path, .whole⟩ = (List.range (d.contentAt path).length).map fun i => ⟨path ++ [i], .whole⟩ :=
  rfl

theorem idxOf?_childrenOf (h : i < (d.contentAt path).length) :
    (d.childrenOf ⟨path, .whole⟩).idxOf? ⟨path ++ [i], .whole⟩ = some i := by
  rw [childrenOf_whole]
  refine idxOf?_map_range (f := fun i => ⟨path ++ [i], .whole⟩) (fun j k heq => ?_) h
  simpa using heq

theorem getElem?_childrenOf (h : i < (d.contentAt path).length) :
    (d.childrenOf ⟨path, .whole⟩)[i]? = some ⟨path ++ [i], .whole⟩ := by
  rw [childrenOf_whole, List.getElem?_map, List.getElem?_range h]
  rfl

theorem attributesOf_of_element {e : Element Item} (h : d.item? path = some (.element e)) :
    d.attributesOf ⟨path, .whole⟩ = (List.range e.attributes.length).map fun i => ⟨path, .attribute i⟩ := by
  unfold attributesOf
  rw [view?_whole rfl h]
  rfl

/-- A node of the document is at the end of a way, or it is an attribute of an element there. -/
theorem HasNode.whole_or_attribute {n : Node} (h : d.HasNode n) :
    (n.part = .whole ∧ d.IsWay n.path) ∨
      ∃ e i, n.part = .attribute i ∧ d.item? n.path = some (.element e) ∧ i < e.attributes.length := by
  unfold HasNode at h
  split at h
  · exact h.elim
  · exact h.elim
  rename_i v hbinding hview
  unfold view? at hview
  split at hview
  · rename_i hpart hpath
    exact .inl ⟨hpart, .inl hpath⟩
  · cases hview
  split at hview
  case h_5 hpart hitem =>
    obtain ⟨a, ha, -⟩ := Option.map_eq_some_iff.mp hview
    exact .inr ⟨_, _, hpart, hitem, (List.getElem?_eq_some_iff.mp ha).1⟩
  case h_6 hpart hitem =>
    obtain ⟨b, -, rfl⟩ := Option.map_eq_some_iff.mp hview
    exact (hbinding _ _ rfl).elim
  case h_7 => cases hview
  all_goals
    rename_i hpart hitem
    exact .inl ⟨hpart, .inr (by rw [hitem]; rfl)⟩

end Document

namespace Address

variable {d : Document} {path : List Nat}

/-- The way up from the end of a way down is that way, read from its end. -/
theorem climb_eq (h : d.IsWay path) {fuel : Nat} (hfuel : path.length < fuel) :
    climb d ⟨path, .whole⟩ fuel = path.reverse := by
  induction path using List.reverseRecOn generalizing fuel with
  | nil => cases fuel <;> rfl
  | append_singleton path i ih =>
    obtain ⟨hpath, hi⟩ := h.of_concat
    rw [List.length_append, List.length_singleton] at hfuel
    cases fuel with
    | zero => omega
    | succ fuel =>
      rw [climb, Node.parent?_concat]
      simp only [Document.idxOf?_childrenOf hi, Option.getD_some, List.reverse_append,
        List.reverse_singleton, List.singleton_append]
      rw [ih hpath (by omega)]

theorem descend_concat (n : Node) (way : List Nat) (i : Nat) :
    descend d n (way ++ [i]) = (descend d n way).bind fun m => (d.childrenOf m)[i]? := by
  induction way generalizing n with
  | nil =>
    rw [List.nil_append, descend, descend, Option.bind_some]
    exact Option.bind_fun_some _
  | cons j way ih =>
    rw [List.cons_append, descend, descend, Option.bind_assoc]
    exact congrArg _ (funext ih)

/-- A way down is gone step by step. -/
theorem descend_eq (h : d.IsWay path) : descend d Node.root path = some ⟨path, .whole⟩ := by
  induction path using List.reverseRecOn with
  | nil => rfl
  | append_singleton path i ih =>
    obtain ⟨hpath, hi⟩ := h.of_concat
    rw [descend_concat, ih hpath, Option.bind_some, Document.getElem?_childrenOf hi]

/-- No fallback is ever taken: the address of a node is the way down to it and, for an attribute, its index. -/
theorem ofNode_eq {n : Node} (h : d.HasNode n) : ofNode d n = ⟨n.path, n.part.attribute?⟩ := by
  obtain ⟨path, part⟩ := n
  rcases h.whole_or_attribute with ⟨hpart, hway⟩ | ⟨e, i, hpart, hitem, hi⟩
  · obtain rfl : part = .whole := hpart
    unfold ofNode
    rw [climb_eq hway (Nat.lt_succ_self _), List.reverse_reverse]
    rfl
  · obtain rfl : part = .attribute i := hpart
    have hway : d.IsWay path := .inr (by rw [hitem]; rfl)
    have hindex : (d.attributesOf ⟨path, .whole⟩).idxOf? ⟨path, .attribute i⟩ = some i := by
      rw [Document.attributesOf_of_element hitem]
      refine idxOf?_map_range (f := fun i => ⟨path, .attribute i⟩) (fun j k heq => ?_) hi
      simpa using heq
    show Address.mk _ _ = _
    rw [climb_eq hway (Nat.lt_succ_self _), List.reverse_reverse, hindex]
    rfl

/-- The address of a node leads to that node, from whatever node the way up begins. -/
theorem resolveFrom_ofNode {n : Node} (h : d.HasNode n) (anchor : Node) :
    (ofNode d n).resolveFrom d anchor = some n := by
  obtain ⟨path, part⟩ := n
  rw [ofNode_eq h, resolveFrom, Node.top_eq_root]
  rcases h.whole_or_attribute with ⟨hpart, hway⟩ | ⟨e, i, hpart, hitem, hi⟩
  · obtain rfl : part = .whole := hpart
    simp only [descend_eq hway, Part.attribute?]
  · obtain rfl : part = .attribute i := hpart
    have hway : d.IsWay path := .inr (by rw [hitem]; rfl)
    simp only [descend_eq hway, Part.attribute?, Document.attributesOf_of_element hitem, List.getElem?_map,
      List.getElem?_range hi, Option.map_some]

/-- Two nodes with one address are the same. -/
theorem eq_of_ofNode_eq {n m : Node} (hn : d.HasNode n) (hm : d.HasNode m) (h : ofNode d n = ofNode d m) :
    n = m := by
  have hresolved := resolveFrom_ofNode hn Node.root
  rw [h, resolveFrom_ofNode hm Node.root] at hresolved
  exact (Option.some.inj hresolved).symm

end Address

end Schematron.Xml
