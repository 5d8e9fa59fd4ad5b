import Mathlib.Data.List.Lex
import Mathlib.Data.List.Nodup
import Schematron.Evaluation.Axis
import Schematron.Proofs.Xml.Address

/-!
Document order as a recursion over the tree. A traversal that keeps a stack of the items it has still to look at
meets what the recursion meets: an item, its attributes, then what is below it. So each node comes once, behind
the one above it and in front of its following siblings.
-/

namespace Schematron.Xml

namespace Item

mutual
/-- The nodes that an item at a path shows: itself, its attributes in order, and those of its children. -/
def preorder (path : List Nat) : Item → List Node
  | element ⟨_, _, _, attributes, children⟩ =>
    ⟨path, .whole⟩ :: (List.range attributes.length).map (fun i => ⟨path, .attribute i⟩)
      ++ preorderFrom path 0 children
  | text _ => [⟨path, .whole⟩]
  | comment _ | instruction _ _ => []

/-- The same for siblings, of which the first has the given index. -/
def preorderFrom (path : List Nat) (index : Nat) : List Item → List Node
  | [] => []
  | item :: rest => item.preorder (path ++ [index]) ++ preorderFrom path (index + 1) rest
end

/-- What the children of an item show, each where it is found. -/
theorem flatMap_below (path : List Nat) (children : List Item) :
    (below path children).flatMap (fun found => found.2.preorder found.1) = preorderFrom path 0 children := by
  have hfrom (index : Nat) : (children.zipIdx index).flatMap (fun found => found.1.preorder (path ++ [found.2])) =
      preorderFrom path index children := by
    induction children generalizing index with
    | nil => rfl
    | cons item rest ih =>
      rw [List.zipIdx_cons, List.flatMap_cons, ih, preorderFrom]
  rw [below, List.flatMap_map]
  exact hfrom 0

end Item

/-- The root, and what stands at the top of the document. -/
def Document.preorder (d : Document) : List Node := Node.root :: Item.preorderFrom [] 0 d.content

/-- What is left of a traversal is what the items on the stack show, from the top of the stack down. -/
theorem walk_eq_flatMap (stack : List (List Nat × Item)) :
    walk stack = stack.flatMap fun found => found.2.preorder found.1 := by
  fun_induction walk stack with
  | case1 => rfl
  | case2 path e rest ih =>
    -- The children replace their element on the stack, the first one on top.
    rw [ih, List.flatMap_append, Item.flatMap_below, List.flatMap_cons, Item.preorder, List.append_assoc]
  | case3 path s rest ih =>
    rw [ih]
    rfl
  | case4 path s rest ih =>
    rw [ih]
    rfl
  | case5 path target value rest ih =>
    rw [ih]
    rfl

/-- The whole of an item comes before its other parts, and its attributes as they are numbered. -/
inductive Part.Before : Part → Part → Prop
  | whole {part : Part} (h : part ≠ .whole) : Before .whole part
  | further {i j : Nat} (h : i < j) : Before (.attribute i) (.attribute j)

/-- A node comes before another by their ways down, the shorter of which counts as the lesser. -/
def Node.Before (n m : Node) : Prop :=
  List.Lex (· < ·) n.path m.path ∨ n.path = m.path ∧ n.part.Before m.part

namespace Node

theorem Before.asymm {n m : Node} (h : n.Before m) : ¬ m.Before n := by
  intro h'
  rcases h with h | ⟨hpath, hpart⟩
  · rcases h' with h' | ⟨hpath', -⟩
    · exact asymm_of _ h h'
    · rw [hpath'] at h
      exact asymm_of _ h h
  · rcases h' with h' | ⟨-, hpart'⟩
    · rw [hpath] at h'
      exact asymm_of _ h' h'
    · generalize n.part = part at hpart hpart'
      generalize m.part = part' at hpart hpart'
      cases hpart with
      | whole hne =>
        cases hpart'
        exact hne rfl
      | further hlt =>
        cases hpart' with
        | further hlt' => omega

theorem lex_append {path way : List Nat} (h : way ≠ []) : List.Lex (· < ·) path (path ++ way) := by
  obtain ⟨i, rest, rfl⟩ := List.exists_cons_of_ne_nil h
  have hnil : List.Lex (· < ·) [] (i :: rest) := .nil
  simpa using hnil.append_left _ path

/-- A node comes after the one above it. -/
theorem before_of_parent? {n p : Node} (h : n.parent? = some p) : p.Before n := by
  rcases parent?_cases h with ⟨path, i, rfl, rfl⟩ | ⟨hpart, rfl⟩
  · exact .inl (lex_append (List.cons_ne_nil i []))
  · exact .inr ⟨rfl, .whole hpart⟩

/-- A node on another branch further on comes after. -/
theorem before_of_lt {path way way' : List Nat} {i j : Nat} {part part' : Part} (h : i < j) :
    Node.Before ⟨path ++ i :: way, part⟩ ⟨path ++ j :: way', part'⟩ := by
  have hrel : List.Lex (· < ·) (i :: way) (j :: way') := .rel h
  exact .inl (hrel.append_left _ path)

end Node

namespace Item

theorem pairwise_attributes (path : List Nat) (size : Nat) :
    ((List.range size).map fun i => (⟨path, .attribute i⟩ : Node)).Pairwise Node.Before := by
  refine List.pairwise_map.mpr ?_
  exact List.pairwise_lt_range.imp fun h => .inr ⟨rfl, .further h⟩

mutual
/-- What an item shows is at its own path or below. -/
theorem path_of_mem_preorder {path : List Nat} {n : Node} :
    ∀ {item : Item}, n ∈ item.preorder path → ∃ way, n.path = path ++ way
  | element ⟨_, _, _, attributes, children⟩, h => by
    rw [preorder, List.mem_append, List.mem_cons, List.mem_map] at h
    rcases h with (rfl | ⟨i, -, rfl⟩) | h
    · exact ⟨[], (List.append_nil path).symm⟩
    · exact ⟨[], (List.append_nil path).symm⟩
    · obtain ⟨i, way, -, hpath⟩ := path_of_mem_preorderFrom h
      exact ⟨i :: way, hpath⟩
  | text _, h => by
    rw [List.mem_singleton.mp h]
    exact ⟨[], (List.append_nil path).symm⟩
  | comment _, h => by cases h
  | instruction _ _, h => by cases h

theorem path_of_mem_preorderFrom {path : List Nat} {n : Node} {index : Nat} :
    ∀ {children : List Item}, n ∈ preorderFrom path index children → ∃ i way, index ≤ i ∧ n.path = path ++ i :: way
  | [], h => by cases h
  | item :: rest, h => by
    rw [preorderFrom, List.mem_append] at h
    rcases h with h | h
    · obtain ⟨way, hpath⟩ := path_of_mem_preorder h
      rw [List.append_assoc] at hpath
      exact ⟨index, way, Nat.le_refl index, hpath⟩
    · obtain ⟨i, way, hle, hpath⟩ := path_of_mem_preorderFrom h
      exact ⟨i, way, Nat.le_of_succ_le hle, hpath⟩
end

mutual
theorem pairwise_preorder (path : List Nat) : ∀ item : Item, (item.preorder path).Pairwise Node.Before
  | element ⟨_, _, _, attributes, children⟩ => by
    have hown : (⟨path, .whole⟩ :: (List.range attributes.length).map
        (fun i => (⟨path, .attribute i⟩ : Node))).Pairwise Node.Before := by
      refine List.pairwise_cons.mpr ⟨fun n hn => ?_, pairwise_attributes path attributes.length⟩
      obtain ⟨i, -, rfl⟩ := List.mem_map.mp hn
      exact .inr ⟨rfl, .whole nofun⟩
    rw [preorder, List.pairwise_append]
    refine ⟨hown, pairwise_preorderFrom path 0 children, fun n hn m hm => ?_⟩
    have hn' : n.path = path := by
      rcases List.mem_cons.mp hn with rfl | hn
      · rfl
      · obtain ⟨i, -, rfl⟩ := List.mem_map.mp hn
        rfl
    obtain ⟨i, way, -, hm'⟩ := path_of_mem_preorderFrom hm
    refine .inl ?_
    rw [hn', hm']
    exact Node.lex_append (List.cons_ne_nil i way)
  | text _ => List.pairwise_singleton _ _
  | comment _ => .nil
  | instruction _ _ => .nil

theorem pairwise_preorderFrom (path : List Nat) (index : Nat) :
    ∀ children : List Item, (preorderFrom path index children).Pairwise Node.Before
  | [] => .nil
  | item :: rest => by
    rw [preorderFrom, List.pairwise_append]
    refine ⟨pairwise_preorder _ item, pairwise_preorderFrom path (index + 1) rest, fun n hn m hm => ?_⟩
    obtain ⟨way, hn'⟩ := path_of_mem_preorder hn
    obtain ⟨i, way', hle, hm'⟩ := path_of_mem_preorderFrom hm
    obtain ⟨path', part⟩ := n
    obtain ⟨path'', part'⟩ := m
    obtain rfl : path' = _ := hn'
    obtain rfl : path'' = _ := hm'
    rw [List.append_assoc]
    exact Node.before_of_lt (by omega)
end

end Item

/-- Of two items of a list in order, the lesser one comes first. -/
theorem sublist_of_pairwise {l : List Node} (hl : l.Pairwise Node.Before) {n m : Node} (hn : n ∈ l) (hm : m ∈ l)
    (h : n.Before m) : [n, m].Sublist l := by
  induction l with
  | nil => cases hn
  | cons a l ih =>
    obtain ⟨ha, hl⟩ := List.pairwise_cons.mp hl
    rcases List.mem_cons.mp hn with hfirst | hn'
    · rcases List.mem_cons.mp hm with hfirst' | hm'
      · rw [hfirst, hfirst'] at h
        exact absurd h h.asymm
      · rw [hfirst]
        exact (List.singleton_sublist.mpr hm').cons_cons a
    · rcases List.mem_cons.mp hm with hfirst | hm'
      · rw [hfirst] at h
        exact absurd h (ha n hn').asymm
      · exact (ih hl hn' hm').cons a

/-- The root, elements, attributes and texts are shown; comments, instructions and namespaces are not. -/
def View.isShown : View → Bool
  | .root | .element _ | .attribute _ _ | .text _ => true
  | .comment _ | .instruction _ _ | .binding _ _ => false

namespace Document

variable {d : Document} {n m : Node}

theorem order_eq (d : Document) : d.order = d.preorder := by
  rw [order, walk_eq_flatMap, Item.flatMap_below]
  rfl

theorem pairwise_order (d : Document) : d.order.Pairwise Node.Before := by
  rw [order_eq, preorder, List.pairwise_cons]
  refine ⟨fun n hn => ?_, Item.pairwise_preorderFrom [] 0 d.content⟩
  obtain ⟨i, way, -, hpath⟩ := Item.path_of_mem_preorderFrom hn
  refine .inl ?_
  rw [hpath]
  exact .nil

theorem nodup_order (d : Document) : d.order.Nodup := by
  refine d.pairwise_order.imp fun {n m} h heq => ?_
  rw [heq] at h
  exact h.asymm h

theorem mem_order_iff_isShown : n ∈ d.order ↔ (d.view? n).any View.isShown = true := by
  constructor
  · intro h
    rcases mem_order_cases h with rfl | ⟨e, hpart, hitem⟩ | ⟨e, i, a, hpart, hitem, ha⟩ | ⟨s, hpart, hitem⟩
    · rfl
    · rw [view?_whole hpart hitem]
      rfl
    · rw [view?_attribute hpart hitem ha]
      rfl
    · rw [view?_whole hpart hitem]
      rfl
  · intro h
    have hnode : d.HasNode n := by
      unfold HasNode
      split
      · rename_i hview
        rw [hview] at h
        cases h
      · rename_i hview
        rw [hview] at h
        cases h
      · trivial
    rcases hnode.whole_or_attribute with ⟨hpart, hpath | hitem⟩ | ⟨e, i, hpart, hitem, hi⟩
    · refine mem_order_iff.mpr (.inl ?_)
      obtain ⟨path, part⟩ := n
      rw [show path = [] from hpath, show part = .whole from hpart]
      rfl
    · obtain ⟨item, hitem⟩ := Option.isSome_iff_exists.mp hitem
      rw [view?_whole hpart hitem] at h
      refine mem_order_iff.mpr (.inr ⟨item, hitem, ?_⟩)
      rw [hpart]
      cases item with
      | element e => trivial
      | text s => trivial
      | comment s => cases h
      | instruction target value => cases h
    · refine mem_order_iff.mpr (.inr ⟨_, hitem, ?_⟩)
      rw [hpart]
      exact hi

/-- A following sibling comes after. -/
theorem before_of_mem_followingSiblings (h : m ∈ Evaluation.followingSiblings d n) : n.Before m := by
  have hsiblings : (Evaluation.siblingsOf d n).Pairwise Node.Before := by
    obtain ⟨path, part⟩ := n
    cases part with
    | whole =>
      rcases List.eq_nil_or_concat' path with rfl | ⟨above, i, rfl⟩
      · exact .nil
      · unfold Evaluation.siblingsOf
        rw [Node.parent?_concat]
        exact List.pairwise_map.mpr (List.pairwise_lt_range.imp Node.before_of_lt)
    | _ => exact .nil
  -- What is left of the siblings begins with the node itself.
  unfold Evaluation.followingSiblings at h
  have hrest := hsiblings.sublist (List.dropWhile_sublist (· ≠ n))
  cases hdrop : (Evaluation.siblingsOf d n).dropWhile (· ≠ n) with
  | nil =>
    rw [hdrop] at h
    cases h
  | cons first rest =>
    have hfirst : first = n := by
      have hhead := List.head?_dropWhile_not (· ≠ n) (Evaluation.siblingsOf d n)
      rw [hdrop] at hhead
      simpa using hhead
    rw [hdrop, hfirst] at hrest
    rw [hdrop] at h
    exact (List.pairwise_cons.mp hrest).1 m h

/-- The traversal gives the nodes as the recursion does. The root, the elements, the attributes and the texts are
in it once each and nothing else is; every node is behind the one above it and in front of its following
siblings. -/
theorem order_eq_preorder (d : Document) :
    d.order = d.preorder ∧
      (∀ n, d.order.count n = if (d.view? n).any View.isShown then 1 else 0) ∧
      (∀ n ∈ d.order, ∀ p, n.parent? = some p → [p, n].Sublist d.order) ∧
      ∀ n ∈ d.order, ∀ m ∈ d.order, m ∈ Evaluation.followingSiblings d n → [n, m].Sublist d.order := by
  refine ⟨d.order_eq, fun n => ?_, fun n hn p hp => ?_, fun n hn m hm hfollowing => ?_⟩
  · rw [d.nodup_order.count]
    simp only [mem_order_iff_isShown]
  · have hp' : p ∈ d.order := mem_order_of_parent? hp hn
    exact sublist_of_pairwise d.pairwise_order hp' hn (Node.before_of_parent? hp)
  · exact sublist_of_pairwise d.pairwise_order hn hm (before_of_mem_followingSiblings hfollowing)

/-- `<!--c--><r x="1" y="2"><a>t</a><?i?><b/></r>` -/
private def mixed : Document :=
  let plain (name : String) (attributes : List Attribute) (children : List Item) : Item :=
    .element ⟨⟨none, name⟩, none, [], attributes, children⟩
  ⟨[.comment "c", plain "r" [⟨⟨none, "x"⟩, none, "1"⟩, ⟨⟨none, "y"⟩, none, "2"⟩]
    [plain "a" [] [.text "t"], .instruction "i" none, plain "b" [] []]]⟩

theorem order_eq_preorder_mixed :
    (⟨[1], .attribute 1⟩ ∈ mixed.order ∧ Node.parent? ⟨[1], .attribute 1⟩ = some ⟨[1], .whole⟩ ∧
      [⟨[1], .whole⟩, ⟨[1], .attribute 1⟩].Sublist mixed.order) ∧
    (⟨[1, 0], .whole⟩ ∈ mixed.order ∧ ⟨[1, 2], .whole⟩ ∈ mixed.order ∧
      ⟨[1, 2], .whole⟩ ∈ Evaluation.followingSiblings mixed ⟨[1, 0], .whole⟩ ∧
      [⟨[1, 0], .whole⟩, ⟨[1, 2], .whole⟩].Sublist mixed.order) := by
  obtain ⟨-, -, habove, hsiblings⟩ := mixed.order_eq_preorder
  have hattribute : ⟨[1], .attribute 1⟩ ∈ mixed.order := by decide +kernel
  have hfirst : ⟨[1, 0], .whole⟩ ∈ mixed.order := by decide +kernel
  have hlast : ⟨[1, 2], .whole⟩ ∈ mixed.order := by decide +kernel
  have hfollowing : ⟨[1, 2], .whole⟩ ∈ Evaluation.followingSiblings mixed ⟨[1, 0], .whole⟩ := by
    decide +kernel
  exact ⟨⟨hattribute, rfl, habove _ hattribute _ rfl⟩, hfirst, hlast, hfollowing,
    hsiblings _ hfirst _ hlast hfollowing⟩

end Document

end Schematron.Xml
