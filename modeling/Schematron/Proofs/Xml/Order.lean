import Mathlib.Data.List.Basic
import Mathlib.Data.List.Induction
import Schematron.Xml.Traversal

/-!
The nodes in document order are the root and just the elements, attributes and texts that there are.
-/

namespace Schematron.Xml

namespace Node

theorem eq_root_of_parent? {n : Node} (h : n.parent? = none) : n = root := by
  obtain ⟨path, part⟩ := n
  cases part with
  | whole =>
    have hpath : path = [] := by
      unfold parent? at h
      simpa using h
    rw [hpath]
    rfl
  | _ => cases h

theorem parent?_concat (path : List Nat) (i : Nat) : parent? ⟨path ++ [i], .whole⟩ = some ⟨path, .whole⟩ := by
  unfold parent?
  simp

/-- A node below another is at one of its children, or it is an attribute or a namespace of it. -/
theorem parent?_cases {n p : Node} (h : n.parent? = some p) :
    (∃ path i, n = ⟨path ++ [i], .whole⟩ ∧ p = ⟨path, .whole⟩) ∨ n.part ≠ .whole ∧ p = ⟨n.path, .whole⟩ := by
  obtain ⟨path, part⟩ := n
  cases part with
  | whole =>
    rcases List.eq_nil_or_concat' path with rfl | ⟨above, i, rfl⟩
    · cases h
    rw [parent?_concat] at h
    cases h
    exact .inl ⟨above, i, rfl, rfl⟩
  | _ =>
    cases h
    exact .inr ⟨nofun, rfl⟩

theorem path_isPrefix_of_parent? {n p : Node} (h : n.parent? = some p) : p.path <+: n.path := by
  rcases parent?_cases h with ⟨path, i, rfl, rfl⟩ | ⟨-, rfl⟩
  · exact List.prefix_append path [i]
  · exact List.prefix_rfl

/-- What holds of nodes that nothing is above, and of a node where it holds of the one above, holds of all. -/
theorem parentInduction {motive : Node → Prop} (top : ∀ n, n.parent? = none → motive n)
    (below : ∀ n p, n.parent? = some p → motive p → motive n) (n : Node) : motive n := by
  have hwhole (path : List Nat) : motive ⟨path, .whole⟩ := by
    induction path using List.reverseRecOn with
    | nil => exact top _ rfl
    | append_singleton path i ih => exact below _ _ (parent?_concat path i) ih
  obtain ⟨path, part⟩ := n
  cases part with
  | whole => exact hwhole path
  | _ => exact below _ ⟨path, .whole⟩ rfl (hwhole path)

end Node

namespace Item

/-- The item that a way down from an item leads to. -/
def descend : Item → List Nat → Option Item
  | item, [] => some item
  | item, i :: rest => item.children[i]?.bind (descend · rest)

theorem descend_append (item : Item) (way more : List Nat) :
    item.descend (way ++ more) = (item.descend way).bind (·.descend more) := by
  induction way generalizing item with
  | nil => rfl
  | cons i way ih =>
    rw [List.cons_append, descend, descend, Option.bind_assoc]
    exact congrArg _ (funext ih)

/-- The parts of an item that are in document order. -/
def Shows : Item → Part → Prop
  | element _, .whole => True
  | element e, .attribute i => i < e.attributes.length
  | text _, .whole => True
  | _, _ => False

/-- What an item as a whole is as a node. -/
def asView : Item → View
  | .element e => .element e
  | .text s => .text s
  | .comment s => .comment s
  | .instruction target value => .instruction target value

theorem part_of_text {s : String} {part : Part} (h : (text s).Shows part) : part = .whole := by
  cases part with
  | whole => rfl
  | _ => cases h

end Item

namespace Document

variable {d : Document}

/-- The trail down from an item ends where the way down from it does. -/
theorem head?_trailIn (item : Item) (way : List Nat) :
    (trailIn item.children way).bind (fun trail => (trail ++ [item]).head?) = item.descend way := by
  induction way generalizing item with
  | nil => rfl
  | cons i way ih =>
    unfold trailIn Item.descend
    cases item.children[i]? with
    | none => rfl
    | some child =>
      have hhead (trail : List Item) : (trail ++ [child] ++ [item]).head? = (trail ++ [child]).head? := by
        cases trail <;> rfl
      rw [Option.bind_map, Option.bind_some, ← ih child]
      simp only [Function.comp_def, hhead]

theorem item?_cons (i : Nat) (way : List Nat) :
    d.item? (i :: way) = d.content[i]?.bind (·.descend way) := by
  unfold item? trailIn
  cases d.content[i]? with
  | none => rfl
  | some item =>
    rw [Option.bind_map, Option.bind_some, ← head?_trailIn item way]
    rfl

theorem contentAt_of_ne_nil {path : List Nat} (h : path ≠ []) :
    d.contentAt path = ((d.item? path).map Item.children).getD [] := by
  unfold contentAt
  split
  · contradiction
  · rfl

/-- What is at the end of a way is a child of what is one step before. -/
theorem item?_concat (path : List Nat) (i : Nat) : d.item? (path ++ [i]) = (d.contentAt path)[i]? := by
  cases path with
  | nil =>
    rw [List.nil_append, item?_cons]
    exact Option.bind_fun_some _
  | cons j way =>
    have hdescend : (fun item : Item => item.descend (way ++ [i])) =
        fun item => (item.descend way).bind fun inner => inner.children[i]? := by
      funext item
      rw [Item.descend_append]
      exact congrArg _ (funext fun inner => Option.bind_fun_some _)
    rw [List.cons_append, item?_cons, hdescend, ← Option.bind_assoc, ← item?_cons,
      contentAt_of_ne_nil (List.cons_ne_nil j way)]
    cases d.item? (j :: way) <;> rfl

end Document

/-- A node is in an item that is found at a path: it is a part, in document order, of something inside. -/
def Node.In (n : Node) (found : List Nat × Item) : Prop :=
  ∃ way item, n.path = found.1 ++ way ∧ found.2.descend way = some item ∧ item.Shows n.part

theorem mem_below {path : List Nat} {children : List Item} {found : List Nat × Item} :
    found ∈ below path children ↔ ∃ i, found.1 = path ++ [i] ∧ children[i]? = some found.2 := by
  unfold below
  constructor
  · intro h
    obtain ⟨⟨item, i⟩, hmem, rfl⟩ := List.mem_map.mp h
    exact ⟨i, rfl, List.mem_zipIdx_iff_getElem?.mp hmem⟩
  · rintro ⟨i, hpath, hitem⟩
    refine List.mem_map.mpr ⟨(found.2, i), List.mem_zipIdx_iff_getElem?.mpr hitem, ?_⟩
    exact Prod.ext hpath.symm rfl

/-- What is in an item is the item itself or one of its attributes, or it is in one of its children. -/
theorem Node.in_iff {n : Node} {path : List Nat} {item : Item} :
    n.In (path, item) ↔ (n.path = path ∧ item.Shows n.part) ∨ ∃ found ∈ below path item.children, n.In found := by
  constructor
  · rintro ⟨way, inner, hpath, hinner, hshows⟩
    cases way with
    | nil =>
      cases hinner
      exact .inl ⟨hpath.trans (List.append_nil path), hshows⟩
    | cons i way =>
      obtain ⟨child, hchild, hinner⟩ := Option.bind_eq_some_iff.mp hinner
      refine .inr ⟨(path ++ [i], child), mem_below.mpr ⟨i, rfl, hchild⟩, way, inner, ?_, hinner, hshows⟩
      rw [hpath, List.append_assoc]
      rfl
  · rintro (⟨hpath, hshows⟩ | ⟨⟨childPath, child⟩, hbelow, way, inner, hpath, hinner, hshows⟩)
    · exact ⟨[], item, hpath.trans (List.append_nil path).symm, rfl, hshows⟩
    · obtain ⟨i, rfl, hchild⟩ := mem_below.mp hbelow
      refine ⟨i :: way, inner, ?_, Option.bind_eq_some_iff.mpr ⟨child, hchild, hinner⟩, hshows⟩
      rw [hpath, List.append_assoc]
      rfl

theorem Node.at_element_iff {n : Node} {path : List Nat} {e : Element Item} :
    n.path = path ∧ (Item.element e).Shows n.part ↔
      n = ⟨path, .whole⟩ ∨ n ∈ (List.range e.attributes.length).map fun i => ⟨path, .attribute i⟩ := by
  obtain ⟨nodePath, part⟩ := n
  rcases part with _ | i | i
  · simp [Item.Shows]
  · simp [Item.Shows, eq_comm, and_comm]
  · simp [Item.Shows]

theorem Node.at_text_iff {n : Node} {path : List Nat} {s : String} :
    n.path = path ∧ (Item.text s).Shows n.part ↔ n = ⟨path, .whole⟩ := by
  obtain ⟨nodePath, part⟩ := n
  cases part <;> simp [Item.Shows]

/-- Nothing is in an item without children that is not in document order. -/
theorem Node.not_in {n : Node} {path : List Nat} {item : Item} (hshows : ∀ part, ¬ item.Shows part)
    (hchildren : item.children = []) : ¬ n.In (path, item) := by
  rw [Node.in_iff, hchildren]
  rintro (⟨-, hitem⟩ | ⟨found, hbelow, -⟩)
  · exact hshows n.part hitem
  · cases hbelow

/-- A traversal meets just the nodes that are in what it has before it. -/
theorem mem_walk_iff {n : Node} {stack : List (List Nat × Item)} :
    n ∈ walk stack ↔ ∃ found ∈ stack, n.In found := by
  -- An element makes way for its children, which hold what is in it but for itself and its attributes.
  fun_induction walk stack with
  | case1 => simp
  | case2 path e rest ih =>
    rw [List.cons_append, List.mem_cons, List.mem_append, ih, List.exists_mem_cons_iff, Node.in_iff,
      Node.at_element_iff]
    simp only [List.mem_append, or_and_right, exists_or, or_assoc, Item.children]
  | case3 path s rest ih =>
    have hbelow : ¬ ∃ found ∈ below path (Item.text s).children, n.In found := nofun
    rw [List.mem_cons, ih, List.exists_mem_cons_iff, Node.in_iff, Node.at_text_iff, or_iff_left hbelow]
  | case4 path s rest ih =>
    rw [ih, List.exists_mem_cons_iff, or_iff_right (Node.not_in (fun _ => id) rfl)]
  | case5 path target value rest ih =>
    rw [ih, List.exists_mem_cons_iff, or_iff_right (Node.not_in (fun _ => id) rfl)]

namespace Document

variable {d : Document} {n : Node}

/-- A node is in document order where it is the root, or a part that is shown of an item that there is. -/
theorem mem_order_iff :
    n ∈ d.order ↔ n = Node.root ∨ ∃ item, d.item? n.path = some item ∧ item.Shows n.part := by
  unfold order
  rw [List.mem_cons, mem_walk_iff]
  refine or_congr_right ?_
  constructor
  · rintro ⟨⟨path, child⟩, hbelow, way, item, hpath, hitem, hshows⟩
    obtain ⟨i, rfl, hchild⟩ := mem_below.mp hbelow
    refine ⟨item, ?_, hshows⟩
    rw [hpath]
    exact (item?_cons i way).trans (Option.bind_eq_some_iff.mpr ⟨child, hchild, hitem⟩)
  · rintro ⟨item, hitem, hshows⟩
    cases hpath : n.path with
    | nil =>
      rw [hpath] at hitem
      cases hitem
    | cons i way =>
      rw [hpath, item?_cons] at hitem
      obtain ⟨child, hchild, hitem⟩ := Option.bind_eq_some_iff.mp hitem
      exact ⟨([i], child), mem_below.mpr ⟨i, rfl, hchild⟩, way, item, hpath, hitem, hshows⟩

/-- Only elements have something inside them. -/
theorem item?_of_concat {path : List Nat} {i : Nat} {item : Item} (hpath : path ≠ [])
    (h : d.item? (path ++ [i]) = some item) : ∃ e, d.item? path = some (.element e) := by
  rw [item?_concat, contentAt_of_ne_nil hpath] at h
  cases houter : d.item? path with
  | none =>
    rw [houter] at h
    cases h
  | some outer =>
    rw [houter] at h
    cases outer with
    | element e => exact ⟨e, rfl⟩
    | _ => cases h

theorem view?_whole {item : Item} (hpart : n.part = .whole) (h : d.item? n.path = some item) :
    d.view? n = some item.asView := by
  obtain ⟨path, part⟩ := n
  cases hpart
  cases path with
  | nil => cases h
  | cons i way =>
    unfold view?
    dsimp only at h ⊢
    rw [h]
    cases item <;> rfl

theorem view?_attribute {e : Element Item} {a : Attribute} {i : Nat} (hpart : n.part = .attribute i) (h : d.item? n.path = some (.element e))
    (ha : e.attributes[i]? = some a) : d.view? n = some (.attribute e a) := by
  obtain ⟨path, part⟩ := n
  cases hpart
  cases path with
  | nil => cases h
  | cons j way =>
    unfold view?
    dsimp only at h ⊢
    rw [h]
    dsimp only
    rw [ha]
    rfl

/-- The node above one in document order is in document order. -/
theorem mem_order_of_parent? {m : Node} (h : n.parent? = some m) (hn : n ∈ d.order) : m ∈ d.order := by
  rcases mem_order_iff.mp hn with rfl | ⟨item, hitem, hshows⟩
  · cases h
  rcases Node.parent?_cases h with ⟨path, i, rfl, rfl⟩ | ⟨hpart, rfl⟩
  · rcases eq_or_ne path [] with rfl | hpath
    · exact mem_order_iff.mpr (.inl rfl)
    · obtain ⟨e, he⟩ := item?_of_concat hpath hitem
      exact mem_order_iff.mpr (.inr ⟨_, he, trivial⟩)
  · refine mem_order_iff.mpr (.inr ⟨item, hitem, ?_⟩)
    cases item with
    | element e => trivial
    | text s => exact absurd (Item.part_of_text hshows) hpart
    | _ => cases hshows

/-- A node in document order by what it is. -/
theorem mem_order_cases (h : n ∈ d.order) : n = Node.root ∨
    (∃ e, n.part = .whole ∧ d.item? n.path = some (.element e)) ∨
    (∃ e i a, n.part = .attribute i ∧ d.item? n.path = some (.element e) ∧ e.attributes[i]? = some a) ∨
    ∃ s, n.part = .whole ∧ d.item? n.path = some (.text s) := by
  refine (mem_order_iff.mp h).imp_right ?_
  rintro ⟨item, hitem, hshows⟩
  cases item with
  | element e =>
    rcases hpart : n.part with _ | i | i
    · exact .inl ⟨e, rfl, hitem⟩
    · rw [hpart] at hshows
      exact .inr (.inl ⟨e, i, _, rfl, hitem, List.getElem?_eq_getElem hshows⟩)
    · rw [hpart] at hshows
      cases hshows
  | text s => exact .inr (.inr ⟨s, Item.part_of_text hshows, hitem⟩)
  | _ => cases hshows

end Document

end Schematron.Xml
