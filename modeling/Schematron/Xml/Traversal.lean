import Schematron.Xml.Node

namespace Schematron.Xml

/-- The children of an item with their ways down. -/
def below (path : List Nat) (children : List Item) : List (List Nat × Item) :=
  children.zipIdx.map fun (item, i) => (path ++ [i], item)

def stackSize (stack : List (List Nat × Item)) : Nat := Item.sizeAll (stack.map (·.2))

theorem sizeAll_append (xs ys : List Item) :
    Item.sizeAll (xs ++ ys) = Item.sizeAll xs + Item.sizeAll ys := by
  induction xs with
  | nil => simp [Item.sizeAll]
  | cons x xs ih => simp only [List.cons_append, Item.sizeAll, ih, Nat.add_assoc]

theorem map_snd_below (path : List Nat) (children : List Item) :
    (below path children).map (·.2) = children := by
  rw [below, List.map_map]
  exact List.zipIdx_map_fst 0 children

/-- The nodes that are left to visit, when `stack` holds the items not yet looked at. -/
def walk : List (List Nat × Item) → List Node
  | [] => []
  | (path, .element e) :: rest =>
    ⟨path, .whole⟩ :: (List.range e.attributes.length).map (fun i => ⟨path, .attribute i⟩)
      ++ walk (below path e.children ++ rest)
  | (path, .text _) :: rest => ⟨path, .whole⟩ :: walk rest
  | (_, .comment _) :: rest => walk rest
  | (_, .instruction _ _) :: rest => walk rest
termination_by stack => stackSize stack
decreasing_by
  · simp only [stackSize, List.map_append, map_snd_below, sizeAll_append, List.map_cons, Item.sizeAll,
      Item.size]
    omega
  all_goals simp [stackSize, Item.sizeAll, Item.size]

/-- The nodes that rules are tried on, in document order: the root, and each element followed by its
attributes and its content. Comments and instructions are left out. -/
def Document.order (d : Document) : List Node := Node.root :: walk (below [] d.content)

end Schematron.Xml
