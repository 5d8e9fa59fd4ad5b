namespace Schematron.Xml

/-- A name by what it means: a namespace, if it is in one, and a local name. -/
structure Name where
  uri : Option String
  localPart : String
  deriving DecidableEq, Repr

/-- A name as it is written. -/
structure QName where
  nsPrefix : Option String
  localPart : String
  deriving DecidableEq, Repr

structure Attribute where
  name : Name
  nsPrefix : Option String
  value : String
  deriving DecidableEq, Repr

/-- An element; `ι` is the type of what it contains. -/
structure Element (ι : Type) where
  name : Name
  nsPrefix : Option String
  /-- Prefixes that the element declares, with their namespaces. -/
  declared : List (String × String)
  attributes : List Attribute
  children : List ι

inductive Item where
  | element (e : Element Item)
  | text (s : String)
  | comment (s : String)
  | instruction (target : String) (value : Option String)

namespace Item

mutual
def decEq : (i j : Item) → Decidable (i = j)
  | element ⟨name, nsPrefix, declared, attributes, children⟩,
    element ⟨name', nsPrefix', declared', attributes', children'⟩ =>
    have := decEqAll children children'
    decidable_of_iff (name = name' ∧ nsPrefix = nsPrefix' ∧ declared = declared' ∧ attributes = attributes'
      ∧ children = children') (by simp)
  | text s, text t => decidable_of_iff (s = t) (by simp)
  | comment s, comment t => decidable_of_iff (s = t) (by simp)
  | instruction s v, instruction t w => decidable_of_iff (s = t ∧ v = w) (by simp)
  | element _, text _ | element _, comment _ | element _, instruction _ _ => isFalse nofun
  | text _, element _ | text _, comment _ | text _, instruction _ _ => isFalse nofun
  | comment _, element _ | comment _, text _ | comment _, instruction _ _ => isFalse nofun
  | instruction _ _, element _ | instruction _ _, text _ | instruction _ _, comment _ => isFalse nofun

def decEqAll : (is js : List Item) → Decidable (is = js)
  | [], [] => isTrue rfl
  | [], _ :: _ | _ :: _, [] => isFalse nofun
  | i :: is, j :: js =>
    have := decEq i j
    have := decEqAll is js
    decidable_of_iff (i = j ∧ is = js) (by simp)
end

instance : DecidableEq Item := decEq

end Item

/-- A document by what stands at its top: one element, and comments and instructions around it. -/
structure Document where
  content : List Item
  deriving DecidableEq

namespace Item

def isElement : Item → Bool
  | element _ => true
  | _ => false

def children : Item → List Item
  | element e => e.children
  | _ => []

mutual
/-- The text in an item, tags dropped; comments and instructions hold none. -/
def textOf : Item → String
  | element ⟨_, _, _, _, children⟩ => textOfAll children
  | text s => s
  | comment _ | instruction _ _ => ""

def textOfAll : List Item → String
  | [] => ""
  | i :: rest => i.textOf ++ textOfAll rest
end

mutual
/-- The number of items in an item, itself included. -/
def size : Item → Nat
  | element ⟨_, _, _, _, children⟩ => sizeAll children + 1
  | text _ | comment _ | instruction _ _ => 1

def sizeAll : List Item → Nat
  | [] => 0
  | i :: rest => i.size + sizeAll rest
end

end Item

end Schematron.Xml
