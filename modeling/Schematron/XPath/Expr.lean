import Schematron.Text.Split

namespace Schematron.XPath

inductive BinaryOp where
  | or | and | eq | notEq | lt | ltEq | gt | gtEq | add | sub | mul | div | mod
  deriving DecidableEq, Repr

namespace BinaryOp

def symbol : BinaryOp → String
  | or => "or" | and => "and" | eq => "=" | notEq => "!=" | lt => "<" | ltEq => "<=" | gt => ">"
  | gtEq => ">=" | add => "+" | sub => "-" | mul => "*" | div => "div" | mod => "mod"

/-- The comparisons by order, which compare other operands than numbers in another way in later
versions of the language. -/
def isOrdering : BinaryOp → Bool
  | lt | ltEq | gt | gtEq => true
  | _ => false

end BinaryOp

inductive Axis where
  | ancestor | ancestorOrSelf | attributes | child | descendant | descendantOrSelf | following
  | followingSibling | namespaces | parent | preceding | precedingSibling | self
  deriving DecidableEq, Repr

namespace Axis

def name : Axis → String
  | ancestor => "ancestor"
  | ancestorOrSelf => "ancestor-or-self"
  | attributes => "attribute"
  | child => "child"
  | descendant => "descendant"
  | descendantOrSelf => "descendant-or-self"
  | following => "following"
  | followingSibling => "following-sibling"
  | namespaces => "namespace"
  | parent => "parent"
  | preceding => "preceding"
  | precedingSibling => "preceding-sibling"
  | self => "self"

def all : List Axis := [
  ancestor, ancestorOrSelf, attributes, child, descendant, descendantOrSelf, following,
  followingSibling, namespaces, parent, preceding, precedingSibling, self]

def ofName? (s : String) : Option Axis := all.find? (·.name == s)

theorem ofName?_name (a : Axis) : ofName? a.name = some a := by cases a <;> decide

end Axis

inductive NodeTest where
  | wildcard
  /-- Every name of one namespace. -/
  | wildcardIn (nsPrefix : String)
  | name (name : String)
  | node
  | text
  | comment
  | instruction (target : Option String)
  deriving DecidableEq, Repr

/-- A step of a path; `ε` is the type of its predicates. -/
structure Step (ε : Type) where
  axis : Axis
  test : NodeTest
  predicates : List ε

namespace Step

variable {ε : Type}

/-- A step without predicates. -/
def bare (axis : Axis) (test : NodeTest) : Step ε := ⟨axis, test, []⟩

/-- The step that a double slash stands for. -/
def descendantOrSelf : Step ε := bare .descendantOrSelf .node

def isDescendantOrSelf (s : Step ε) : Bool :=
  s.axis = .descendantOrSelf && s.test = .node && s.predicates.isEmpty

end Step

inductive Expr where
  | literal (value : String)
  /-- A number as it is spelled. -/
  | number (spelling : String)
  | variableRef (name : String)
  | call (name : String) (args : List Expr)
  | negate (operand : Expr)
  | binary (op : BinaryOp) (left right : Expr)
  | union (left right : Expr)
  /-- One expression in parentheses. -/
  | group (inner : Expr)
  /-- Any other number of expressions in parentheses. -/
  | sequence (items : List Expr)
  | filter (primary : Expr) (predicates : List Expr)
  /-- A path from the root of the document. -/
  | absolute (steps : List (Step Expr))
  /-- A path from the context node. -/
  | relative (steps : List (Step Expr))
  /-- A path from the nodes of an expression. -/
  | continued (start : Expr) (steps : List (Step Expr))

namespace Expr

mutual
/-- An expression and all in it, each before its parts. -/
def subterms : Expr → List Expr
  | e@(literal _) | e@(number _) | e@(variableRef _) => [e]
  | e@(call _ args) => e :: subtermsAll args
  | e@(negate a) | e@(group a) => e :: a.subterms
  | e@(binary _ a b) | e@(union a b) => e :: (a.subterms ++ b.subterms)
  | e@(sequence items) => e :: subtermsAll items
  | e@(filter a preds) => e :: (a.subterms ++ subtermsAll preds)
  | e@(absolute steps) | e@(relative steps) => e :: subtermsSteps steps
  | e@(continued a steps) => e :: (a.subterms ++ subtermsSteps steps)

def subtermsAll : List Expr → List Expr
  | [] => []
  | e :: es => e.subterms ++ subtermsAll es

def subtermsSteps : List (Step Expr) → List Expr
  | [] => []
  | ⟨_, _, preds⟩ :: steps => subtermsAll preds ++ subtermsSteps steps
end

def asVariable : Expr → Option String
  | variableRef name => some name
  | _ => none

def isSequence : Expr → Bool
  | sequence _ => true
  | _ => false

/-- Every item once, where it occurs first. -/
def firsts (names : List String) : List String :=
  names.foldl (fun seen n => if seen.contains n then seen else seen ++ [n]) []

/-- The names of the variables in an expression, in the order of their first use. -/
def variableNames (e : Expr) : List String := firsts (e.subterms.filterMap asVariable)

def isCall (name : String) (arity : Nat) : Expr → Bool
  | call n args => n == name && args.length == arity
  | _ => false

def calls (e : Expr) (name : String) (arity : Nat) : Bool := e.subterms.any (isCall name arity)

/-- A spelled number, which may be negated or stand in parentheses. -/
def isNumeric : Expr → Bool
  | number _ => true
  | negate e | group e => e.isNumeric
  | _ => false

end Expr

end Schematron.XPath
