import Schematron.XPath.Expr

namespace Schematron.XPath

/-- A string literal. A value with both kinds of quotes becomes a call that joins the pieces between
its apostrophes. -/
def quoteLiteral (value : String) : String :=
  if !value.toList.contains '\'' then "'" ++ value ++ "'"
  else if !value.toList.contains '"' then "\"" ++ value ++ "\""
  else
    "concat(" ++ ", \"'\", ".intercalate ((Text.pieces '\'' value).map fun p => "'" ++ p ++ "'") ++ ")"

def NodeTest.spelled : NodeTest → String
  | .wildcard => "*"
  | .wildcardIn p => p ++ ":*"
  | .name n => n
  | .node => "node()"
  | .text => "text()"
  | .comment => "comment()"
  | .instruction none => "processing-instruction()"
  | .instruction (some target) => "processing-instruction(" ++ quoteLiteral target ++ ")"

/-- The function that compares by order in the way of later versions of the language. -/
def compareFunction : String := "rewrite-compare"

/-- How the text written so far ends, where the next step joins it. -/
inductive Joint where
  /-- Nothing is written. -/
  | start
  | slash
  /-- A step or an expression. -/
  | item
  deriving DecidableEq

def Joint.text : Joint → String
  | .item => "/"
  | _ => ""

/-- The part of a step before its predicates. -/
def stepHead (axis : Axis) (test : NodeTest) (bare : Bool) : String :=
  match axis, test with
  | .self, .node => if bare then "." else "self::node()"
  | .parent, .node => if bare then ".." else "parent::node()"
  | .child, t => t.spelled
  | .attributes, t => "@" ++ t.spelled
  | a, t => a.name ++ "::" ++ t.spelled

/-- A comparison by order that has no number spelled out as an operand. -/
def needsCompare (op : BinaryOp) (left right : Expr) : Bool :=
  op.isOrdering && !left.isNumeric && !right.isNumeric

mutual
/-- The text of an expression in the first version of the language. With `comparisons`, a comparison
by order goes through `compareFunction` unless an operand is a number spelled out. -/
def emit (comparisons : Bool) : Expr → String
  | .literal value => quoteLiteral value
  | .number spelling => spelling
  | .variableRef name => "$" ++ name
  | .call name args => name ++ "(" ++ ", ".intercalate (emitAll comparisons args) ++ ")"
  | .negate e => "-" ++ emit comparisons e
  | .binary op a b =>
    let left := emit comparisons a
    let right := emit comparisons b
    if comparisons && needsCompare op a b then
      compareFunction ++ "(" ++ left ++ ", " ++ right ++ ") " ++ op.symbol ++ " 0"
    else left ++ " " ++ op.symbol ++ " " ++ right
  | .union a b => emit comparisons a ++ " | " ++ emit comparisons b
  | .group e => "(" ++ emit comparisons e ++ ")"
  | .sequence [] => "/.."
  | .sequence (e :: es) =>
    "(" ++ " | ".intercalate (emit comparisons e :: emitAll comparisons es) ++ ")"
  | .filter e preds => emit comparisons e ++ emitPredicates comparisons preds
  | .absolute steps => "/" ++ emitSteps comparisons .slash steps
  | .relative steps => emitSteps comparisons .start steps
  | .continued e steps => emit comparisons e ++ emitSteps comparisons .item steps

def emitAll (comparisons : Bool) : List Expr → List String
  | [] => []
  | e :: es => emit comparisons e :: emitAll comparisons es

def emitPredicates (comparisons : Bool) : List Expr → String
  | [] => ""
  | e :: es => "[" ++ emit comparisons e ++ "]" ++ emitPredicates comparisons es

/-- The steps after `joint`. A bare step to all descendants is the gap of a double slash, unless it
begins the path or ends it. -/
def emitSteps (comparisons : Bool) (joint : Joint) : List (Step Expr) → String
  | [] => ""
  | ⟨axis, test, preds⟩ :: rest =>
    if !rest.isEmpty && joint ≠ .start && Step.isDescendantOrSelf ⟨axis, test, preds⟩ then
      (if joint = .slash then "/" else "//") ++ emitSteps comparisons .slash rest
    else
      joint.text ++ stepHead axis test preds.isEmpty ++ emitPredicates comparisons preds
        ++ emitSteps comparisons .item rest
end

/-- An expression that the first version of the language writes in another way. -/
def Expr.isLater (comparisons : Bool) : Expr → Bool
  | .sequence _ => true
  | .binary op a b => comparisons && needsCompare op a b
  | _ => false

/-- Whether an expression says something that the first version of the language says in another way. -/
def saysMore (comparisons : Bool) (e : Expr) : Bool :=
  e.subterms.any (Expr.isLater comparisons)

end Schematron.XPath
