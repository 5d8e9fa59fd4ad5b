import Schematron.Evaluation.Axis
import Schematron.Evaluation.Function
import Schematron.XPath.Expr

namespace Schematron.Evaluation

open Schematron.Xml
open Schematron.XPath

/-- The nodes on an axis that pass a test, counted away from the context node. -/
def select (s : Setting) (axis : Axis) (test : NodeTest) (n : Node) : Except Fault (List Node) :=
  (axisNodes s.document n axis).filterM fun m =>
    match s.document.view? m with
    | some v => passes s axis test v
    | none => .ok false

/-- Whether a predicate with this value keeps a node. A number, without its fraction, is a place. -/
def keeps (position : Nat) : Value → Bool
  | .number x => x ≥ 1.0 && x.floor == Float.ofNat position
  | v => v.toBoolean

/-- The nodes that a predicate keeps. -/
def filterNodes (predicate : Focus → Except Fault Value) (ns : List Node) :
    Except Fault (List Node) := do
  let kept ← (ns.zipIdx 1).filterM fun (n, i) => return keeps i (← predicate ⟨n, i, ns.length⟩)
  return kept.map (·.1)

def nodesOf : Value → Except Fault (List Node)
  | .nodes ns => .ok ns
  | _ => .error .notNodes

def variableValue (s : Setting) (name : String) : Except Fault Value :=
  match splitName name with
  | ⟨none, l⟩ =>
    match s.bindings.lookup l with
    | some v => .ok v
    | none => .error (.unknownVariable ⟨none, l⟩)
  | ⟨some p, l⟩ =>
    match s.namespace? p with
    | none => .error (.unknownPrefix p)
    | some _ => .error (.unknownVariable ⟨some p, l⟩)

/-- The function of a name. No function is in a namespace. -/
def functionOf (s : Setting) (name : String) : Except Fault Function :=
  match splitName name with
  | ⟨none, l⟩ =>
    match Function.find? s l with
    | some f => .ok f
    | none => .error (.unknownFunction ⟨none, l⟩)
  | ⟨some p, l⟩ =>
    match s.namespace? p with
    | none => .error (.unknownPrefix p)
    | some _ => .error (.unknownFunction ⟨some p, l⟩)

/-- The value of an operator other than `and` and `or`. -/
def operate (d : Document) (op : BinaryOp) (left right : Value) : Value :=
  let x := left.toNumber d
  let y := right.toNumber d
  match op with
  | .or => .boolean (left.toBoolean || right.toBoolean)
  | .and => .boolean (left.toBoolean && right.toBoolean)
  | .eq => .boolean (equal d left right)
  | .notEq => .boolean (!equal d left right)
  | .lt | .ltEq | .gt | .gtEq => .boolean (inRelation d op left right)
  | .add => .number (x + y)
  | .sub => .number (x - y)
  | .mul => .number (x * y)
  | .div => .number (x / y)
  | .mod => .number (Number.remainder x y)

/-- The value of the left operand that settles the operator. -/
def settled : BinaryOp → Option Bool
  | .or => some true
  | .and => some false
  | _ => none

mutual
/-- The value of an expression. -/
def evaluate (s : Setting) : Expr → Focus → Except Fault Value
  | .literal value, _ => .ok (.text value)
  | .number spelling, _ => .ok (.number (textNumber spelling))
  | .variableRef name, _ => variableValue s name
  | .call name args, focus => do
    let f ← functionOf s name
    f.apply s focus (← evaluateAll s args focus)
  | .negate e, focus => return .number (-(← evaluate s e focus).toNumber s.document)
  | .binary op a b, focus => do
    let left ← evaluate s a focus
    if settled op = some left.toBoolean then return .boolean left.toBoolean
    return operate s.document op left (← evaluate s b focus)
  | .union a b, focus => do
    let left ← nodesOf (← evaluate s a focus)
    let right ← nodesOf (← evaluate s b focus)
    return .nodes (inOrder (left ++ right))
  | .group e, focus => evaluate s e focus
  | .sequence items, focus => return .nodes (inOrder (← evaluateItems s items focus))
  | .filter e predicates, focus => do
    let ns ← nodesOf (← evaluate s e focus)
    return .nodes (← narrow s predicates ns)
  | .absolute steps, _ => return .nodes (← evaluateSteps s steps [Node.root])
  | .relative steps, focus => return .nodes (← evaluateSteps s steps [focus.node])
  | .continued e steps, focus => do
    let ns ← nodesOf (← evaluate s e focus)
    return .nodes (← evaluateSteps s steps ns)

def evaluateAll (s : Setting) : List Expr → Focus → Except Fault (List Value)
  | [], _ => .ok []
  | e :: es, focus => return (← evaluate s e focus) :: (← evaluateAll s es focus)

/-- The nodes of all items together. -/
def evaluateItems (s : Setting) : List Expr → Focus → Except Fault (List Node)
  | [], _ => .ok []
  | e :: es, focus => return (← nodesOf (← evaluate s e focus)) ++ (← evaluateItems s es focus)

/-- The nodes that pass one predicate after the other. -/
def narrow (s : Setting) : List Expr → List Node → Except Fault (List Node)
  | [], ns => .ok ns
  | e :: es, ns => do narrow s es (← filterNodes (evaluate s e) ns)

/-- The nodes that a path leads to; predicates count for each start node on its own. -/
def evaluateSteps (s : Setting) : List (Step Expr) → List Node → Except Fault (List Node)
  | [], ns => .ok ns
  | ⟨axis, test, predicates⟩ :: rest, ns => do
    let found ← ns.mapM fun n => do narrow s predicates (← select s axis test n)
    evaluateSteps s rest (inOrder found.flatten)
end

end Schematron.Evaluation
