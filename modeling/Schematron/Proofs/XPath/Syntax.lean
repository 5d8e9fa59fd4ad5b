import Schematron.XPath.Grammar

/-!
The grammar of expressions as rules: which tokens a tree may be written with. Operators of one level
group to the left, and each level holds the next tighter one.
-/

namespace Schematron.XPath

namespace Grammar

inductive Level where
  | or | and | equality | relational | additive | multiplicative | unary | union | path | filter
  | primary
  deriving DecidableEq

namespace Level

/-- The next tighter level. -/
def next : Level → Level
  | or => and
  | and => equality
  | equality => relational
  | relational => additive
  | additive => multiplicative
  | multiplicative => unary
  | unary => union
  | union => path
  | path => filter
  | filter | primary => primary

/-- The operators that join operands of a level. -/
def operator : Level → Token → Option (Expr → Expr → Expr)
  | or => orOp
  | and => andOp
  | equality => equalityOp
  | relational => relationalOp
  | additive => additiveOp
  | multiplicative => multiplicativeOp
  | union => unionOp
  | unary | path | filter | primary => fun _ => none

end Level

/-- What a run of tokens may be read as. -/
inductive Part where
  | expr (l : Level)
  /-- Expressions with commas between them. -/
  | items
  /-- None, or items. -/
  | arguments
  | steps
  | step
  | predicates

@[reducible]
def Part.Tree : Part → Type
  | expr _ => Expr
  | items | arguments | predicates => List Expr
  | steps => List (Step Expr)
  | step => Step Expr

/-- The axis in front of a node test. -/
inductive AxisReads : List Token → Axis → Prop where
  | none : AxisReads [] .child
  | atSign : AxisReads [.atSign] .attributes
  | named {name : String} {a : Axis} (h : Axis.ofName? name = some a) :
      AxisReads [.axisName name, .colonColon] a

/-- The test of a node type that takes no target. -/
def typeTest? (kind : String) : Option NodeTest :=
  if kind = "node" then some .node
  else if kind = "text" then some .text
  else if kind = "comment" then some .comment
  else none

inductive TestReads : List Token → NodeTest → Prop where
  | name (name : String) : TestReads [.nameTest name] (nameTest name)
  | type {kind : String} {test : NodeTest} (h : typeTest? kind = some test) :
      TestReads [.nodeType kind, .lparen, .rparen] test
  | instruction {kind : String} (h : typeTest? kind = none) :
      TestReads [.nodeType kind, .lparen, .rparen] (.instruction none)
  | target {kind : String} (h : typeTest? kind = none) (value : String) :
      TestReads [.nodeType kind, .lparen, .literal value, .rparen] (.instruction (some value))

/-- `Reads k ts x`: the tokens `ts` are a `k` whose tree is `x`. -/
inductive Reads : (k : Part) → List Token → k.Tree → Prop where
  | tighter {l : Level} {ts : List Token} {e : Expr} (h : Reads (.expr l.next) ts e) :
      Reads (.expr l) ts e
  | binary {l : Level} {t : Token} {join : Expr → Expr → Expr} {ts us : List Token} {a b : Expr}
      (op : l.operator t = some join) (left : Reads (.expr l) ts a)
      (right : Reads (.expr l.next) us b) : Reads (.expr l) (ts ++ t :: us) (join a b)
  | negate {ts : List Token} {e : Expr} (h : Reads (.expr .unary) ts e) :
      Reads (.expr .unary) (.minus :: ts) (.negate e)
  | root : Reads (.expr .path) [.slash] (.absolute [])
  | absolute {t : Token} {b : List (Step Expr)} {ts : List Token} {ss : List (Step Expr)}
      (ht : stepOp t = some b) (h : Reads .steps ts ss) :
      Reads (.expr .path) (t :: ts) (.absolute (b ++ ss))
  | relative {ts : List Token} {ss : List (Step Expr)} (h : Reads .steps ts ss) :
      Reads (.expr .path) ts (.relative ss)
  | continued {t : Token} {b : List (Step Expr)} {ts us : List Token} {e : Expr}
      {ss : List (Step Expr)} (start : Reads (.expr .filter) ts e) (ht : stepOp t = some b)
      (h : Reads .steps us ss) : Reads (.expr .path) (ts ++ t :: us) (.continued e (b ++ ss))
  | filter {ts us : List Token} {e : Expr} {preds : List Expr} (h : Reads (.expr .primary) ts e)
      (some : preds ≠ []) (hp : Reads .predicates us preds) :
      Reads (.expr .filter) (ts ++ us) (.filter e preds)
  | variableRef (name : String) : Reads (.expr .primary) [.variableName name] (.variableRef name)
  | literal (value : String) : Reads (.expr .primary) [.literal value] (.literal value)
  | number (spelling : String) : Reads (.expr .primary) [.number spelling] (.number spelling)
  | call (name : String) {ts : List Token} {args : List Expr} (h : Reads .arguments ts args) :
      Reads (.expr .primary) (.functionName name :: .lparen :: (ts ++ [.rparen])) (.call name args)
  | group {ts : List Token} {e : Expr} (h : Reads (.expr .or) ts e) :
      Reads (.expr .primary) (.lparen :: (ts ++ [.rparen])) (.group e)
  | sequence {ts : List Token} {items : List Expr} (h : Reads .arguments ts items)
      (many : items.length ≠ 1) : Reads (.expr .primary) (.lparen :: (ts ++ [.rparen])) (.sequence items)
  | noArguments : Reads .arguments [] []
  | arguments {ts : List Token} {es : List Expr} (h : Reads .items ts es) : Reads .arguments ts es
  | lastItem {ts : List Token} {e : Expr} (h : Reads (.expr .or) ts e) : Reads .items ts [e]
  | item {ts us : List Token} {e : Expr} {es : List Expr} (h : Reads (.expr .or) ts e)
      (more : Reads .items us es) : Reads .items (ts ++ .comma :: us) (e :: es)
  | lastStep {ts : List Token} {s : Step Expr} (h : Reads .step ts s) : Reads .steps ts [s]
  | joined {t : Token} {between : List (Step Expr)} {ts us : List Token} {s : Step Expr}
      {ss : List (Step Expr)} (h : Reads .step ts s) (ht : stepOp t = some between)
      (more : Reads .steps us ss) : Reads .steps (ts ++ t :: us) (s :: (between ++ ss))
  | self : Reads .step [.dot] (.bare .self .node)
  | parent : Reads .step [.dotDot] (.bare .parent .node)
  | tested {as ts ps : List Token} {a : Axis} {test : NodeTest} {preds : List Expr}
      (ha : AxisReads as a) (ht : TestReads ts test) (hp : Reads .predicates ps preds) :
      Reads .step (as ++ (ts ++ ps)) ⟨a, test, preds⟩
  | noPredicates : Reads .predicates [] []
  | predicate {ts us : List Token} {e : Expr} {es : List Expr} (h : Reads (.expr .or) ts e)
      (more : Reads .predicates us es) :
      Reads .predicates (.lbracket :: (ts ++ .rbracket :: us)) (e :: es)

end Grammar

end Schematron.XPath
