import Schematron.Proofs.XPath.RoundTrip

/-!
The grammar of expressions with all its words and signs. A derivation also tells whether it uses what
only a later version of the language has.
-/

namespace Schematron.XPath

/-- A node type is one of those that a text may name. -/
def Token.Known : Token → Prop
  | .nodeType kind => kind ∈ nodeTypes
  | _ => True

theorem known_classifyName (name : String) (rest : List Char) : (classifyName name rest).Known := by
  unfold classifyName
  split
  · split
    · rename_i hkind
      exact List.contains_iff_mem.mp hkind
    · trivial
  · trivial
  · trivial

theorem known_nameLexeme (operand : Bool) (cs : List Char) : (nameLexeme operand cs).1.Known := by
  unfold nameLexeme
  split
  split
  · trivial
  · split
    · trivial
    · exact known_classifyName _ _

theorem Token.known_of_value?_eq_none {t : Token} (h : t.value? = none) : t.Known := by
  cases t <;> trivial

theorem known_lexeme {rule : QuoteRule} {operand : Bool} {c : Char} {rest after : List Char} {t : Token}
    (h : lexeme rule operand c rest = .ok (t, after)) : t.Known := by
  unfold lexeme at h
  split at h
  · cases h
    trivial
  split at h
  · cases operand <;> cases h <;> trivial
  split at h
  · split at h <;> cases h
    trivial
  split at h
  · split at h
    · split at h <;> cases h
      trivial
    · cases h
  split at h
  · have hknown := known_nameLexeme operand (c :: rest)
    rw [Except.ok.inj h] at hknown
    exact hknown
  · split at h
    · rename_i found hfound
      cases h
      obtain ⟨spelling, hsign, -⟩ := signLexeme_eq hfound
      exact Token.known_of_value?_eq_none (signs_fit _ hsign).1
    · cases h

theorem Lexes.known {rule : QuoteRule} {operand : Bool} {cs : List Char} {ts : List Token}
    (h : Lexes rule operand cs ts) : ∀ t ∈ ts, t.Known := by
  induction h with
  | done => exact List.forall_mem_nil _
  | more _ hl _ ih => exact List.forall_mem_cons.mpr ⟨known_lexeme hl, ih⟩

namespace Grammar

/-- `Joins l t later join`: between operands of the level `l` the token `t` stands for `join`, and
`later` tells whether only a later version has it. -/
inductive Joins : Level → Token → Bool → (Expr → Expr → Expr) → Prop where
  | or : Joins .or (.operatorName "or") false (.binary .or)
  | and : Joins .and (.operatorName "and") false (.binary .and)
  | eq : Joins .equality .eq false (.binary .eq)
  | notEq : Joins .equality .notEq false (.binary .notEq)
  | valueEq : Joins .equality (.operatorName "eq") true (.binary .eq)
  | valueNotEq : Joins .equality (.operatorName "ne") true (.binary .notEq)
  | lt : Joins .relational .lt false (.binary .lt)
  | ltEq : Joins .relational .ltEq false (.binary .ltEq)
  | gt : Joins .relational .gt false (.binary .gt)
  | gtEq : Joins .relational .gtEq false (.binary .gtEq)
  | valueLt : Joins .relational (.operatorName "lt") true (.binary .lt)
  | valueLtEq : Joins .relational (.operatorName "le") true (.binary .ltEq)
  | valueGt : Joins .relational (.operatorName "gt") true (.binary .gt)
  | valueGtEq : Joins .relational (.operatorName "ge") true (.binary .gtEq)
  | plus : Joins .additive .plus false (.binary .add)
  | minus : Joins .additive .minus false (.binary .sub)
  | multiply : Joins .multiplicative .multiply false (.binary .mul)
  | div : Joins .multiplicative (.operatorName "div") false (.binary .div)
  | mod : Joins .multiplicative (.operatorName "mod") false (.binary .mod)
  | bar : Joins .union .pipe false .union
  | unionWord : Joins .union (.operatorName "union") true .union

/-- The slashes between steps, and the steps that each adds. -/
inductive Between : Token → List (Step Expr) → Prop where
  | slash : Between .slash []
  | doubleSlash : Between .doubleSlash [⟨.descendantOrSelf, .node, []⟩]

inductive TestDerives : List Token → NodeTest → Prop where
  | wildcard : TestDerives [.nameTest "*"] .wildcard
  | wildcardIn (nsPrefix : String) :
      TestDerives [.nameTest (nsPrefix ++ ":*")] (.wildcardIn nsPrefix)
  | name {name : String} (star : name ≠ "*") (plain : ∀ nsPrefix, name ≠ nsPrefix ++ ":*") :
      TestDerives [.nameTest name] (.name name)
  | node : TestDerives [.nodeType "node", .lparen, .rparen] .node
  | text : TestDerives [.nodeType "text", .lparen, .rparen] .text
  | comment : TestDerives [.nodeType "comment", .lparen, .rparen] .comment
  | instruction :
      TestDerives [.nodeType "processing-instruction", .lparen, .rparen] (.instruction none)
  | target (value : String) :
      TestDerives [.nodeType "processing-instruction", .lparen, .literal value, .rparen]
        (.instruction (some value))

/-- `Derives k ts x later`: the tokens `ts` are derived as a `k` whose tree is `x`, and `later` tells
whether a value comparison, the word `union` or a sequence is used on the way. -/
inductive Derives : (k : Part) → List Token → k.Tree → Bool → Prop where
  | tighter {l : Level} {ts : List Token} {e : Expr} {b : Bool}
      (h : Derives (.expr l.next) ts e b) : Derives (.expr l) ts e b
  | binary {l : Level} {t : Token} {own b b' : Bool} {join : Expr → Expr → Expr} {ts us : List Token}
      {x y : Expr} (op : Joins l t own join) (left : Derives (.expr l) ts x b)
      (right : Derives (.expr l.next) us y b') :
      Derives (.expr l) (ts ++ t :: us) (join x y) (own || (b || b'))
  | negate {ts : List Token} {e : Expr} {b : Bool} (h : Derives (.expr .unary) ts e b) :
      Derives (.expr .unary) (.minus :: ts) (.negate e) b
  | root : Derives (.expr .path) [.slash] (.absolute []) false
  | absolute {t : Token} {between : List (Step Expr)} {ts : List Token} {ss : List (Step Expr)}
      {b : Bool} (ht : Between t between) (h : Derives .steps ts ss b) :
      Derives (.expr .path) (t :: ts) (.absolute (between ++ ss)) b
  | relative {ts : List Token} {ss : List (Step Expr)} {b : Bool} (h : Derives .steps ts ss b) :
      Derives (.expr .path) ts (.relative ss) b
  | continued {t : Token} {between : List (Step Expr)} {ts us : List Token} {e : Expr}
      {ss : List (Step Expr)} {b b' : Bool} (start : Derives (.expr .filter) ts e b)
      (ht : Between t between) (h : Derives .steps us ss b') :
      Derives (.expr .path) (ts ++ t :: us) (.continued e (between ++ ss)) (b || b')
  | filter {ts us : List Token} {e : Expr} {preds : List Expr} {b b' : Bool}
      (h : Derives (.expr .primary) ts e b) (some : preds ≠ []) (hp : Derives .predicates us preds b') :
      Derives (.expr .filter) (ts ++ us) (.filter e preds) (b || b')
  | variableRef (name : String) :
      Derives (.expr .primary) [.variableName name] (.variableRef name) false
  | literal (value : String) : Derives (.expr .primary) [.literal value] (.literal value) false
  | number (spelling : String) : Derives (.expr .primary) [.number spelling] (.number spelling) false
  | call (name : String) {ts : List Token} {args : List Expr} {b : Bool}
      (h : Derives .arguments ts args b) :
      Derives (.expr .primary) (.functionName name :: .lparen :: (ts ++ [.rparen])) (.call name args) b
  | group {ts : List Token} {e : Expr} {b : Bool} (h : Derives (.expr .or) ts e b) :
      Derives (.expr .primary) (.lparen :: (ts ++ [.rparen])) (.group e) b
  | sequence {ts : List Token} {items : List Expr} {b : Bool} (h : Derives .arguments ts items b)
      (many : items.length ≠ 1) :
      Derives (.expr .primary) (.lparen :: (ts ++ [.rparen])) (.sequence items) true
  | noArguments : Derives .arguments [] [] false
  | arguments {ts : List Token} {es : List Expr} {b : Bool} (h : Derives .items ts es b) :
      Derives .arguments ts es b
  | lastItem {ts : List Token} {e : Expr} {b : Bool} (h : Derives (.expr .or) ts e b) :
      Derives .items ts [e] b
  | item {ts us : List Token} {e : Expr} {es : List Expr} {b b' : Bool}
      (h : Derives (.expr .or) ts e b) (more : Derives .items us es b') :
      Derives .items (ts ++ .comma :: us) (e :: es) (b || b')
  | lastStep {ts : List Token} {s : Step Expr} {b : Bool} (h : Derives .step ts s b) :
      Derives .steps ts [s] b
  | joined {t : Token} {between : List (Step Expr)} {ts us : List Token} {s : Step Expr}
      {ss : List (Step Expr)} {b b' : Bool} (h : Derives .step ts s b) (ht : Between t between)
      (more : Derives .steps us ss b') :
      Derives .steps (ts ++ t :: us) (s :: (between ++ ss)) (b || b')
  | self : Derives .step [.dot] ⟨.self, .node, []⟩ false
  | parent : Derives .step [.dotDot] ⟨.parent, .node, []⟩ false
  | tested {as ts ps : List Token} {a : Axis} {test : NodeTest} {preds : List Expr} {b : Bool}
      (ha : AxisReads as a) (ht : TestDerives ts test) (hp : Derives .predicates ps preds b) :
      Derives .step (as ++ (ts ++ ps)) ⟨a, test, preds⟩ b
  | noPredicates : Derives .predicates [] [] false
  | predicate {ts us : List Token} {e : Expr} {es : List Expr} {b b' : Bool}
      (h : Derives (.expr .or) ts e b) (more : Derives .predicates us es b') :
      Derives .predicates (.lbracket :: (ts ++ .rbracket :: us)) (e :: es) (b || b')

theorem joins_iff {l : Level} {t : Token} {later : Bool} {join : Expr → Expr → Expr} :
    Joins l t later join ↔ l.operator t = some join ∧ later = t.isLaterOperator := by
  constructor
  · intro h
    cases h <;> exact ⟨rfl, by decide⟩
  · rintro ⟨h, rfl⟩
    cases l <;> cases t <;>
      simp only [Level.operator, orOp, andOp, equalityOp, relationalOp, additiveOp, multiplicativeOp,
        unionOp, reduceCtorEq, Option.some.injEq] at h
    -- a sign has one meaning, and a word the meaning that its spelling gives it
    all_goals
      first
      | subst h; constructor
      | split_ifs at h <;> cases h <;> subst_vars <;> constructor

theorem between_iff {t : Token} {between : List (Step Expr)} :
    Between t between ↔ stepOp t = some between := by
  constructor
  · intro h
    cases h <;> rfl
  · intro h
    rcases stepOp_eq_some h with ⟨rfl, rfl⟩ | ⟨rfl, rfl⟩
    · exact .slash
    · exact .doubleSlash

theorem nameTest_wildcardIn (nsPrefix : String) : nameTest (nsPrefix ++ ":*") = .wildcardIn nsPrefix := by
  have hlist : (nsPrefix ++ ":*").toList.reverse = '*' :: ':' :: nsPrefix.toList.reverse := by simp
  have hstar : nsPrefix ++ ":*" ≠ "*" := by
    intro heq
    have hlength := congrArg (fun s => s.toList.length) heq
    simp at hlength
  unfold nameTest
  rw [if_neg hstar, hlist]
  simp

theorem TestDerives.reads {ts : List Token} {test : NodeTest} (h : TestDerives ts test) :
    TestReads ts test := by
  cases h with
  | wildcard => exact .name "*"
  | wildcardIn nsPrefix =>
    rw [← nameTest_wildcardIn]
    exact .name _
  | @name n star plain =>
    have hname : nameTest n = .name n := by
      rcases nameTest_eq n with ⟨-, heq⟩ | ⟨p, -, heq⟩ | hname
      · exact absurd heq star
      · exact absurd heq (plain p)
      · exact hname
    rw [← hname]
    exact .name n
  | node | text | comment => exact .type rfl
  | instruction => exact .instruction (by decide)
  | target value => exact .target (by decide) value

theorem nodeType_cases {kind : String} (h : (Token.nodeType kind).Known) :
    kind = "node" ∨ kind = "text" ∨ kind = "comment" ∨ kind = "processing-instruction" := by
  simpa only [Token.Known, nodeTypes, List.mem_cons, List.not_mem_nil, or_false] using h

theorem TestReads.derives {ts : List Token} {test : NodeTest} (h : TestReads ts test)
    (hknown : ∀ t ∈ ts, t.Known) : TestDerives ts test := by
  cases h with
  | name n =>
    rcases nameTest_eq n with ⟨hn, rfl⟩ | ⟨p, hn, rfl⟩ | hn
    · rw [hn]
      exact .wildcard
    · rw [hn]
      exact .wildcardIn p
    · rw [hn]
      refine .name ?_ fun p heq => ?_
      · rintro rfl
        cases hn
      · rw [heq, nameTest_wildcardIn] at hn
        cases hn
  | @type kind test h =>
    have hkind := nodeType_cases (hknown _ List.mem_cons_self)
    rcases hkind with rfl | rfl | rfl | rfl <;> cases h
    · exact .node
    · exact .text
    · exact .comment
  | @instruction kind h =>
    have hkind := nodeType_cases (hknown _ List.mem_cons_self)
    rcases hkind with rfl | rfl | rfl | rfl <;> first | exact .instruction | cases h
  | @target kind h value =>
    have hkind := nodeType_cases (hknown _ List.mem_cons_self)
    rcases hkind with rfl | rfl | rfl | rfl <;> first | exact .target value | cases h

/-- The expressions that a part is put together from. -/
def Part.exprs : (k : Part) → k.Tree → List Expr
  | .expr _, e => [e]
  | .items, es | .arguments, es | .predicates, es => es
  | .steps, ss => ss.flatMap (·.predicates)
  | .step, s => s.predicates

/-- A word or a sign of a later version is among the tokens of a part, or a sequence is in its tree. -/
def saysLater (k : Part) (ts : List Token) (x : k.Tree) : Bool :=
  ts.any (·.isLaterOperator) || (k.exprs x).any fun e => e.subterms.any (·.isSequence)

theorem AxisReads.any_later {ts : List Token} {a : Axis} (h : AxisReads ts a) :
    ts.any (·.isLaterOperator) = false := by
  cases h <;> rfl

theorem TestReads.any_later {ts : List Token} {test : NodeTest} (h : TestReads ts test) :
    ts.any (·.isLaterOperator) = false := by
  cases h <;> rfl

theorem later_of_between {t : Token} {between : List (Step Expr)} (h : Between t between) :
    t.isLaterOperator = false ∧ between.flatMap (·.predicates) = [] := by
  cases h <;> exact ⟨rfl, rfl⟩

theorem Derives.reads {k : Part} {ts : List Token} {x : k.Tree} {later : Bool}
    (h : Derives k ts x later) : Reads k ts x := by
  induction h with
  | tighter _ ih => exact .tighter ih
  | binary op _ _ left right => exact .binary (joins_iff.mp op).1 left right
  | negate _ ih => exact .negate ih
  | root => exact .root
  | absolute ht _ ih => exact .absolute (between_iff.mp ht) ih
  | relative _ ih => exact .relative ih
  | continued _ ht _ start ih => exact .continued start (between_iff.mp ht) ih
  | filter _ some _ ih hp => exact .filter ih some hp
  | variableRef name => exact .variableRef name
  | literal value => exact .literal value
  | number spelling => exact .number spelling
  | call name _ ih => exact .call name ih
  | group _ ih => exact .group ih
  | sequence _ many ih => exact .sequence ih many
  | noArguments => exact .noArguments
  | arguments _ ih => exact .arguments ih
  | lastItem _ ih => exact .lastItem ih
  | item _ _ ih more => exact .item ih more
  | lastStep _ ih => exact .lastStep ih
  | joined _ ht _ ih more => exact .joined ih (between_iff.mp ht) more
  | self => exact .self
  | parent => exact .parent
  | tested ha ht _ ih => exact .tested ha ht.reads ih
  | noPredicates => exact .noPredicates
  | predicate _ _ ih more => exact .predicate ih more

theorem saysLater_expr (l : Level) (ts : List Token) (e : Expr) :
    saysLater (.expr l) ts e = (ts.any (·.isLaterOperator) ||
      (e.isSequence || e.parts.any fun p => p.subterms.any (·.isSequence))) := by
  rw [saysLater, Part.exprs, List.any_cons, List.any_nil, Bool.or_false, Expr.any_subterms]

/-- What a derivation uses of a later version is in its tokens, but for sequences, which are in its tree. -/
theorem Derives.later_eq {k : Part} {ts : List Token} {x : k.Tree} {later : Bool}
    (h : Derives k ts x later) : later = saysLater k ts x := by
  induction h with
  | tighter _ ih | arguments _ ih | lastItem _ ih => exact ih
  | binary op _ _ left right =>
    obtain ⟨hop, hlater⟩ := joins_iff.mp op
    rw [saysLater_expr, left, right, hlater]
    rcases Level.join_eq hop with ⟨-, rfl⟩ | ⟨o, rfl, -⟩ <;>
      simp [saysLater, Part.exprs, Expr.parts, Expr.isSequence, Bool.or_assoc, Bool.or_left_comm]
  | negate _ ih | group _ ih | call _ _ ih =>
    rw [saysLater_expr, ih]
    simp [saysLater, Part.exprs, Expr.parts, Expr.isSequence, Token.isLaterOperator]
  | absolute ht _ ih =>
    obtain ⟨hlater, hnone⟩ := later_of_between ht
    rw [saysLater_expr, ih]
    simp [saysLater, Part.exprs, Expr.parts, Expr.isSequence, hlater, hnone]
  | relative _ ih =>
    rw [saysLater_expr, ih]
    simp [saysLater, Part.exprs, Expr.parts, Expr.isSequence]
  | continued _ ht _ start ih =>
    obtain ⟨hlater, hnone⟩ := later_of_between ht
    rw [saysLater_expr, start, ih]
    simp [saysLater, Part.exprs, Expr.parts, Expr.isSequence, hlater, hnone, Bool.or_assoc,
      Bool.or_left_comm]
  | filter _ _ _ ih hp =>
    rw [saysLater_expr, ih, hp]
    simp [saysLater, Part.exprs, Expr.parts, Expr.isSequence, Bool.or_assoc, Bool.or_left_comm]
  | sequence =>
    rw [saysLater_expr]
    simp [Expr.isSequence]
  | root | variableRef | literal | number | noArguments | self | parent | noPredicates => rfl
  | lastStep _ ih =>
    rw [ih]
    simp [saysLater, Part.exprs]
  | joined _ ht _ ih more =>
    obtain ⟨hlater, hnone⟩ := later_of_between ht
    rw [ih, more]
    simp [saysLater, Part.exprs, hlater, hnone, Bool.or_assoc, Bool.or_left_comm]
  | tested ha ht _ ih =>
    rw [ih]
    simp [saysLater, Part.exprs, ha.any_later, ht.reads.any_later]
  | item _ _ ih more | predicate _ _ ih more =>
    rw [ih, more]
    simp [saysLater, Part.exprs, Token.isLaterOperator, Bool.or_assoc, Bool.or_left_comm]

/-- Known tokens that the rules of the grammar allow for a tree are derived as it. -/
theorem Reads.derives {k : Part} {ts : List Token} {x : k.Tree} (h : Reads k ts x)
    (hknown : ∀ t ∈ ts, t.Known) : ∃ later, Derives k ts x later := by
  induction h with
  | tighter _ ih =>
    obtain ⟨later, h⟩ := ih hknown
    exact ⟨later, .tighter h⟩
  | binary op _ _ left right =>
    obtain ⟨hts, hus⟩ := List.forall_mem_append.mp hknown
    obtain ⟨b, hx⟩ := left hts
    obtain ⟨b', hy⟩ := right (List.forall_mem_cons.mp hus).2
    exact ⟨_, .binary (joins_iff.mpr ⟨op, rfl⟩) hx hy⟩
  | negate _ ih =>
    obtain ⟨later, h⟩ := ih (List.forall_mem_cons.mp hknown).2
    exact ⟨later, .negate h⟩
  | root => exact ⟨false, .root⟩
  | absolute ht _ ih =>
    obtain ⟨later, h⟩ := ih (List.forall_mem_cons.mp hknown).2
    exact ⟨later, .absolute (between_iff.mpr ht) h⟩
  | relative _ ih =>
    obtain ⟨later, h⟩ := ih hknown
    exact ⟨later, .relative h⟩
  | continued _ ht _ start ih =>
    obtain ⟨hts, hus⟩ := List.forall_mem_append.mp hknown
    obtain ⟨b, he⟩ := start hts
    obtain ⟨b', hss⟩ := ih (List.forall_mem_cons.mp hus).2
    exact ⟨_, .continued he (between_iff.mpr ht) hss⟩
  | filter _ some _ ih hp =>
    obtain ⟨hts, hus⟩ := List.forall_mem_append.mp hknown
    obtain ⟨b, he⟩ := ih hts
    obtain ⟨b', hpreds⟩ := hp hus
    exact ⟨_, .filter he some hpreds⟩
  | variableRef name => exact ⟨false, .variableRef name⟩
  | literal value => exact ⟨false, .literal value⟩
  | number spelling => exact ⟨false, .number spelling⟩
  | call name _ ih =>
    obtain ⟨hts, -⟩ := List.forall_mem_append.mp
      (List.forall_mem_cons.mp (List.forall_mem_cons.mp hknown).2).2
    obtain ⟨later, h⟩ := ih hts
    exact ⟨later, .call name h⟩
  | group _ ih =>
    obtain ⟨hts, -⟩ := List.forall_mem_append.mp (List.forall_mem_cons.mp hknown).2
    obtain ⟨later, h⟩ := ih hts
    exact ⟨later, .group h⟩
  | sequence _ many ih =>
    obtain ⟨hts, -⟩ := List.forall_mem_append.mp (List.forall_mem_cons.mp hknown).2
    obtain ⟨later, h⟩ := ih hts
    exact ⟨true, .sequence h many⟩
  | noArguments => exact ⟨false, .noArguments⟩
  | arguments _ ih =>
    obtain ⟨later, h⟩ := ih hknown
    exact ⟨later, .arguments h⟩
  | lastItem _ ih =>
    obtain ⟨later, h⟩ := ih hknown
    exact ⟨later, .lastItem h⟩
  | item _ _ ih more =>
    obtain ⟨hts, hus⟩ := List.forall_mem_append.mp hknown
    obtain ⟨b, he⟩ := ih hts
    obtain ⟨b', hes⟩ := more (List.forall_mem_cons.mp hus).2
    exact ⟨_, .item he hes⟩
  | lastStep _ ih =>
    obtain ⟨later, h⟩ := ih hknown
    exact ⟨later, .lastStep h⟩
  | joined _ ht _ ih more =>
    obtain ⟨hts, hus⟩ := List.forall_mem_append.mp hknown
    obtain ⟨b, hs⟩ := ih hts
    obtain ⟨b', hss⟩ := more (List.forall_mem_cons.mp hus).2
    exact ⟨_, .joined hs (between_iff.mpr ht) hss⟩
  | self => exact ⟨false, .self⟩
  | parent => exact ⟨false, .parent⟩
  | tested ha ht _ ih =>
    obtain ⟨-, hrest⟩ := List.forall_mem_append.mp hknown
    obtain ⟨hts, hps⟩ := List.forall_mem_append.mp hrest
    obtain ⟨later, hpreds⟩ := ih hps
    exact ⟨later, .tested ha (ht.derives hts) hpreds⟩
  | noPredicates => exact ⟨false, .noPredicates⟩
  | predicate _ _ ih more =>
    obtain ⟨hts, hus⟩ := List.forall_mem_append.mp (List.forall_mem_cons.mp hknown).2
    obtain ⟨b, he⟩ := ih hts
    obtain ⟨b', hes⟩ := more (List.forall_mem_cons.mp hus).2
    exact ⟨_, .predicate he hes⟩

end Grammar

open Grammar

/-- A text whose tokens are derived is parsed to the tree of the derivation, with its mark. -/
theorem parse_of_derives {source : String} {ts : List Token} {e : Expr} {later : Bool}
    (hlex : Lexes .doubled true source.toList ts) (h : Derives (.expr .or) ts e later) :
    parse source = .ok ⟨e, later⟩ := by
  have hlater : saysLater (.expr .or) ts e =
      (ts.any (·.isLaterOperator) || e.subterms.any (·.isSequence)) := by
    simp [saysLater, Part.exprs]
  rw [parse_of_reads hlex h.reads, h.later_eq, hlater]

/-- The parser reads the tokens of a text to their end, and gives a tree, just where the grammar derives
the tree from them; and it tells of a later version just where the derivation uses one. -/
theorem parse_eq_ok_iff_derives {source : String} {found : List Spanned}
    (h : tokenize source = .ok found) (e : Expr) :
    (expr (found.map (·.token)) = .ok (e, []) ↔
        ∃ later, Derives (.expr .or) (found.map (·.token)) e later) ∧
      ∀ later, parse source = .ok ⟨e, later⟩ ↔
        Derives (.expr .or) (found.map (·.token)) e later := by
  have hlex := lexes_of_tokenizeWith h
  have hderives : Reads (.expr .or) (found.map (·.token)) e →
      ∃ later, Derives (.expr .or) (found.map (·.token)) e later := fun hreads =>
    hreads.derives hlex.known
  refine ⟨⟨fun hexpr => ?_, fun ⟨_, h⟩ => expr_complete h.reads⟩, fun later => ⟨fun hparse => ?_, ?_⟩⟩
  · obtain ⟨used, hused, hreads⟩ := expr_sound _ _ _ hexpr
    rw [List.append_nil] at hused
    exact hderives (hused ▸ hreads)
  · obtain ⟨ts, hlex', hreads⟩ := reads_of_parse hparse
    obtain rfl := hlex.unique hlex'
    obtain ⟨own, hown⟩ := hderives hreads
    cases hparse.symm.trans (parse_of_derives hlex hown)
    exact hown
  · exact parse_of_derives hlex

/-- The tree of `(/) union ($v, @a)//*`. -/
private def rootAndOthers : Expr :=
  .union (.group (.absolute []))
    (.continued (.sequence [.variableRef "v", .relative [⟨.attributes, .name "a", []⟩]])
      [⟨.descendantOrSelf, .node, []⟩, ⟨.child, .wildcard, []⟩])

theorem parse_eq_ok_iff_derives_union :
    ∃ found, tokenize "(/) union ($v, @a)//*" = .ok found ∧
      Derives (.expr .or) (found.map (·.token)) rootAndOthers true ∧
      parse "(/) union ($v, @a)//*" = .ok ⟨rootAndOthers, true⟩ := by
  have hlex : Lexes .doubled true "(/) union ($v, @a)//*".toList
      [.lparen, .slash, .rparen, .operatorName "union", .lparen, .variableName "v", .comma, .atSign,
        .nameTest "a", .rparen, .doubleSlash, .nameTest "*"] := by
    iterate 12 refine .more rfl rfl ?_
    exact .done rfl
  have hslash : Derives (.expr .or) [.slash] (.absolute []) false := by
    iterate 8 refine .tighter ?_
    exact .root
  have hroot : Derives (.expr .union) [.lparen, .slash, .rparen] (.group (.absolute [])) false :=
    .tighter (.tighter (.tighter (.group hslash)))
  have hvariable : Derives (.expr .or) [.variableName "v"] (.variableRef "v") false := by
    iterate 10 refine .tighter ?_
    exact .variableRef "v"
  have hname : TestDerives [.nameTest "a"] (.name "a") := by
    refine .name (by decide) fun p heq => ?_
    have hlast := congrArg (fun s => s.toList.getLast?) heq
    simp at hlast
  have hattribute : Derives (.expr .or) [.atSign, .nameTest "a"]
      (.relative [⟨.attributes, .name "a", []⟩]) false := by
    iterate 8 refine .tighter ?_
    exact .relative (.lastStep (.tested .atSign hname .noPredicates))
  have hitems := Derives.sequence (.arguments (.item hvariable (.lastItem hattribute))) (by decide)
  have hsteps := Derives.lastStep (.tested .none .wildcard .noPredicates)
  have hothers := Derives.continued (.tighter hitems) .doubleSlash hsteps
  have hunion := Derives.binary .unionWord hroot hothers
  obtain ⟨found, hfound, htokens⟩ := tokenizeWith_of_lexes hlex
  have hderives : Derives (.expr .or) (found.map (·.token)) rootAndOthers true := by
    rw [htokens]
    iterate 7 refine .tighter ?_
    exact hunion
  exact ⟨found, hfound, hderives, ((parse_eq_ok_iff_derives hfound rootAndOthers).2 true).mpr hderives⟩

end Schematron.XPath
