import Schematron.Proofs.XPath.Soundness

/-!
Tokens that are written by the rules of the grammar are read by the parser, which stops where nothing
can extend what it has read.
-/

namespace Schematron.XPath

namespace Grammar

variable {α β : Type}

namespace Level

def rank : Level → Nat
  | or => 1
  | and => 2
  | equality => 3
  | relational => 4
  | additive => 5
  | multiplicative => 6
  | unary => 7
  | union => 8
  | path => 9
  | filter => 10
  | primary => 11

/-- The level whose operators a token belongs to. -/
def ofOperator? : Token → Option Level
  | .eq | .notEq => some equality
  | .lt | .ltEq | .gt | .gtEq => some relational
  | .plus | .minus => some additive
  | .multiply => some multiplicative
  | .pipe => some union
  | .operatorName n =>
    if n = "or" then some or
    else if n = "and" then some and
    else if n = "eq" ∨ n = "ne" then some equality
    else if n = "lt" ∨ n = "le" ∨ n = "gt" ∨ n = "ge" then some relational
    else if n = "div" ∨ n = "mod" then some multiplicative
    else if n = "union" then some union
    else none
  | _ => none

theorem ofOperator?_of_operator {l : Level} {t : Token} {join : Expr → Expr → Expr}
    (h : l.operator t = some join) : ofOperator? t = some l := by
  cases l <;> cases t <;>
    simp only [operator, orOp, andOp, equalityOp, relationalOp, additiveOp, multiplicativeOp, unionOp,
      reduceCtorEq] at h <;> first | rfl | skip
  all_goals
    split_ifs at h <;> subst_vars <;> rfl

/-- Levels that are operands with operators between them. -/
def chains : Level → Bool
  | unary | path | filter | primary => false
  | _ => true

theorem chains_of_operator {l : Level} {t : Token} {join : Expr → Expr → Expr}
    (h : l.operator t = some join) : l.chains = true := by
  cases l <;> first | rfl | cases h

/-- The tokens that close what stands between brackets. -/
def Closes (t : Token) : Prop := t = .rparen ∨ t = .rbracket ∨ t = .comma

theorem Closes.ofOperator? {t : Token} (h : Closes t) : ofOperator? t = none := by
  rcases h with rfl | rfl | rfl <;> rfl

/-- A token that nothing of a level goes on with. -/
def Follows (l : Level) (t : Token) : Prop :=
  match l with
  | primary => True
  | filter => t ≠ .lbracket
  | l => Closes t ∨ ∃ m, ofOperator? t = some m ∧ m.rank < l.rank

/-- Nothing of a level goes on with these tokens. -/
def Ends (l : Level) (rest : List Token) : Prop := ∀ t ∈ rest.head?, l.Follows t

theorem ends_nil (l : Level) : l.Ends [] := by
  intro t ht
  cases ht

theorem ends_cons {l : Level} {t : Token} {rest : List Token} :
    l.Ends (t :: rest) ↔ l.Follows t := by
  simp [Ends]

theorem follows_of_closes (l : Level) {t : Token} (h : Closes t) : l.Follows t := by
  have hbracket : t ≠ .lbracket := by rcases h with rfl | rfl | rfl <;> decide
  cases l
  case primary => trivial
  case filter => exact hbracket
  all_goals exact .inl h

theorem Follows.next {l : Level} {t : Token} (h : l.Follows t) : l.next.Follows t := by
  cases l
  case primary => trivial
  case filter => trivial
  case path =>
    rcases h with hc | ⟨m, hm, -⟩
    · exact follows_of_closes .filter hc
    · intro heq
      subst heq
      cases hm
  all_goals
    rcases h with hc | ⟨m, hm, hrank⟩
    · exact .inl hc
    · exact .inr ⟨m, hm, Nat.lt_succ_of_lt hrank⟩

theorem Ends.next {l : Level} {rest : List Token} (h : l.Ends rest) : l.next.Ends rest :=
  fun t ht => (h t ht).next

theorem follows_next_of_operator {l : Level} {t : Token} {join : Expr → Expr → Expr}
    (h : l.operator t = some join) : l.next.Follows t := by
  have hlevel := ofOperator?_of_operator h
  cases l
  case unary | path | filter | primary => cases h
  all_goals exact .inr ⟨_, hlevel, Nat.lt_succ_self _⟩

theorem Follows.operator_eq_none {l : Level} {t : Token} (h : l.Follows t) : l.operator t = none := by
  cases hop : l.operator t with
  | none => rfl
  | some join =>
    have hlevel := ofOperator?_of_operator hop
    cases l
    case unary | path | filter | primary => cases hop
    all_goals
      rcases h with hc | ⟨m, hm, hrank⟩
      · rw [hc.ofOperator?] at hlevel
        cases hlevel
      · rw [hm] at hlevel
        cases hlevel
        exact absurd hrank (Nat.lt_irrefl _)

/-- No path goes on with a token that follows it. -/
theorem Follows.of_path {t : Token} (h : path.Follows t) :
    stepOp t = none ∧ startsStep (some t) = false ∧ t ≠ .lbracket := by
  rcases h with hc | ⟨m, hm, -⟩
  · rcases hc with rfl | rfl | rfl <;> exact ⟨rfl, rfl, by decide⟩
  · have hbracket : t ≠ .lbracket := by
      intro heq
      subst heq
      cases hm
    cases t <;> first | exact ⟨rfl, rfl, hbracket⟩ | cases hm

end Level

/-- The parser of a level. -/
def parserAt (nested : Parser Expr) : Level → Parser Expr
  | .or => chain orOp (parserAt nested .and)
  | .and => chain andOp (parserAt nested .equality)
  | .equality => chain equalityOp (parserAt nested .relational)
  | .relational => chain relationalOp (parserAt nested .additive)
  | .additive => chain additiveOp (parserAt nested .multiplicative)
  | .multiplicative => chain multiplicativeOp (parserAt nested .unary)
  | .unary => unary (parserAt nested .union)
  | .union => chain unionOp (parserAt nested .path)
  | .path => path nested
  | .filter => filter nested
  | .primary => primary nested
termination_by l => 11 - l.rank
decreasing_by all_goals decide

theorem parserAt_or (nested : Parser Expr) : parserAt nested .or = level nested := by
  simp only [parserAt]
  rfl

theorem parserAt_of_chains (nested : Parser Expr) {l : Level} (h : l.chains = true) :
    parserAt nested l = chain l.operator (parserAt nested l.next) := by
  cases l
  case unary | path | filter | primary => cases h
  all_goals
    rw [parserAt]
    rfl

/-- Operators and their operands behind what is read so far. -/
def grow (op : Token → Option (Expr → Expr → Expr)) (operand : Parser Expr) (left : Expr) :
    Parser Expr := do
  let more ← repeated op fun join => do return (join, ← operand)
  return more.foldl (fun left (join, right) => join left right) left

theorem chain_eq (op : Token → Option (Expr → Expr → Expr)) (operand : Parser Expr) :
    chain op operand = (do
      let first ← operand
      grow op operand first) := rfl

theorem bind_of_ok {p : Parser α} {f : α → Parser β} {ts mid : List Token} {a : α}
    (h : p ts = .ok (a, mid)) : (p >>= f) ts = f a mid := by
  show Except.bind (p ts) (fun x => f x.1 x.2) = f a mid
  rw [h]
  rfl

theorem pure_apply (a : α) (ts : List Token) : (pure a : Parser α) ts = .ok (a, ts) := rfl

theorem expect_cons (t : Token) (rest : List Token) : expect t (t :: rest) = .ok ((), rest) :=
  expect_eq_ok.mpr rfl

theorem repeated_stop {lead : Token → Option β} {item : β → Parser α} {rest : List Token}
    (h : ∀ t ∈ rest.head?, lead t = none) : repeated lead item rest = .ok ([], rest) := by
  cases rest with
  | nil => rw [repeated]
  | cons t rest =>
    rw [repeated, h t rfl]

theorem repeated_more {lead : Token → Option β} {item : β → Parser α} {t : Token} {b : β} {a : α}
    {ts mid rest : List Token} {as : List α} (hl : lead t = some b) (hi : item b ts = .ok (a, mid))
    (hlen : mid.length ≤ ts.length) (h : repeated lead item mid = .ok (as, rest)) :
    repeated lead item (t :: ts) = .ok (a :: as, rest) := by
  rw [repeated, hl]
  simp only [hi, if_pos hlen, h]

theorem grow_stop {op : Token → Option (Expr → Expr → Expr)} {operand : Parser Expr} {left : Expr}
    {rest : List Token} (h : ∀ t ∈ rest.head?, op t = none) :
    grow op operand left rest = .ok (left, rest) := by
  unfold grow
  rw [bind_of_ok (repeated_stop h)]
  rfl

theorem grow_more {op : Token → Option (Expr → Expr → Expr)} {operand : Parser Expr} {left right : Expr}
    {join : Expr → Expr → Expr} {t : Token} {ts rest : List Token} (ht : op t = some join)
    (hr : operand ts = .ok (right, rest)) (hlen : rest.length ≤ ts.length) :
    grow op operand left (t :: ts) = grow op operand (join left right) rest := by
  have hitem : (do return (join, ← operand) : Parser ((Expr → Expr → Expr) × Expr)) ts
      = .ok ((join, right), rest) := by
    rw [bind_of_ok hr]
    rfl
  unfold grow
  cases hmore : repeated op (fun join => do return (join, ← operand)) rest with
  | error e =>
    have hall : repeated op (fun join => do return (join, ← operand)) (t :: ts) = .error e := by
      rw [repeated, ht]
      simp only [hitem, if_pos hlen, hmore]
    show Except.bind (repeated op _ (t :: ts)) _ = Except.bind (repeated op _ rest) _
    rw [hall, hmore]
    rfl
  | ok x =>
    obtain ⟨more, last⟩ := x
    rw [bind_of_ok (repeated_more ht hitem hlen hmore), bind_of_ok hmore]
    rfl

def opensPrimary : Token → Bool
  | .variableName _ | .literal _ | .number _ | .functionName _ | .lparen => true
  | _ => false

/-- The tokens that an expression of a level may begin with. -/
def Level.Opens (l : Level) (t : Token) : Prop :=
  opensPrimary t = true
    ∨ (l.rank ≤ path.rank ∧ (startsStep (some t) = true ∨ (stepOp t).isSome = true))
    ∨ (l.rank ≤ unary.rank ∧ t = .minus)

theorem Level.Opens.of_next {l : Level} {t : Token} (h : l.next.Opens t) : l.Opens t := by
  have hrank : l.rank ≤ l.next.rank := by cases l <;> decide
  rcases h with h | ⟨hl, h⟩ | ⟨hl, h⟩
  · exact .inl h
  · exact .inr (.inl ⟨Nat.le_trans hrank hl, h⟩)
  · exact .inr (.inr ⟨Nat.le_trans hrank hl, h⟩)

/-- The first token of a part that has one. -/
def Part.Opens : Part → Token → Prop
  | .expr l, t => l.Opens t
  | .items, t => Level.or.Opens t
  | .steps, t | .step, t => startsStep (some t) = true
  | .arguments, _ | .predicates, _ => True

/-- Parts that have at least one token. -/
def Part.written : Part → Bool
  | .arguments | .predicates => false
  | _ => true

theorem TestReads.opens {ts : List Token} {test : NodeTest} (h : TestReads ts test) :
    ∃ t us, ts = t :: us ∧ startsStep (some t) = true ∧ t ≠ .dot ∧ t ≠ .dotDot := by
  cases h <;> exact ⟨_, _, rfl, rfl, by simp, by simp⟩

theorem AxisReads.opens {as ts : List Token} {a : Axis} {test : NodeTest} (ha : AxisReads as a)
    (ht : TestReads ts test) (ps : List Token) :
    ∃ t us, as ++ (ts ++ ps) = t :: us ∧ startsStep (some t) = true ∧ t ≠ .dot ∧ t ≠ .dotDot := by
  cases ha with
  | none =>
    obtain ⟨t, us, rfl, hopens⟩ := ht.opens
    exact ⟨t, us ++ ps, rfl, hopens⟩
  | atSign => exact ⟨_, _, rfl, rfl, by simp, by simp⟩
  | named => exact ⟨_, _, rfl, rfl, by simp, by simp⟩

theorem Reads.opens {k : Part} {ts : List Token} {x : k.Tree} (h : Reads k ts x)
    (hw : k.written = true) : ∃ t us, ts = t :: us ∧ k.Opens t := by
  induction h with
  | tighter _ ih =>
    obtain ⟨t, us, rfl, hopens⟩ := ih rfl
    exact ⟨t, us, rfl, hopens.of_next⟩
  | binary _ _ _ ih =>
    obtain ⟨t, us, rfl, hopens⟩ := ih rfl
    exact ⟨t, _, rfl, hopens⟩
  | negate => exact ⟨_, _, rfl, .inr (.inr ⟨Nat.le_refl _, rfl⟩)⟩
  | root => exact ⟨_, _, rfl, .inr (.inl ⟨Nat.le_refl _, .inr rfl⟩)⟩
  | absolute ht => exact ⟨_, _, rfl, .inr (.inl ⟨Nat.le_refl _, .inr (by simp [ht])⟩)⟩
  | relative _ ih =>
    obtain ⟨t, us, rfl, hopens⟩ := ih rfl
    exact ⟨t, us, rfl, .inr (.inl ⟨Nat.le_refl _, .inl hopens⟩)⟩
  | continued _ _ _ ih =>
    obtain ⟨t, us, rfl, hopens⟩ := ih rfl
    exact ⟨t, _, rfl, Level.Opens.of_next (l := .path) hopens⟩
  | filter _ _ _ ih =>
    obtain ⟨t, us, rfl, hopens⟩ := ih rfl
    exact ⟨t, _, rfl, Level.Opens.of_next (l := .filter) hopens⟩
  | variableRef | literal | number | call | group | sequence => exact ⟨_, _, rfl, .inl rfl⟩
  | noArguments | arguments | noPredicates | predicate => cases hw
  | lastItem _ ih | lastStep _ ih => exact ih rfl
  | item _ _ ih =>
    obtain ⟨t, us, rfl, hopens⟩ := ih rfl
    exact ⟨t, _, rfl, hopens⟩
  | joined _ _ _ ih =>
    obtain ⟨t, us, rfl, hopens⟩ := ih rfl
    exact ⟨t, _, rfl, hopens⟩
  | self | parent => exact ⟨_, _, rfl, rfl⟩
  | tested ha ht _ =>
    obtain ⟨t, us, hts, hopens, -⟩ := ha.opens ht _
    exact ⟨t, us, hts, hopens⟩

/-- The parser of a level reads an expression off the front of the tokens; where the level has
operators, it goes on with those behind it. -/
structure CompleteAt (l : Level) (ts : List Token) (e : Expr) : Prop where
  grows : l.chains = true → ∀ n rest, (ts ++ rest).length ≤ n → l.next.Ends rest →
    parserAt (inside n) l (ts ++ rest) = grow l.operator (parserAt (inside n) l.next) e rest
  ends : l.chains = false → ∀ n rest, (ts ++ rest).length ≤ n → l.Ends rest →
    parserAt (inside n) l (ts ++ rest) = .ok (e, rest)

theorem CompleteAt.reads {l : Level} {ts : List Token} {e : Expr} (h : CompleteAt l ts e) {n : Nat}
    {rest : List Token} (hn : (ts ++ rest).length ≤ n) (hends : l.Ends rest) :
    parserAt (inside n) l (ts ++ rest) = .ok (e, rest) := by
  cases hl : l.chains with
  | false => exact h.ends hl n rest hn hends
  | true =>
    rw [h.grows hl n rest hn hends.next]
    exact grow_stop fun t ht => (hends t ht).operator_eq_none

theorem CompleteAt.reads_inside {ts rest : List Token} {e : Expr} {t : Token} (h : CompleteAt .or ts e)
    {n : Nat} (hn : (ts ++ t :: rest).length < n) (ht : Level.Closes t) :
    inside n (ts ++ t :: rest) = .ok (e, t :: rest) := by
  rw [inside_of_lt hn, expr_eq, ← parserAt_or]
  exact h.reads (Nat.le_refl _) (Level.ends_cons.mpr (Level.follows_of_closes _ ht))

theorem CompleteAt.tighter {l : Level} {ts : List Token} {e : Expr} (hl : l.chains = true)
    (h : CompleteAt l.next ts e) : CompleteAt l ts e where
  grows _ n rest hn hends := by
    rw [parserAt_of_chains _ hl, chain_eq, bind_of_ok (h.reads hn hends)]
  ends hc := by
    rw [hl] at hc
    cases hc

theorem CompleteAt.binary {l : Level} {t : Token} {join : Expr → Expr → Expr} {ts us : List Token}
    {a b : Expr} (op : l.operator t = some join) (left : CompleteAt l ts a)
    (right : CompleteAt l.next us b) : CompleteAt l (ts ++ t :: us) (join a b) where
  grows hl n rest hn hends := by
    rw [List.append_assoc, List.cons_append] at hn ⊢
    have hright : (us ++ rest).length ≤ n := by
      simp only [List.length_append, List.length_cons] at hn ⊢
      omega
    rw [left.grows hl n _ hn (Level.ends_cons.mpr (Level.follows_next_of_operator op))]
    exact grow_more op (right.reads hright hends) (by simp)
  ends hc := by
    rw [Level.chains_of_operator op] at hc
    cases hc

theorem unary_of_ne {operand : Parser Expr} {ts : List Token} (h : ∀ us, ts ≠ .minus :: us) :
    unary operand ts = operand ts := by
  unfold unary
  split
  · exact absurd rfl (h _)
  · rfl

theorem CompleteAt.unary {ts : List Token} {e : Expr} (hopens : ∃ t us, ts = t :: us ∧ Level.union.Opens t)
    (h : CompleteAt .union ts e) : CompleteAt .unary ts e where
  grows hc := by cases hc
  ends _ n rest hn hends := by
    obtain ⟨t, us, rfl, ht⟩ := hopens
    rw [parserAt, unary_of_ne]
    · exact h.reads hn hends.next
    · intro vs hvs
      obtain ⟨rfl, -⟩ := List.cons.inj hvs
      rcases ht with ht | ⟨-, ht | ht⟩ | ⟨hrank, -⟩
      · cases ht
      · cases ht
      · cases ht
      · exact absurd hrank (by decide)

theorem CompleteAt.negate {ts : List Token} {e : Expr} (h : CompleteAt .unary ts e) :
    CompleteAt .unary (.minus :: ts) (.negate e) where
  grows hc := by cases hc
  ends hl n rest hn hends := by
    have hrest : (ts ++ rest).length ≤ n := by
      simp only [List.cons_append, List.length_cons] at hn
      omega
    have hread := h.ends hl n rest hrest hends
    rw [parserAt] at hread ⊢
    rw [List.cons_append, Grammar.unary]
    simp only [hread]

theorem inside_sound (n : Nat) : Sound (inside n) (Reads (.expr .or)) := by
  intro ts e rest he
  by_cases hlt : ts.length < n
  · rw [inside_of_lt hlt] at he
    exact expr_sound ts e rest he
  · rw [inside, if_neg hlt] at he
    cases he

/-- Nothing of a run of steps goes on with these tokens. -/
def EndsSteps (rest : List Token) : Prop := ∀ t ∈ rest.head?, t ≠ .lbracket ∧ stepOp t = none

theorem EndsSteps.filter {rest : List Token} (h : EndsSteps rest) : Level.filter.Ends rest :=
  fun t ht => (h t ht).1

theorem EndsSteps.of_path {rest : List Token} (h : Level.path.Ends rest) : EndsSteps rest :=
  fun t ht => ⟨(h t ht).of_path.2.2, (h t ht).of_path.1⟩

theorem filter_ends_of_stepOp {t : Token} {between : List (Step Expr)} {rest : List Token}
    (ht : stepOp t = some between) : Level.filter.Ends (t :: rest) := by
  rw [Level.ends_cons]
  intro heq
  subst heq
  cases ht

theorem stepOp_eq_some {t : Token} {between : List (Step Expr)} (h : stepOp t = some between) :
    (t = .slash ∧ between = []) ∨ (t = .doubleSlash ∧ between = [.descendantOrSelf]) := by
  unfold stepOp at h
  split at h
  · exact .inl ⟨rfl, (Option.some.inj h).symm⟩
  · exact .inr ⟨rfl, (Option.some.inj h).symm⟩
  · cases h

/-- The parser of what stands between brackets reads the tokens of a part, with what follows them. -/
def Complete : (k : Part) → List Token → k.Tree → Prop
  | .expr l, ts, e => CompleteAt l ts e
  | .items, ts, es => ∀ n rest, (ts ++ .rparen :: rest).length < n →
    commaList (inside n) (ts ++ .rparen :: rest) = .ok (es, .rparen :: rest)
  | .arguments, ts, es => ∀ n rest, (ts ++ .rparen :: rest).length < n →
    arguments (inside n) (ts ++ .rparen :: rest) = .ok (es, rest)
  | .steps, ts, ss => ∀ n rest, (ts ++ rest).length ≤ n → EndsSteps rest →
    steps (inside n) (ts ++ rest) = .ok (ss, rest)
  | .step, ts, s => ∀ n rest, (ts ++ rest).length ≤ n → Level.filter.Ends rest →
    step (inside n) (ts ++ rest) = .ok (s, rest)
  | .predicates, ts, es => ∀ n rest, (ts ++ rest).length ≤ n → Level.filter.Ends rest →
    predicates (inside n) (ts ++ rest) = .ok (es, rest)

theorem complete_noPredicates : Complete .predicates [] [] := by
  intro n rest _ hends
  refine repeated_stop fun t ht => ?_
  unfold isBracket
  split
  · exact absurd rfl (hends _ ht)
  · rfl

theorem complete_predicate {ts us : List Token} {e : Expr} {es : List Expr} (h : CompleteAt .or ts e)
    (more : Complete .predicates us es) :
    Complete .predicates (.lbracket :: (ts ++ .rbracket :: us)) (e :: es) := by
  intro n rest hn hends
  rw [List.cons_append, List.append_assoc, List.cons_append] at hn ⊢
  simp only [List.length_cons, List.length_append] at hn
  have hinside : inside n (ts ++ .rbracket :: (us ++ rest)) = .ok (e, .rbracket :: (us ++ rest)) :=
    h.reads_inside (by simp only [List.length_cons, List.length_append]; omega) (.inr (.inl rfl))
  have hmore := more n rest (by simp only [List.length_append]; omega) hends
  refine repeated_more rfl ?_ ?_ hmore
  · rw [bind_of_ok hinside, bind_of_ok (expect_cons _ _)]
    rfl
  · simp
    omega

theorem axis_complete {as ts rest : List Token} {a : Axis} {test : NodeTest} (ha : AxisReads as a)
    (ht : TestReads ts test) : axis (as ++ (ts ++ rest)) = .ok (a, ts ++ rest) := by
  cases ha with
  | none =>
    cases ht <;> rfl
  | atSign => rfl
  | named h =>
    show axis (.axisName _ :: .colonColon :: (ts ++ rest)) = _
    unfold axis
    rw [get_bind]
    simp only [h]
    rw [set_bind, bind_of_ok (expect_cons _ _)]
    rfl

theorem typeTest_complete {kind : String} (ts : List Token) {rest : List Token} {test : NodeTest}
    (h : typed kind (ts ++ .rparen :: rest) = .ok (test, .rparen :: rest)) :
    typeTest kind (.lparen :: (ts ++ .rparen :: rest)) = .ok (test, rest) := by
  rw [typeTest_eq, bind_of_ok (expect_cons _ _), bind_of_ok h, bind_of_ok (expect_cons _ _)]
  rfl

theorem nodeTest_complete {ts rest : List Token} {test : NodeTest} (h : TestReads ts test) :
    nodeTest (ts ++ rest) = .ok (test, rest) := by
  cases h with
  | name => rfl
  | type h => exact typeTest_complete [] (by rw [typed, h]; rfl)
  | instruction h => exact typeTest_complete [] (by rw [typed, h]; rfl)
  | target h value => exact typeTest_complete [.literal value] (by rw [typed, h]; rfl)

theorem step_cons {nested : Parser Expr} {t : Token} {ts : List Token} (hdot : t ≠ .dot)
    (hdots : t ≠ .dotDot) :
    step nested (t :: ts) =
      (do return ⟨← axis, ← nodeTest, ← predicates nested⟩ : Parser (Step Expr)) (t :: ts) := by
  unfold step
  rw [get_bind]
  cases t <;> first | rfl | exact absurd rfl hdot | exact absurd rfl hdots

theorem complete_tested {as ts ps : List Token} {a : Axis} {test : NodeTest} {preds : List Expr}
    (ha : AxisReads as a) (ht : TestReads ts test) (hp : Complete .predicates ps preds) :
    Complete .step (as ++ (ts ++ ps)) ⟨a, test, preds⟩ := by
  intro n rest hn hends
  obtain ⟨t, us, hts, -, hdot, hdots⟩ := ha.opens ht (ps ++ rest)
  have hps : (ps ++ rest).length ≤ n := by
    simp only [List.length_append] at hn ⊢
    omega
  rw [List.append_assoc, List.append_assoc, hts, step_cons hdot hdots, ← hts,
    bind_of_ok (axis_complete ha ht), bind_of_ok (nodeTest_complete ht),
    bind_of_ok (hp n rest hps hends)]
  rfl

theorem steps_last {nested : Parser Expr} {ts rest : List Token} {s : Step Expr}
    (h : step nested ts = .ok (s, rest)) (hends : EndsSteps rest) :
    steps nested ts = .ok ([s], rest) := by
  unfold steps
  rw [bind_of_ok h, bind_of_ok (repeated_stop fun t ht => (hends t ht).2)]
  rfl

theorem steps_joined {nested : Parser Expr} {t : Token} {between : List (Step Expr)} {ts mid rest : List Token}
    {s : Step Expr} {ss : List (Step Expr)} (hn : Sound nested (Reads (.expr .or)))
    (h : step nested ts = .ok (s, t :: mid)) (ht : stepOp t = some between)
    (more : steps nested mid = .ok (ss, rest)) :
    steps nested ts = .ok (s :: (between ++ ss), rest) := by
  unfold steps at more
  obtain ⟨next, after, hnext, more⟩ := bind_eq_ok.mp more
  obtain ⟨behind, last, hbehind, more⟩ := bind_eq_ok.mp more
  obtain ⟨rfl, rfl⟩ := pure_eq_ok.mp more
  have hitem : (do return between ++ [← step nested] : Parser (List (Step Expr))) mid
      = .ok (between ++ [next], after) := by
    rw [bind_of_ok hnext]
    rfl
  unfold steps
  rw [bind_of_ok h, bind_of_ok (repeated_more ht hitem ((step_sound hn).length_le hnext) hbehind),
    pure_apply]
  simp

theorem complete_joined {t : Token} {between : List (Step Expr)} {ts us : List Token} {s : Step Expr}
    {ss : List (Step Expr)} (h : Complete .step ts s) (ht : stepOp t = some between)
    (more : Complete .steps us ss) : Complete .steps (ts ++ t :: us) (s :: (between ++ ss)) := by
  intro n rest hn hends
  rw [List.append_assoc, List.cons_append] at hn ⊢
  have hmore : (us ++ rest).length ≤ n := by
    simp only [List.length_append, List.length_cons] at hn ⊢
    omega
  exact steps_joined (inside_sound n) (h n _ hn (filter_ends_of_stepOp ht)) ht
    (more n rest hmore hends)

theorem complete_lastItem {ts : List Token} {e : Expr} (h : CompleteAt .or ts e) :
    Complete .items ts [e] := by
  intro n rest hn
  unfold commaList
  rw [bind_of_ok (h.reads_inside hn (.inl rfl)), bind_of_ok (repeated_stop (by intro t hx; cases hx; rfl))]
  rfl

theorem complete_item {ts us : List Token} {e : Expr} {es : List Expr} (h : CompleteAt .or ts e)
    (more : Complete .items us es) : Complete .items (ts ++ .comma :: us) (e :: es) := by
  intro n rest hn
  rw [List.append_assoc, List.cons_append] at hn ⊢
  have hus : (us ++ .rparen :: rest).length < n := by
    simp only [List.length_append, List.length_cons] at hn ⊢
    omega
  have hmore := more n rest hus
  unfold commaList at hmore
  obtain ⟨next, after, hnext, hmore⟩ := bind_eq_ok.mp hmore
  obtain ⟨behind, last, hbehind, hmore⟩ := bind_eq_ok.mp hmore
  obtain ⟨rfl, rfl⟩ := pure_eq_ok.mp hmore
  unfold commaList
  rw [bind_of_ok (h.reads_inside hn (.inr (.inr rfl))),
    bind_of_ok (repeated_more (b := ()) rfl hnext ((inside_sound n).length_le hnext) hbehind)]
  rfl

theorem arguments_of_ne {nested : Parser Expr} {ts : List Token} (h : ts.head? ≠ some .rparen) :
    arguments nested ts = (do
      let args ← commaList nested
      expect .rparen
      return args : Parser (List Expr)) ts := by
  have hnext : (next? : Parser (Option Token)) ts = .ok (ts.head?, ts) := rfl
  unfold arguments
  rw [bind_of_ok hnext, if_neg h]

theorem complete_arguments {ts : List Token} {es : List Expr}
    (hopens : ∃ t us, ts = t :: us ∧ Level.or.Opens t) (h : Complete .items ts es) :
    Complete .arguments ts es := by
  intro n rest hn
  obtain ⟨t, us, rfl, ht⟩ := hopens
  have hhead : (t :: us ++ .rparen :: rest).head? ≠ some .rparen := by
    intro heq
    cases heq
    rcases ht with ht | ⟨-, ht | ht⟩ | ⟨-, ht⟩ <;> cases ht
  rw [arguments_of_ne hhead, bind_of_ok (h n rest hn), bind_of_ok (expect_cons _ _)]
  rfl

theorem CompleteAt.of_primary {ts : List Token} {e : Expr}
    (h : ∀ n rest, (ts ++ rest).length ≤ n → primary (inside n) (ts ++ rest) = .ok (e, rest)) :
    CompleteAt .primary ts e where
  grows hc := by cases hc
  ends _ n rest hn _ := by
    rw [parserAt]
    exact h n rest hn

theorem CompleteAt.call (name : String) {ts : List Token} {args : List Expr}
    (h : Complete .arguments ts args) :
    CompleteAt .primary (.functionName name :: .lparen :: (ts ++ [.rparen])) (.call name args) := by
  refine .of_primary fun n rest hn => ?_
  simp only [List.cons_append, List.append_assoc, List.nil_append, List.length_cons,
    List.length_append] at hn ⊢
  have hargs := h n rest (by simp only [List.length_append, List.length_cons]; omega)
  show (do expect .lparen; return .call name (← arguments (inside n)) : Parser Expr)
    (.lparen :: (ts ++ .rparen :: rest)) = _
  rw [bind_of_ok (expect_cons _ _), bind_of_ok hargs]
  rfl

/-- What expressions in parentheses are. -/
def enclosed : List Expr → Expr
  | [e] => .group e
  | items => .sequence items

theorem primary_parenthesized {nested : Parser Expr} {ts rest : List Token} {items : List Expr}
    (h : arguments nested ts = .ok (items, rest)) :
    primary nested (.lparen :: ts) = .ok (enclosed items, rest) := by
  show parenthesized nested ts = _
  unfold parenthesized
  rw [bind_of_ok h]
  rcases items with _ | ⟨e, _ | ⟨f, more⟩⟩ <;> rfl

theorem complete_group {ts : List Token} {e : Expr} (hopens : ∃ t us, ts = t :: us ∧ Level.or.Opens t)
    (h : CompleteAt .or ts e) : CompleteAt .primary (.lparen :: (ts ++ [.rparen])) (.group e) := by
  refine .of_primary fun n rest hn => ?_
  simp only [List.cons_append, List.append_assoc, List.nil_append, List.length_cons,
    List.length_append] at hn ⊢
  exact primary_parenthesized (complete_arguments hopens (complete_lastItem h) n rest
    (by simp only [List.length_append, List.length_cons]; omega))

theorem complete_sequence {ts : List Token} {items : List Expr} (h : Complete .arguments ts items)
    (many : items.length ≠ 1) :
    CompleteAt .primary (.lparen :: (ts ++ [.rparen])) (.sequence items) := by
  refine .of_primary fun n rest hn => ?_
  simp only [List.cons_append, List.append_assoc, List.nil_append, List.length_cons,
    List.length_append] at hn ⊢
  rw [primary_parenthesized (h n rest (by simp only [List.length_append, List.length_cons]; omega))]
  unfold enclosed
  split
  · exact absurd rfl many
  · rfl

theorem complete_bareFilter {ts : List Token} {e : Expr} (h : CompleteAt .primary ts e) :
    CompleteAt .filter ts e where
  grows hc := by cases hc
  ends _ n rest hn hends := by
    have hprimary := h.reads hn fun _ _ => trivial
    rw [parserAt] at hprimary
    rw [parserAt]
    have hnone : predicates (inside n) rest = .ok ([], rest) :=
      complete_noPredicates n rest (by simp at hn ⊢; omega) hends
    unfold filter
    rw [bind_of_ok hprimary, bind_of_ok hnone]
    rfl

theorem complete_filter {ts us : List Token} {e : Expr} {preds : List Expr} (h : CompleteAt .primary ts e)
    (some : preds ≠ []) (hp : Complete .predicates us preds) :
    CompleteAt .filter (ts ++ us) (.filter e preds) where
  grows hc := by cases hc
  ends _ n rest hn hends := by
    rw [List.append_assoc] at hn ⊢
    have hprimary := h.reads hn (fun _ _ => trivial)
    rw [parserAt] at hprimary
    rw [parserAt]
    unfold filter
    rw [bind_of_ok hprimary, bind_of_ok (hp n rest (by simp at hn ⊢; omega) hends)]
    cases preds with
    | nil => exact absurd rfl some
    | cons => rfl

/-- A path that begins with neither slash nor step. -/
theorem path_of_opens {nested : Parser Expr} {t : Token} {ts : List Token} (ht : opensPrimary t = true) :
    path nested (t :: ts) = (do
      let start ← filter nested
      match ← get with
      | .slash :: rest => set rest; return .continued start (← steps nested)
      | .doubleSlash :: rest =>
        set rest
        return .continued start (.descendantOrSelf :: (← steps nested))
      | _ => return start : Parser Expr) (t :: ts) := by
  unfold path
  rw [get_bind]
  cases t <;> first | rfl | cases ht

theorem filter_opens {t : Token} (h : Level.filter.Opens t) : opensPrimary t = true := by
  rcases h with h | ⟨hrank, -⟩ | ⟨hrank, -⟩
  · exact h
  · exact absurd hrank (by decide)
  · exact absurd hrank (by decide)

theorem complete_barePath {ts : List Token} {e : Expr}
    (hopens : ∃ t us, ts = t :: us ∧ Level.filter.Opens t) (h : CompleteAt .filter ts e) :
    CompleteAt .path ts e where
  grows hc := by cases hc
  ends _ n rest hn hends := by
    obtain ⟨t, us, rfl, ht⟩ := hopens
    have hfilter := h.reads hn hends.next
    rw [parserAt] at hfilter
    rw [parserAt, List.cons_append, path_of_opens (filter_opens ht), ← List.cons_append,
      bind_of_ok hfilter, get_bind]
    cases rest with
    | nil => rfl
    | cons s rest =>
      have hstep := (Level.ends_cons.mp hends).of_path.1
      cases s <;> first | rfl | cases hstep

theorem complete_continued {t : Token} {between : List (Step Expr)} {ts us : List Token} {e : Expr}
    {ss : List (Step Expr)} (hopens : ∃ t us, ts = t :: us ∧ Level.filter.Opens t)
    (start : CompleteAt .filter ts e) (ht : stepOp t = some between) (h : Complete .steps us ss) :
    CompleteAt .path (ts ++ t :: us) (.continued e (between ++ ss)) where
  grows hc := by cases hc
  ends _ n rest hn hends := by
    obtain ⟨s, vs, rfl, hs⟩ := hopens
    rw [List.append_assoc] at hn ⊢
    have hfilter := start.reads hn (filter_ends_of_stepOp ht)
    have hsteps := h n rest (by simp at hn ⊢; omega) (.of_path hends)
    rw [parserAt] at hfilter
    rw [parserAt, List.cons_append, path_of_opens (filter_opens hs), ← List.cons_append,
      bind_of_ok hfilter, List.cons_append, get_bind]
    rcases stepOp_eq_some ht with ⟨rfl, rfl⟩ | ⟨rfl, rfl⟩
    · show (do return .continued e (← steps (inside n)) : Parser Expr) (us ++ rest) = _
      rw [bind_of_ok hsteps]
      rfl
    · show (do return .continued e (.descendantOrSelf :: (← steps (inside n))) : Parser Expr)
        (us ++ rest) = _
      rw [bind_of_ok hsteps]
      rfl

theorem complete_root : CompleteAt .path [.slash] (.absolute []) where
  grows hc := by cases hc
  ends _ n rest _ hends := by
    have hstart : startsStep rest.head? = false := by
      cases rest with
      | nil => rfl
      | cons t rest => exact (Level.ends_cons.mp hends).of_path.2.1
    rw [parserAt]
    show (if startsStep rest.head? then _ else _ : Parser Expr) rest = _
    rw [hstart]
    rfl

theorem complete_absolute {t : Token} {between : List (Step Expr)} {ts : List Token}
    {ss : List (Step Expr)} (hopens : ∃ t us, ts = t :: us ∧ startsStep (some t) = true)
    (ht : stepOp t = some between) (h : Complete .steps ts ss) :
    CompleteAt .path (t :: ts) (.absolute (between ++ ss)) where
  grows hc := by cases hc
  ends _ n rest hn hends := by
    have hsteps := h n rest (by simp at hn ⊢; omega) (.of_path hends)
    have hstart : startsStep (ts ++ rest).head? = true := by
      obtain ⟨s, us, rfl, hs⟩ := hopens
      exact hs
    rw [parserAt]
    rcases stepOp_eq_some ht with ⟨rfl, rfl⟩ | ⟨rfl, rfl⟩
    · show (if startsStep (ts ++ rest).head? then (do return .absolute (← steps (inside n)))
        else return .absolute [] : Parser Expr) (ts ++ rest) = _
      rw [hstart, if_pos rfl, bind_of_ok hsteps]
      rfl
    · show (do return .absolute (.descendantOrSelf :: (← steps (inside n))) : Parser Expr)
        (ts ++ rest) = _
      rw [bind_of_ok hsteps]
      rfl

theorem complete_relative {ts : List Token} {ss : List (Step Expr)}
    (hopens : ∃ t us, ts = t :: us ∧ startsStep (some t) = true) (h : Complete .steps ts ss) :
    CompleteAt .path ts (.relative ss) where
  grows hc := by cases hc
  ends _ n rest hn hends := by
    have hsteps := h n rest hn (.of_path hends)
    obtain ⟨t, us, rfl, ht⟩ := hopens
    rw [parserAt]
    have hpath : path (inside n) (t :: us ++ rest)
        = (do return .relative (← steps (inside n)) : Parser Expr) (t :: us ++ rest) := by
      cases t <;> first | rfl | cases ht
    rw [hpath, bind_of_ok hsteps]
    rfl

theorem Reads.complete {k : Part} {ts : List Token} {x : k.Tree} (h : Reads k ts x) :
    Complete k ts x := by
  induction h with
  | @tighter l ts e h ih =>
    cases l
    case unary => exact ih.unary (h.opens rfl)
    case path => exact complete_barePath (h.opens rfl) ih
    case filter => exact complete_bareFilter ih
    case primary => exact ih
    all_goals exact CompleteAt.tighter rfl ih
  | binary op _ _ left right => exact CompleteAt.binary op left right
  | negate _ ih => exact CompleteAt.negate ih
  | root => exact complete_root
  | absolute ht h ih => exact complete_absolute (h.opens rfl) ht ih
  | relative h ih => exact complete_relative (h.opens rfl) ih
  | continued start ht _ hstart ih => exact complete_continued (start.opens rfl) hstart ht ih
  | filter _ hsome _ ih hp => exact complete_filter ih hsome hp
  | variableRef | literal | number => exact CompleteAt.of_primary fun _ _ _ => rfl
  | call name _ ih => exact CompleteAt.call name ih
  | group h ih => exact complete_group (h.opens rfl) ih
  | sequence _ many ih => exact complete_sequence ih many
  | noArguments =>
    intro n rest _
    rfl
  | arguments h ih => exact complete_arguments (h.opens rfl) ih
  | lastItem _ ih => exact complete_lastItem ih
  | item _ _ ih more => exact complete_item ih more
  | lastStep _ ih =>
    intro n rest hn hends
    exact steps_last (ih n rest hn hends.filter) hends
  | joined _ ht _ ih more => exact complete_joined ih ht more
  | self | parent =>
    intro n rest _ _
    rfl
  | tested ha ht _ ih => exact complete_tested ha ht ih
  | noPredicates => exact complete_noPredicates
  | predicate _ _ ih more => exact complete_predicate ih more

/-- The parser reads the tokens of an expression to their end. -/
theorem expr_complete {ts : List Token} {e : Expr} (h : Reads (.expr .or) ts e) :
    expr ts = .ok (e, []) := by
  have hreads := CompleteAt.reads h.complete (Nat.le_refl (ts ++ []).length) (Level.ends_nil _)
  rw [List.append_nil] at hreads
  rw [expr_eq, ← parserAt_or]
  exact hreads

end Grammar

end Schematron.XPath
