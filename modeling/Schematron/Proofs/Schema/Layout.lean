import Schematron.Proofs.Success
import Schematron.Schema.Reader
import Mathlib.Logic.Relation

/-!
What counts where a schema is read: of all that stands right below a schema, a phase, a pattern, a rule or
the diagnostics, the elements of the schema's own namespace, and where reading succeeds, each kind of them
in its order.
-/

namespace Schematron.Schema.Reader

open Xml (Element Item)

/-- Elements with everything in them read as text or as a message. -/
def textual : List String := ["title", "assert", "report", "diagnostic"]

/-- Elements that are read by the elements right below them. -/
def holders : List String := ["schema", "phase", "pattern", "rule", "diagnostics"]

/-- Kinds of which each is one name. -/
def plainKinds : List String :=
  ["title", "ns", "let", "phase", "pattern", "diagnostics", "active", "param", "rule", "extends"]

/-- Asserts and reports are of one kind. -/
def kind? (e : Element Item) : Option String :=
  if e.name.localPart ∈ ["assert", "report"] then some "assert"
  else if e.name.localPart ∈ plainKinds then some e.name.localPart
  else none

/-- The kinds, with diagnostics of one id as a kind of their own. -/
def kindOrId? (e : Element Item) : Option (String × Option String) :=
  if e.name.localPart = "diagnostic" then some ("diagnostic", attribute? e "id")
  else (kind? e).map (·, none)

/-- The elements of each kind are the same, in the same order. -/
def SameByKind {κ : Type} [DecidableEq κ] (kind : Element Item → Option κ) (es es' : List (Element Item)) :
    Prop :=
  ∀ k, es.filter (kind · = some k) = es'.filter (kind · = some k)

/-- The children of one holder change, at or below an element, but not inside an element that is `closed`.
`R` relates the elements of the namespace `ns` among them before and after; all else there is free. -/
inductive Edit (ns : String) (closed : List String) (R : List (Element Item) → List (Element Item) → Prop) :
    Element Item → Element Item → Prop
  | here {e : Element Item} {children : List Item} (hname : e.name.localPart ∈ holders)
      (hR : R (childrenIn ns e) (childrenIn ns { e with children })) : Edit ns closed R e { e with children }
  | inside {e c c' : Element Item} {before after : List Item}
      (hopen : ¬ (e.name.uri = some ns ∧ e.name.localPart ∈ closed)) (h : Edit ns closed R c c') :
      Edit ns closed R { e with children := before ++ .element c :: after }
        { e with children := before ++ .element c' :: after }

/-- Any number of edits lead from one document to another. -/
def Edited (closed : List String) (R : List (Element Item) → List (Element Item) → Prop)
    (d d' : Xml.Document) : Prop :=
  ∃ e e', rootElement? d = some e ∧ rootElement? d' = some e' ∧
    Relation.ReflTransGen (Edit (e.name.uri.getD "") closed R) e e'

/-- Outcome `b` for outcome `a`. Where `lax` holds, any outcome may follow a failure. -/
def Follows {α : Type} (lax : Prop) (a b : Result α) : Prop := b = a ∨ lax ∧ ∃ err, a = .error err

/-- What the reader of a rule, of a pattern and so on does with one element after another. -/
inductive Part (ns : String) : (σ : Type) → (σ → Element Item → Result σ) → Prop
  | rule : Part ns Rule (rulePart ns)
  | pattern : Part ns Pattern (patternPart ns)
  | phase : Part ns Phase phasePart
  | diagnostics : Part ns (Table Message) (diagnostic ns)
  | schema : Part ns Document (schemaPart ns)

/-- No reader sees a difference between two elements. -/
def Alike (lax : Prop) (ns : String) (e e' : Element Item) : Prop :=
  ∀ σ f, Part ns σ f → ∀ s, Follows lax (f s e) (f s e')

/-- No reader sees a difference between two lists of elements. -/
def AlikeAll (lax : Prop) (ns : String) (es es' : List (Element Item)) : Prop :=
  ∀ σ f, Part ns σ f → ∀ s, Follows lax (es.foldlM f s) (es'.foldlM f s)

/-- A rule before its child elements are read, by its attributes. -/
def ruleStart (e : Element Item) : Result Rule := do
  let isAbstract := isTrue (attribute? e "abstract")
  let context ←
    match attribute? e "context" with
    | some c => pure c
    | none => if isAbstract then pure "" else malformed "concrete <rule> requires a context"
  if isAbstract && (attribute? e "id").isNone then malformed "abstract <rule> requires an id"
  return ⟨attribute? e "id", context, isAbstract, [], [], []⟩

theorem rule_eq (ns : String) (e : Element Item) :
    rule ns e = ruleStart e >>= (childrenIn ns e).foldlM (rulePart ns) := by
  unfold rule ruleStart
  cases attribute? e "context" <;> cases isTrue (attribute? e "abstract") <;> cases attribute? e "id" <;> rfl

section Follows

variable {α β : Type} {lax : Prop} {a b c : Result α}

theorem Follows.refl (a : Result α) : Follows lax a a := .inl rfl

theorem Follows.trans (hab : Follows lax a b) (hbc : Follows lax b c) : Follows lax a c := by
  rcases hab with rfl | hfailed
  · exact hbc
  · exact .inr hfailed

theorem Follows.bind {f f' : α → Result β} (h : Follows lax a b) (hf : ∀ x, Follows lax (f x) (f' x)) :
    Follows lax (a >>= f) (b >>= f') := by
  rcases h with rfl | ⟨hlax, err, rfl⟩
  · cases b with
    | error err => exact .refl _
    | ok x => exact hf x
  · exact .inr ⟨hlax, err, rfl⟩

theorem follows_of_ok (h : ∀ x, a = .ok x → b = .ok x) : Follows True a b := by
  cases a with
  | error err => exact .inr ⟨trivial, err, rfl⟩
  | ok x => exact .inl (h x rfl)

theorem Follows.eq_ok {x : α} (h : Follows lax a b) (ha : a = .ok x) : b = .ok x := by
  rcases h with rfl | ⟨-, err, rfl⟩
  · exact ha
  · cases ha

theorem follows_false_iff : Follows False a b ↔ b = a := by
  simp [Follows]

end Follows

section Edits

variable {lax : Prop} {ns : String} {closed : List String}
  {R : List (Element Item) → List (Element Item) → Prop} {e e' : Element Item} {children : List Item}

theorem not_textual_of_holder {name : String} (h : name ∈ holders) : name ∉ textual := by
  revert name
  decide

theorem Edit.exists_children (h : Edit ns closed R e e') : ∃ children, e' = { e with children } := by
  cases h with
  | here _ _ => exact ⟨_, rfl⟩
  | inside _ _ => exact ⟨_, rfl⟩

theorem Edit.not_textual (h : Edit ns textual R e e') (he : e.name.uri = some ns) :
    e.name.localPart ∉ textual := by
  cases h with
  | here hname _ => exact not_textual_of_holder hname
  | inside hopen _ => exact fun ht => hopen ⟨he, ht⟩

theorem Edit.name_eq (h : Edit ns closed R e e') : e'.name = e.name := by
  obtain ⟨children, rfl⟩ := h.exists_children
  rfl

theorem AlikeAll.rule (h : AlikeAll lax ns (childrenIn ns e) (childrenIn ns { e with children })) :
    Follows lax (rule ns e) (rule ns { e with children }) := by
  rw [rule_eq, rule_eq]
  exact Follows.bind (.refl _) fun r => h _ _ .rule r

theorem AlikeAll.pattern (h : AlikeAll lax ns (childrenIn ns e) (childrenIn ns { e with children })) :
    Follows lax (pattern ns e) (pattern ns { e with children }) :=
  Follows.bind (h _ _ .pattern _) fun _ => .refl _

theorem AlikeAll.phase (h : AlikeAll lax ns (childrenIn ns e) (childrenIn ns { e with children })) :
    Follows lax (phase ns e) (phase ns { e with children }) :=
  Follows.bind (.refl _) fun _ => h _ _ .phase _

theorem AlikeAll.schema (h : AlikeAll lax ns (childrenIn ns e) (childrenIn ns { e with children })) :
    Follows lax (schema ns e) (schema ns { e with children }) :=
  h _ _ .schema _

/-- Of an element that is not read as text the readers see its attributes and the elements below it. -/
theorem AlikeAll.alike (h : AlikeAll lax ns (childrenIn ns e) (childrenIn ns { e with children }))
    (hname : e.name.localPart ∉ textual) : Alike lax ns e { e with children } := by
  intro σ f hf s
  cases hf with
  | rule =>
    unfold rulePart
    dsimp only
    split
    · exact .refl _
    · exact .refl _
    · simp_all [textual]
    · simp_all [textual]
    · exact .refl _
  | pattern =>
    unfold patternPart
    dsimp only
    split
    · simp_all [textual]
    · exact .refl _
    · exact .refl _
    · exact h.rule.bind fun _ => .refl _
    · exact .refl _
  | phase =>
    unfold phasePart
    dsimp only
    split
    · exact .refl _
    · exact .refl _
    · exact .refl _
  | diagnostics =>
    unfold diagnostic
    dsimp only
    split
    · simp_all [textual]
    · exact .refl _
  | schema =>
    unfold schemaPart
    dsimp only
    split
    · simp_all [textual]
    · exact .refl _
    · exact .refl _
    · exact h.phase.bind fun _ => .refl _
    · exact h.pattern.bind fun _ => .refl _
    · exact (h _ _ .diagnostics _).bind fun _ => .refl _
    · exact .refl _

theorem Alike.alikeAll {c c' : Element Item} (h : Alike lax ns c c') (before after : List (Element Item)) :
    AlikeAll lax ns (before ++ c :: after) (before ++ c' :: after) := by
  intro σ f hf s
  simp only [List.foldlM_append, List.foldlM_cons]
  refine Follows.bind (.refl _) fun t => ?_
  exact (h σ f hf t).bind fun _ => .refl _

/-- The child elements of the namespace, one of the children being an element. -/
theorem childrenIn_append_cons (before after : List Item) (c : Element Item) :
    childrenIn ns { e with children := before ++ .element c :: after } =
      childrenIn ns { e with children := before } ++
        (if c.name.uri = some ns then [c] else []) ++ childrenIn ns { e with children := after } := by
  unfold childrenIn
  rw [List.filterMap_append, List.filterMap_cons]
  by_cases hns : c.name.uri = some ns
  · simp [hns]
  · simp [hns]

/-- What an edit changes is not seen from above, where it is not seen right below the holder. -/
theorem Edit.alikeAll (hR : ∀ es es', R es es' → AlikeAll lax ns es es') (h : Edit ns textual R e e') :
    AlikeAll lax ns (childrenIn ns e) (childrenIn ns e') := by
  induction h with
  | here hname hchildren => exact hR _ _ hchildren
  | @inside e c c' before after hopen hc ih =>
    obtain ⟨children, rfl⟩ := hc.exists_children
    rw [childrenIn_append_cons, childrenIn_append_cons]
    by_cases hns : c.name.uri = some ns
    · simp only [hns, if_true, List.append_assoc, List.singleton_append]
      exact (ih.alike (hc.not_textual hns)).alikeAll _ _
    · simp only [hns, if_false]
      exact fun _ _ _ _ => .refl _

theorem Edit.schema (hR : ∀ es es', R es es' → AlikeAll lax ns es es') (h : Edit ns textual R e e') :
    Follows lax (schema ns e) (schema ns e') := by
  have hall := h.alikeAll hR
  obtain ⟨children, rfl⟩ := h.exists_children
  exact hall.schema

theorem follows_of_edits (hR : ∀ es es', R es es' → AlikeAll lax ns es es')
    (h : Relation.ReflTransGen (Edit ns textual R) e e') :
    e'.name = e.name ∧ Follows lax (Reader.schema ns e) (Reader.schema ns e') := by
  induction h with
  | refl => exact ⟨rfl, .refl _⟩
  | tail _ hstep ih => exact ⟨hstep.name_eq.trans ih.1, ih.2.trans (hstep.schema hR)⟩

theorem Edited.ofDocument {d d' : Xml.Document} (hR : ∀ ns es es', R es es' → AlikeAll lax ns es es')
    (h : Edited textual R d d') : Follows lax (ofDocument d) (ofDocument d') := by
  obtain ⟨e, e', he, he', hedits⟩ := h
  obtain ⟨hname, hschema⟩ := follows_of_edits (hR _) hedits
  unfold Reader.ofDocument
  simp only [he, he', hname]
  split
  · split
    · exact hschema
    · exact .refl _
  · exact .refl _

end Edits

section Kinds

variable {ns : String} {es es' : List (Element Item)}

/-- The elements of given names, in their order. -/
def among (names : List String) (es : List (Element Item)) : List (Element Item) :=
  es.filter fun e => names.contains e.name.localPart

theorem among_cons (names : List String) (e : Element Item) (es : List (Element Item)) :
    among names (e :: es) =
      if names.contains e.name.localPart then e :: among names es else among names es :=
  List.filter_cons

/-- An assert or a report, each by its name. -/
def check (ns : String) (e : Element Item) : Result Assertion :=
  assertion ns e (if e.name.localPart = "assert" then .assert else .report)

def namespaceIn (e : Element Item) : Result Namespace :=
  return ⟨← required e "prefix", ← required e "uri"⟩

def parameter (e : Element Item) : Result (String × String) :=
  return (← required e "name", ← required e "value")

theorem foldlM_rulePart_eq_ok_iff {r r' : Rule} :
    es.foldlM (rulePart ns) r = .ok r' ↔ ∃ lets bases assertions,
      (among ["let"] es).mapM letBinding = .ok lets ∧
      (among ["extends"] es).mapM (required · "rule") = .ok bases ∧
      (among ["assert", "report"] es).mapM (check ns) = .ok assertions ∧
      r' = { r with
        lets := r.lets ++ lets, bases := r.bases ++ bases, assertions := r.assertions ++ assertions } := by
  induction es generalizing r with
  | nil => simp [among, pure, Except.pure, eq_comm]
  | cons e es ih =>
    rw [List.foldlM_cons, bind_eq_ok_iff]
    simp only [ih, among_cons]
    -- The first element adds one value to what its kind gives.
    unfold rulePart
    split
    next hname =>
      simp [hname, List.mapM_cons, bind_eq_ok_iff, pure, Except.pure]
    next hname =>
      simp [hname, List.mapM_cons, bind_eq_ok_iff, pure, Except.pure]
      grind
    next hname =>
      simp [hname, List.mapM_cons, bind_eq_ok_iff, pure, Except.pure, check]
      grind
    next hname =>
      simp [hname, List.mapM_cons, bind_eq_ok_iff, pure, Except.pure, check]
      grind
    · simp_all

theorem foldlM_phasePart_eq_ok_iff {p p' : Phase} :
    es.foldlM phasePart p = .ok p' ↔ ∃ active lets,
      (among ["active"] es).mapM (required · "pattern") = .ok active ∧
      (among ["let"] es).mapM letBinding = .ok lets ∧
      p' = { p with active := p.active ++ active, lets := p.lets ++ lets } := by
  induction es generalizing p with
  | nil => simp [among, pure, Except.pure, eq_comm]
  | cons e es ih =>
    rw [List.foldlM_cons, bind_eq_ok_iff]
    simp only [ih, among_cons]
    unfold phasePart
    split
    next hname =>
      simp [hname, List.mapM_cons, bind_eq_ok_iff, pure, Except.pure]
    next hname =>
      simp [hname, List.mapM_cons, bind_eq_ok_iff, pure, Except.pure]
      grind
    · simp_all

theorem foldlM_patternPart_eq_ok_iff {p p' : Pattern} :
    es.foldlM (patternPart ns) p = .ok p' ↔ ∃ parameters lets rules,
      (among ["param"] es).mapM parameter = .ok parameters ∧
      (among ["let"] es).mapM letBinding = .ok lets ∧
      (among ["rule"] es).mapM (rule ns) = .ok rules ∧
      p' = { p with
        title := (among ["title"] es).foldl (fun _ e => some (titleText e)) p.title
        parameters := parameters.foldl (fun table entry => table.insert entry.1 entry.2) p.parameters
        lets := p.lets ++ lets
        rules := p.rules ++ rules } := by
  induction es generalizing p with
  | nil => simp [among, pure, Except.pure, eq_comm]
  | cons e es ih =>
    rw [List.foldlM_cons, bind_eq_ok_iff]
    simp only [ih, among_cons]
    unfold patternPart
    split
    next hname =>
      simp [hname, pure, Except.pure]
    next hname =>
      simp [hname, List.mapM_cons, bind_eq_ok_iff, pure, Except.pure, parameter]
      grind
    next hname =>
      simp [hname, List.mapM_cons, bind_eq_ok_iff, pure, Except.pure]
      grind
    next hname =>
      simp [hname, List.mapM_cons, bind_eq_ok_iff, pure, Except.pure]
      grind
    · simp_all

theorem foldlM_schemaPart_eq_ok_iff {d d' : Document} :
    es.foldlM (schemaPart ns) d = .ok d' ↔ ∃ namespaces lets phases patterns diagnostics,
      (among ["ns"] es).mapM namespaceIn = .ok namespaces ∧
      (among ["let"] es).mapM letBinding = .ok lets ∧
      (among ["phase"] es).mapM (phase ns) = .ok phases ∧
      (among ["pattern"] es).mapM (pattern ns) = .ok patterns ∧
      (among ["diagnostics"] es).foldlM (fun found e => (childrenIn ns e).foldlM (diagnostic ns) found)
        d.diagnostics = .ok diagnostics ∧
      d' = { d with
        title := (among ["title"] es).foldl (fun _ e => some (titleText e)) d.title
        namespaces := d.namespaces ++ namespaces
        lets := d.lets ++ lets
        phases := phases.foldl (fun table p => table.insert p.id p) d.phases
        patterns := d.patterns ++ patterns
        diagnostics } := by
  induction es generalizing d with
  | nil => simp [among, pure, Except.pure, eq_comm]
  | cons e es ih =>
    rw [List.foldlM_cons, bind_eq_ok_iff]
    simp only [ih, among_cons]
    unfold schemaPart
    split
    next hname =>
      simp [hname, pure, Except.pure]
    next hname =>
      simp [hname, List.mapM_cons, bind_eq_ok_iff, pure, Except.pure, namespaceIn]
      grind
    next hname =>
      simp [hname, List.mapM_cons, bind_eq_ok_iff, pure, Except.pure]
      grind
    next hname =>
      simp [hname, List.mapM_cons, bind_eq_ok_iff, pure, Except.pure]
      grind
    next hname =>
      simp [hname, List.mapM_cons, bind_eq_ok_iff, pure, Except.pure]
      grind
    next hname =>
      simp [hname, bind_eq_ok_iff, pure, Except.pure]
      grind
    · simp_all

theorem kindOrId?_eq_plain {name : String} (hname : name ∈ plainKinds) (e : Element Item) :
    kindOrId? e = some (name, none) ↔ e.name.localPart = name := by
  have hassert : name ≠ "assert" ∧ name ≠ "report" ∧ name ≠ "diagnostic" := by
    revert name
    decide
  unfold kindOrId? kind?
  split_ifs <;> grind

theorem kindOrId?_eq_check (e : Element Item) :
    kindOrId? e = some ("assert", none) ↔ e.name.localPart ∈ ["assert", "report"] := by
  unfold kindOrId? kind? plainKinds
  split_ifs <;> grind

theorem SameByKind.filter_eq {κ : Type} [DecidableEq κ] {kind : Element Item → Option κ}
    (h : SameByKind kind es es') {names : List String} {k : κ}
    (hk : ∀ e, kind e = some k ↔ e.name.localPart ∈ names) : among names es = among names es' := by
  have hfilter (l : List (Element Item)) : among names l = l.filter (kind · = some k) :=
    List.filter_congr fun e _ => by simp [hk]
  rw [hfilter, hfilter, h]

theorem SameByKind.among_plain (h : SameByKind kindOrId? es es') (name : String) (hname : name ∈ plainKinds) :
    among [name] es = among [name] es' := by
  have hkind (e : Element Item) : kindOrId? e = some (name, none) ↔ e.name.localPart ∈ [name] := by
    rw [kindOrId?_eq_plain hname, List.mem_singleton]
  exact h.filter_eq hkind

theorem SameByKind.among_check (h : SameByKind kindOrId? es es') :
    among ["assert", "report"] es = among ["assert", "report"] es' :=
  h.filter_eq kindOrId?_eq_check

theorem required_eq_ok_iff {e : Element Item} {name value : String} :
    required e name = .ok value ↔ attribute? e name = some value := by
  unfold required malformed
  cases attribute? e name <;> simp

theorem diagnostic_eq_ok_iff {e : Element Item} (he : e.name.localPart = "diagnostic")
    {table table' : Table Message} :
    diagnostic ns table e = .ok table' ↔
      ∃ id, attribute? e "id" = some id ∧ table.insert id (message ns e) = table' := by
  rw [diagnostic, if_pos he, bind_eq_ok_iff]
  simp [required_eq_ok_iff, pure, Except.pure]

theorem diagnostic_other {e : Element Item} (he : e.name.localPart ≠ "diagnostic") (table : Table Message) :
    diagnostic ns table e = .ok table :=
  if_neg he

/-- Entries of different ids may change places, and no other element makes an entry. -/
theorem diagnostic_swap {a b : Element Item} (h : kindOrId? a ≠ kindOrId? b) {table table' : Table Message}
    (hab : (diagnostic ns table a >>= (diagnostic ns · b)) = .ok table') :
    (diagnostic ns table b >>= (diagnostic ns · a)) = .ok table' := by
  obtain ⟨between, ha, hb⟩ := bind_eq_ok_iff.mp hab
  apply bind_eq_ok_iff.mpr
  by_cases haname : a.name.localPart = "diagnostic"
  · by_cases hbname : b.name.localPart = "diagnostic"
    · obtain ⟨i, hi, rfl⟩ := (diagnostic_eq_ok_iff haname).mp ha
      obtain ⟨j, hj, rfl⟩ := (diagnostic_eq_ok_iff hbname).mp hb
      have hne : i ≠ j := by
        rintro rfl
        simp [kindOrId?, haname, hbname, hi, hj] at h
      refine ⟨table.insert j (message ns b), (diagnostic_eq_ok_iff hbname).mpr ⟨j, hj, rfl⟩, ?_⟩
      exact (diagnostic_eq_ok_iff haname).mpr ⟨i, hi, (Table.insert_comm hne _ _ _).symm⟩
    · rw [diagnostic_other hbname] at hb
      cases hb
      exact ⟨table, diagnostic_other hbname table, ha⟩
  · rw [diagnostic_other haname] at ha
    cases ha
    exact ⟨table', hb, diagnostic_other haname table'⟩

theorem SameByKind.foldlM_diagnostic (h : SameByKind kindOrId? es es') {table table' : Table Message}
    (hes : es.foldlM (diagnostic ns) table = .ok table') : es'.foldlM (diagnostic ns) table = .ok table' := by
  refine foldlM_eq_ok_of_kinds (fun e he => diagnostic_other ?_) (fun a b hab _ _ => diagnostic_swap hab) h hes
  intro hname
  simp [kindOrId?, hname] at he

theorem SameByKind.alikeAll (h : SameByKind kindOrId? es es') : AlikeAll True ns es es' := by
  intro σ f hf s
  refine follows_of_ok fun t ht => ?_
  cases hf with
  | rule =>
    rw [foldlM_rulePart_eq_ok_iff] at ht ⊢
    simpa only [h.among_plain "let" (by decide), h.among_plain "extends" (by decide), h.among_check] using ht
  | pattern =>
    rw [foldlM_patternPart_eq_ok_iff] at ht ⊢
    simpa only [h.among_plain "title" (by decide), h.among_plain "param" (by decide),
      h.among_plain "let" (by decide), h.among_plain "rule" (by decide)] using ht
  | phase =>
    rw [foldlM_phasePart_eq_ok_iff] at ht ⊢
    simpa only [h.among_plain "active" (by decide), h.among_plain "let" (by decide)] using ht
  | diagnostics => exact h.foldlM_diagnostic ht
  | schema =>
    rw [foldlM_schemaPart_eq_ok_iff] at ht ⊢
    simpa only [h.among_plain "title" (by decide), h.among_plain "ns" (by decide),
      h.among_plain "let" (by decide), h.among_plain "phase" (by decide), h.among_plain "pattern" (by decide),
      h.among_plain "diagnostics" (by decide)] using ht

end Kinds

/-- Comments, instructions, text and elements of other namespaces may be put in or taken out. -/
theorem childrenIn_insert {ns : String} {i : Item} (hi : ∀ c, i = .element c → c.name.uri ≠ some ns)
    (e : Element Item) (before after : List Item) :
    childrenIn ns { e with children := before ++ i :: after } =
      childrenIn ns { e with children := before ++ after } := by
  unfold childrenIn
  rw [List.filterMap_append, List.filterMap_append, List.filterMap_cons]
  cases i with
  | element c => simp [hi c rfl]
  | text _ | comment _ | instruction _ _ => rfl

/-- Neighbours that are not of one kind change places. -/
theorem sameByKind_swap {κ : Type} [DecidableEq κ] {kind : Element Item → Option κ} {a b : Element Item}
    (h : kind a = none ∨ kind a ≠ kind b) (before after : List (Element Item)) :
    SameByKind kind (before ++ a :: b :: after) (before ++ b :: a :: after) := by
  intro k
  rw [List.filter_append, List.filter_append]
  congr 1
  by_cases ha : kind a = some k
  · have hb : kind b ≠ some k := by
      intro hb
      simp [ha, hb] at h
    simp [ha, hb]
  · simp [ha, List.filter_cons]

/-- An element in the namespace of the standard. -/
def tagged (name : String) (attributes : List (String × String)) (children : List Item) : Element Item :=
  ⟨⟨some isoNamespace, name⟩, none, [], attributes.map fun (n, v) => ⟨⟨none, n⟩, none, v⟩, children⟩

/-- A schema with one element in it. -/
def single (e : Element Item) : Xml.Document := ⟨[.element (tagged "schema" [] [.element e])]⟩

def schemaText (content : String) : String :=
  "<schema xmlns='http://purl.oclc.org/dsdl/schematron'>" ++ content ++ "</schema>"

theorem edited_single {closed : List String} {R : List (Element Item) → List (Element Item) → Prop}
    {e e' : Element Item} (hclosed : "schema" ∉ closed) (h : Edit isoNamespace closed R e e') :
    Edited closed R (single e) (single e') :=
  ⟨_, _, rfl, rfl, .single (@Edit.inside _ _ _ (tagged "schema" [] []) e e' [] [] (fun hs => hclosed hs.2) h)⟩

end Schematron.Schema.Reader

namespace Schematron.Schema

open Schematron.Schema.Reader

theorem parse_eq {text : String} {d : Xml.Document} (h : Xml.Expanding.parse text = some d) :
    parse text = ofDocument d := by
  simp only [parse, h]

/-- A schema is the same whatever else stands below its holders, comments, instructions, text and elements of
other namespaces, and a schema that is read is the same in any order of its parts that keeps the order
within each kind. -/
theorem parse_of_edited {text text' : String} {d d' : Xml.Document} (h : Xml.Expanding.parse text = some d)
    (h' : Xml.Expanding.parse text' = some d') :
    (Edited textual (· = ·) d d' → parse text' = parse text) ∧
    (Edited textual (SameByKind kindOrId?) d d' → ∀ s, parse text = .ok s → parse text' = .ok s) := by
  rw [parse_eq h, parse_eq h']
  refine ⟨fun hedited => ?_, fun hedited s hs => ?_⟩
  · apply follows_false_iff.mp
    refine hedited.ofDocument fun ns es es' hes => ?_
    rw [hes]
    exact fun _ _ _ _ => .refl _
  · exact (hedited.ofDocument fun _ _ _ hes => hes.alikeAll).eq_ok hs

/-- A comment and an element of another namespace are put into a pattern, and its title is put first. -/
theorem parse_of_edited_pattern :
    parse (schemaText "<pattern><let name='n' value='1'/><!--c--><x xmlns='u'/><title>t</title></pattern>") =
      parse (schemaText "<pattern><let name='n' value='1'/><title>t</title></pattern>") ∧
    parse (schemaText "<pattern><title>t</title><let name='n' value='1'/></pattern>") =
      .ok { Document.empty with patterns := [⟨none, some "t", false, none, [], [⟨"n", "1"⟩], []⟩] } := by
  let l : Xml.Item := .element (tagged "let" [("name", "n"), ("value", "1")] [])
  let t : Xml.Item := .element (tagged "title" [] [.text "t"])
  let x : Xml.Item := .element ⟨⟨some "u", "x"⟩, none, [], [], []⟩
  have htext : Xml.Expanding.parse (schemaText "<pattern><let name='n' value='1'/><title>t</title></pattern>")
      = some (single (tagged "pattern" [] [l, t])) := by decide +kernel
  have hfilled : Xml.Expanding.parse
      (schemaText "<pattern><let name='n' value='1'/><!--c--><x xmlns='u'/><title>t</title></pattern>")
      = some (single (tagged "pattern" [] [l, .comment "c", x, t])) := by decide +kernel
  have hturned : Xml.Expanding.parse
      (schemaText "<pattern><title>t</title><let name='n' value='1'/></pattern>")
      = some (single (tagged "pattern" [] [t, l])) := by decide +kernel
  refine ⟨(parse_of_edited htext hfilled).1 ?_, (parse_of_edited htext hturned).2 ?_ _ ?_⟩
  · refine edited_single (by decide) (.here (by decide) ?_)
    rfl
  · refine edited_single (by decide) (.here (by decide) ?_)
    exact sameByKind_swap (by decide) [] []
  · rw [parse_eq htext]
    decide +kernel

/-- Diagnostics of one id may not change places, and a title has the text of all elements in it, also of those
in a rule there. -/
theorem parse_ne_of_edited :
    (∃ text text' d d' s s', Xml.Expanding.parse text = some d ∧ Xml.Expanding.parse text' = some d' ∧
      Edited [] (fun es es' => es.Perm es' ∧ SameByKind kind? es es') d d' ∧
      parse text = .ok s ∧ parse text' = .ok s' ∧ s' ≠ s) ∧
    ∃ text text' d d', Xml.Expanding.parse text = some d ∧ Xml.Expanding.parse text' = some d' ∧
      Edited [] (· = ·) d d' ∧ parse text' ≠ parse text := by
  constructor
  · let a := tagged "diagnostic" [("id", "d")] [.text "a"]
    let b := tagged "diagnostic" [("id", "d")] [.text "b"]
    have hab : Xml.Expanding.parse (schemaText
        "<diagnostics><diagnostic id='d'>a</diagnostic><diagnostic id='d'>b</diagnostic></diagnostics>")
        = some (single (tagged "diagnostics" [] [.element a, .element b])) := by decide +kernel
    have hba : Xml.Expanding.parse (schemaText
        "<diagnostics><diagnostic id='d'>b</diagnostic><diagnostic id='d'>a</diagnostic></diagnostics>")
        = some (single (tagged "diagnostics" [] [.element b, .element a])) := by decide +kernel
    have hswap : [a, b].Perm [b, a] ∧ SameByKind kind? [a, b] [b, a] :=
      ⟨.swap b a [], sameByKind_swap (by decide) [] []⟩
    refine ⟨_, _, _, _, { Document.empty with diagnostics := [("d", [.text "b"])] },
      { Document.empty with diagnostics := [("d", [.text "a"])] }, hab, hba,
      edited_single (by decide) (.here (by decide) hswap), ?_, ?_, by decide⟩
    · rw [parse_eq hab]
      decide +kernel
    · rw [parse_eq hba]
      decide +kernel
  · let rule := tagged "rule" [] [.text "a"]
    let x : Xml.Item := .element ⟨⟨some "u", "x"⟩, none, [], [], [.text "b"]⟩
    let rule' := tagged "rule" [] [.text "a", x]
    have hrule : Xml.Expanding.parse (schemaText "<title><rule>a</rule></title>")
        = some (single (tagged "title" [] [.element rule])) := by decide +kernel
    have hrule' : Xml.Expanding.parse (schemaText "<title><rule>a<x xmlns='u'>b</x></rule></title>")
        = some (single (tagged "title" [] [.element rule'])) := by decide +kernel
    have hinsert : Edit isoNamespace [] (· = ·) rule rule' :=
      .here (by decide) (childrenIn_insert (i := x) (by simp [x, isoNamespace]) rule [.text "a"] []).symm
    refine ⟨_, _, _, _, hrule, hrule', edited_single (by simp) ?_, ?_⟩
    · exact @Edit.inside _ _ _ (tagged "title" [] []) rule rule' [] [] (by simp) hinsert
    · rw [parse_eq hrule, parse_eq hrule']
      decide +kernel

end Schematron.Schema
