import Mathlib.Data.List.Induction
import Mathlib.Data.Prod.Lex
import Schematron.Proofs.Validation.Meaning

/-!
Variables are looked up by scope and index, and evaluated when they are first needed. Whatever is remembered, a
variable has the value that it stands for. The induction is on the point from which one looks: what is bound there is
seen from farther on only, so that no evaluation comes back to a binding that is marked.
-/

namespace Schematron.Validation

open Schematron.Evaluation
open Schematron.Xml

variable {α β : Type}

namespace Horizon

variable {p q h : Horizon}

theorem Before.trans (hpq : p.Before q) (hqh : q.Before h) : p.Before h := by
  unfold Before at *
  omega

theorem not_before_self (h : Horizon) : ¬h.Before h := by
  unfold Before
  omega

theorem eq_or_before_or_before (p q : Horizon) : p = q ∨ p.Before q ∨ q.Before p := by
  obtain ⟨scope, index⟩ := p
  obtain ⟨scope', index'⟩ := q
  simp only [Before, Horizon.mk.injEq]
  omega

theorem wellFounded_before : WellFounded Before := by
  have hlex : WellFounded (Prod.Lex (· < ·) (· < ·) : Nat × Nat → Nat × Nat → Prop) :=
    (Prod.lex Nat.lt_wfRel Nat.lt_wfRel).wf
  refine Subrelation.wf (fun {p q} hpq => ?_) (InvImage.wf (fun h : Horizon => (h.scope, h.index)) hlex)
  exact Prod.lex_def.mpr hpq

end Horizon

/-- The bindings of scopes, the outermost scope and the oldest binding first. -/
abbrev Environment := List (List Binding)

/-- What one sees from a point, the newest binding first. -/
def visible (env : Environment) (h : Horizon) : List Binding :=
  ((env.take h.scope).flatten ++ (env[h.scope]?.getD []).take h.index).reverse

theorem visible_mk (env : Environment) (n i : Nat) :
    visible env ⟨n, i⟩ = ((env[n]?.getD []).take i).reverse ++ (env.take n).flatten.reverse :=
  List.reverse_append

/-- From behind the last binding of a scope one sees all of the first scopes. -/
theorem visible_length {env : Environment} {n i : Nat} (hn : n < env.length) (hi : (env[n]?.getD []).length ≤ i) :
    visible env ⟨n, i⟩ = (env.take (n + 1)).flatten.reverse := by
  rw [visible, List.take_of_length_le hi, List.take_add_one, List.flatten_append, List.getElem?_eq_getElem hn]
  simp

theorem visible_of_length_le {env : Environment} {h : Horizon} (hlength : env.length ≤ h.scope) :
    visible env h = env.flatten.reverse := by
  rw [visible, List.take_of_length_le hlength, List.getElem?_eq_none hlength]
  simp

namespace Memory

variable {m m' : Memory} {p q h : Horizon} {name : String}

def environment (m : Memory) : Environment := m.scopes.map (·.map Cell.binding)

/-- The binding at a point. -/
def cell? (m : Memory) (p : Horizon) : Option Cell := (m.scopes[p.scope]?.getD [])[p.index]?

theorem getElem?_environment (m : Memory) (n : Nat) :
    m.environment[n]?.getD [] = (m.scopes[n]?.getD []).map Cell.binding := by
  rw [environment, List.getElem?_map]
  cases m.scopes[n]? <;> rfl

/-- What a look-up among bindings is to find: the first of the name, and what one sees from it. -/
def Finds (m : Memory) (name : String) (bindings : List Binding) : Option (Horizon × Cell) → Prop
  | none => ∀ x ∈ bindings, x.name ≠ name
  | some found => m.cell? found.1 = some found.2 ∧ found.2.binding.name = name ∧ ∃ newer,
      bindings = newer ++ found.2.binding :: visible m.environment found.1 ∧ ∀ x ∈ newer, x.name ≠ name

theorem Finds.append {newer older : List Binding} {found : Option (Horizon × Cell)} (h : m.Finds name older found)
    (hnewer : ∀ x ∈ newer, x.name ≠ name) : m.Finds name (newer ++ older) found := by
  cases found with
  | none => exact List.forall_mem_append.mpr ⟨hnewer, h⟩
  | some found =>
    obtain ⟨hcell, hname, between, rfl, hbetween⟩ := h
    exact ⟨hcell, hname, newer ++ between, (List.append_assoc ..).symm, List.forall_mem_append.mpr ⟨hnewer, hbetween⟩⟩

theorem latest?_concat (name : String) (scope : List Cell) (cell : Cell) :
    latest? name (scope ++ [cell])
      = if cell.binding.name = name then some (cell, scope.length) else latest? name scope := by
  simp only [latest?, List.zipIdx_append, List.zipIdx_singleton, List.reverse_append, List.reverse_singleton,
    List.singleton_append, List.find?_cons, Nat.zero_add]
  by_cases hname : cell.binding.name = name <;> simp [hname]

theorem not_name_of_latest? {scope : List Cell} (h : latest? name scope = none) :
    ∀ x ∈ scope.map Cell.binding, x.name ≠ name := by
  induction scope using List.reverseRecOn with
  | nil => exact nofun
  | append_singleton scope cell ih =>
    rw [latest?_concat] at h
    split at h
    · cases h
    · rename_i hname
      rw [List.map_append]
      exact List.forall_mem_append.mpr ⟨ih h, by simpa using hname⟩

/-- The bindings behind the last one of a name have other names. -/
theorem append_of_latest? {scope : List Cell} {found : Cell × Nat} (h : latest? name scope = some found) :
    found.1.binding.name = name ∧ ∃ later,
      scope = scope.take found.2 ++ found.1 :: later ∧ ∀ x ∈ later.map Cell.binding, x.name ≠ name := by
  induction scope using List.reverseRecOn with
  | nil => cases h
  | append_singleton scope cell ih =>
    rw [latest?_concat] at h
    split at h
    · rename_i hname
      cases h
      exact ⟨hname, [], by rw [List.take_left], by simp⟩
    · rename_i hname
      obtain ⟨hfound, later, hscope, hlater⟩ := ih h
      have hlt := lt_of_latest? h
      refine ⟨hfound, later ++ [cell], ?_, ?_⟩
      · rw [List.take_append_of_le_length (Nat.le_of_lt hlt)]
        calc
          scope ++ [cell] = scope.take found.2 ++ found.1 :: later ++ [cell] := by rw [← hscope]
          _ = scope.take found.2 ++ found.1 :: (later ++ [cell]) := List.append_assoc ..
      · rw [List.map_append]
        exact List.forall_mem_append.mpr ⟨hlater, by simpa using hname⟩

/-- A look-up in a scope, and then in those around it, finds the newest binding. -/
theorem Finds.scope {n : Nat} {below : Option (Horizon × Cell)}
    (hbelow : m.Finds name (m.environment.take n).flatten.reverse below) (i : Nat) :
    m.Finds name (visible m.environment ⟨n, i⟩)
      (match latest? name ((m.scopes[n]?.getD []).take i) with
        | some (cell, index) => some (⟨n, index⟩, cell)
        | none => below) := by
  rw [visible_mk, getElem?_environment, ← List.map_take]
  cases hlatest : latest? name ((m.scopes[n]?.getD []).take i) with
  | none => exact hbelow.append fun x hx => not_name_of_latest? hlatest x (List.mem_reverse.mp hx)
  | some found =>
    obtain ⟨cell, index⟩ := found
    obtain ⟨hname, later, hscope, hlater⟩ := append_of_latest? hlatest
    have hindex : index < i :=
      Nat.lt_of_lt_of_le (lt_of_latest? hlatest) (List.length_take_le ..)
    have hcell := getElem?_of_latest? hlatest
    rw [List.take_take, Nat.min_eq_left (Nat.le_of_lt hindex)] at hscope
    rw [List.getElem?_take_of_lt hindex] at hcell
    refine ⟨hcell, hname, (later.map Cell.binding).reverse, ?_, fun x hx => hlater x (List.mem_reverse.mp hx)⟩
    rw [visible_mk, getElem?_environment, ← List.map_take, hscope]
    simp

/-- A look-up in the first scopes finds the newest binding that one sees there. -/
theorem finds_findBelow (m : Memory) (name : String) {h : Horizon} {n : Nat} (hn : n < m.scopes.length)
    (hh : n ≤ h.scope) :
    m.Finds name
      (visible m.environment ⟨n, if n = h.scope then h.index else (m.scopes[n]?.getD []).length⟩)
      (findBelow m.scopes name h (n + 1)) := by
  have hlimit (scope : List Cell) :
      scope.take (if n = h.scope then min h.index scope.length else scope.length)
        = scope.take (if n = h.scope then h.index else scope.length) := by
    split
    · exact List.take_eq_take_min.symm
    · rfl
  rw [findBelow, hlimit]
  refine Finds.scope ?_ _
  cases n with
  | zero => exact nofun
  | succ n =>
    have hlt : n < m.scopes.length := Nat.lt_of_succ_lt hn
    have hbelow := finds_findBelow m name hlt (Nat.le_of_succ_le hh)
    have hlength : (m.environment[n]?.getD []).length ≤ (m.scopes[n]?.getD []).length := by
      rw [getElem?_environment, List.length_map]
    rw [if_neg (Nat.ne_of_lt hh), visible_length (by rwa [environment, List.length_map]) hlength] at hbelow
    exact hbelow

/-- A look-up finds the newest binding that one sees. -/
theorem finds_find? (m : Memory) (name : String) (h : Horizon) :
    m.Finds name (visible m.environment h) (find? m.scopes name h) := by
  unfold find?
  split
  · rename_i hempty
    have hscopes : m.scopes = [] := List.isEmpty_iff.mp hempty
    simp [Finds, visible, environment, hscopes]
  · rename_i hempty
    have hlength : 0 < m.scopes.length := List.length_pos_iff.mpr (mt List.isEmpty_iff.mpr hempty)
    by_cases hscope : h.scope < m.scopes.length
    · have hfinds := finds_findBelow m name hscope (Nat.le_refl _)
      rw [if_pos rfl] at hfinds
      rwa [Nat.min_eq_left (Nat.le_sub_one_of_lt hscope)]
    · have hlast : m.scopes.length - 1 < m.scopes.length := Nat.sub_one_lt_of_lt hlength
      have hfinds := finds_findBelow m name (h := h) hlast (by omega)
      have hall : m.environment.length = m.scopes.length := List.length_map _
      have hscopes : m.scopes.length - 1 + 1 = m.scopes.length := Nat.sub_add_cancel hlength
      rw [if_neg (by omega), visible_length (by omega) (by rw [getElem?_environment, List.length_map]), hscopes,
        List.take_of_length_le (Nat.le_of_eq hall)] at hfinds
      rwa [visible_of_length_le (by omega), Nat.min_eq_right (by omega), hscopes]

theorem getElem?_setState (m : Memory) (p : Horizon) (st : State) (n : Nat) :
    (m.setState p st).scopes[n]?.getD []
      = if p.scope = n then (m.scopes[n]?.getD []).modify p.index fun cell => { cell with state := st }
        else m.scopes[n]?.getD [] := by
  rw [setState, List.getElem?_modify]
  cases m.scopes[n]? with
  | none => simp
  | some scope => by_cases hn : p.scope = n <;> simp [hn]

theorem environment_setState (m : Memory) (p : Horizon) (st : State) :
    (m.setState p st).environment = m.environment := by
  have hbinding (scope : List Cell) :
      (scope.modify p.index fun cell => { cell with state := st }).map Cell.binding = scope.map Cell.binding := by
    refine List.ext_getElem? fun i => ?_
    rw [List.getElem?_map, List.getElem?_map, List.getElem?_modify]
    cases scope[i]? with
    | none => rfl
    | some cell => by_cases hi : p.index = i <;> simp [hi]
  refine List.ext_getElem? fun n => ?_
  rw [environment, environment, setState, List.getElem?_map, List.getElem?_map, List.getElem?_modify]
  cases m.scopes[n]? with
  | none => rfl
  | some scope => by_cases hn : p.scope = n <;> simp [hn, hbinding]

theorem cell?_setState_self {cell : Cell} (h : m.cell? p = some cell) (st : State) :
    (m.setState p st).cell? p = some { cell with state := st } := by
  rw [cell?] at h ⊢
  rw [getElem?_setState, if_pos rfl, List.getElem?_modify, h]
  simp

theorem cell?_setState_ne (hne : q ≠ p) (m : Memory) (st : State) : (m.setState p st).cell? q = m.cell? q := by
  rw [cell?, getElem?_setState]
  split
  · rename_i hscope
    have hindex : p.index ≠ q.index := by
      intro hindex
      obtain ⟨scope, index⟩ := p
      cases hscope
      cases hindex
      exact hne rfl
    rw [List.getElem?_modify, cell?]
    simp [hindex]
  · rfl

end Memory

theorem denote_append {b : Basis} {newer older : List Binding} {name : String} (h : ∀ x ∈ newer, x.name ≠ name) :
    denote b (newer ++ older) name = denote b older name := by
  induction newer with
  | nil => rfl
  | cons x newer ih =>
    rw [List.forall_mem_cons] at h
    rw [List.cons_append, denote, if_neg h.1, ih h.2]

/-- A variable that is found stands for what its query does where it was bound. -/
theorem denote_of_finds {b : Basis} {m : Memory} {name : String} {bindings : List Binding} {p : Horizon} {cell : Cell}
    (h : m.Finds name bindings (some (p, cell))) :
    denote b bindings name
      = meaning b (denote b (visible m.environment p)) cell.binding.query cell.binding.node := by
  obtain ⟨-, hname, newer, rfl, hnewer⟩ := h
  rw [denote_append hnewer, denote, if_pos hname]

theorem denote_of_finds_none {b : Basis} {m : Memory} {name : String} {bindings : List Binding}
    (h : m.Finds name bindings none) : denote b bindings name = .error (.unknownVariable name) := by
  rw [← List.append_nil bindings, denote_append h]
  rfl

/-- Nothing is different at a point and farther on, and the bindings are the same. -/
structure Memory.SameFrom (h : Horizon) (m m' : Memory) : Prop where
  environment : m'.environment = m.environment
  cells : ∀ p, ¬p.Before h → m'.cell? p = m.cell? p

/-- Whatever is done concerns only what one sees from the point. -/
def Stays (h : Horizon) (f : Memory → Result α) : Prop := ∀ m : Memory, m.SameFrom h (f m).2

/-- One after the other, on the memory that the first leaves. -/
def andThen (f : Memory → Result α) (g : α → Memory → Result β) (m : Memory) : Result β :=
  match f m with
  | (.error e, m) => (.error e, m)
  | (.ok a, m) => g a m

theorem valuesOf_cons (find : String → Memory → Result Value) (name : String) (names : List String) :
    valuesOf find (name :: names) = andThen (find name) fun v =>
      andThen (valuesOf find names) fun vs m => (.ok ((name, v) :: vs), m) := by
  funext m
  unfold andThen
  rcases hv : find name m with ⟨_ | v, after⟩
  · simp only [valuesOf, hv]
  · rcases hvs : valuesOf find names after with ⟨_ | vs, _⟩ <;> simp only [valuesOf, hv, hvs]

theorem queryValue_eq (b : Basis) (find : String → Memory → Result Value) (q : Query.Compiled)
    (node : Node) :
    queryValue b find q node = andThen (valuesOf find q.variableNames) fun bindings =>
      andThen (·.read q.text) fun e m => (evaluateExpr b q e node bindings, m) := by
  funext m
  unfold andThen
  rcases hvs : valuesOf find q.variableNames m with ⟨_ | bindings, after⟩
  · simp only [queryValue, hvs]
  · rcases he : after.read q.text with ⟨_ | e, _⟩ <;> simp only [queryValue, hvs, he]

section

variable {b : Basis} {h p : Horizon} {name : String} {m : Memory} {x : Binding}

theorem Memory.SameFrom.refl (h : Horizon) (m : Memory) : m.SameFrom h m := ⟨rfl, fun _ _ => rfl⟩

theorem Memory.SameFrom.trans {m' m'' : Memory} (hm : m.SameFrom h m') (hm' : m'.SameFrom h m'') :
    m.SameFrom h m'' :=
  ⟨hm'.environment.trans hm.environment, fun p hp => (hm'.cells p hp).trans (hm.cells p hp)⟩

theorem Memory.SameFrom.of_before {m' : Memory} (hm : m.SameFrom p m') (hp : p.Before h) : m.SameFrom h m' :=
  ⟨hm.environment, fun q hq => hm.cells q fun hqp => hq (hqp.trans hp)⟩

theorem Memory.sameFrom_setState (hp : p.Before h) (m : Memory) (st : State) : m.SameFrom h (m.setState p st) := by
  refine ⟨environment_setState m p st, fun q hq => cell?_setState_ne ?_ m st⟩
  rintro rfl
  exact hq hp

theorem stays_const (r : Except EvaluationError α) : Stays h fun m => (r, m) := fun m => .refl h m

theorem Stays.andThen {f : Memory → Result α} {g : α → Memory → Result β} (hf : Stays h f) (hg : ∀ a, Stays h (g a)) :
    Stays h (Validation.andThen f g) := by
  intro m
  have hm := hf m
  unfold Validation.andThen
  rcases hfm : f m with ⟨e | a, after⟩
  · rwa [hfm] at hm
  · rw [hfm] at hm
    exact hm.trans (hg a after)

theorem stays_read (text : String) : Stays h (·.read text) := by
  intro m
  show m.SameFrom h (m.read text).2
  unfold Memory.read
  split
  · exact .refl h m
  · split
    · exact ⟨rfl, fun _ _ => rfl⟩
    · exact .refl h m

theorem stays_queryValue {find : String → Memory → Result Value} (hfind : ∀ name, Stays h (find name))
    (b : Basis) (q : Query.Compiled) (node : Node) : Stays h (queryValue b find q node) := by
  have hvalues (names : List String) : Stays h (valuesOf find names) := by
    induction names with
    | nil => exact stays_const (.ok [])
    | cons name names ih =>
      rw [valuesOf_cons]
      exact (hfind name).andThen fun v => ih.andThen fun vs => stays_const _
  rw [queryValue_eq]
  exact (hvalues q.variableNames).andThen fun bindings => (stays_read q.text).andThen fun e => stays_const _

theorem variableAt_of_find?_none (hfound : find? m.scopes name h = none) :
    variableAt b h name m = (.error (.unknownVariable name), m) := by
  rw [variableAt]
  split
  · rfl
  · rename_i heq
    rw [hfound] at heq
    cases heq

theorem variableAt_of_find?_some {st : State} (hfound : find? m.scopes name h = some (p, ⟨x, st⟩)) :
    variableAt b h name m =
      match st with
      | .ready v => (.ok v, m)
      | .evaluating => (.error (.circularVariable name), m)
      | .pending =>
        ((queryValue b (variableAt b p) x.query x.node (m.setState p .evaluating)).1,
          (queryValue b (variableAt b p) x.query x.node (m.setState p .evaluating)).2.setState p
            (.after (queryValue b (variableAt b p) x.query x.node (m.setState p .evaluating)).1)) := by
  rw [variableAt]
  split
  · rename_i heq
    rw [hfound] at heq
    cases heq
  · rename_i heq
    rw [hfound] at heq
    cases heq
    cases st <;> rfl

/-- The value of a variable concerns only what one sees. -/
theorem stays_variableAt (b : Basis) (h : Horizon) (name : String) : Stays h (variableAt b h name) := by
  induction h using Horizon.wellFounded_before.induction generalizing name with
  | _ h ih =>
    intro m
    cases hfound : find? m.scopes name h with
    | none =>
      rw [variableAt_of_find?_none hfound]
      exact .refl h m
    | some found =>
      obtain ⟨p, x, st⟩ := found
      have hp : p.Before h := find?_before hfound
      cases st with
      | ready v =>
        rw [variableAt_of_find?_some hfound]
        exact .refl h m
      | evaluating =>
        rw [variableAt_of_find?_some hfound]
        exact .refl h m
      | pending =>
        rw [variableAt_of_find?_some hfound]
        have hquery := stays_queryValue (ih p hp) b x.query x.node (m.setState p .evaluating)
        exact ((Memory.sameFrom_setState hp m .evaluating).trans (hquery.of_before hp)).trans
          (Memory.sameFrom_setState hp _ _)

/-- What is known of a binding is what it stands for, and its evaluation is not under way. -/
def State.Agrees : State → Except EvaluationError Value → Prop
  | .pending, _ => True
  | .evaluating, _ => False
  | .ready v, r => r = .ok v

/-- The state of a binding after it was evaluated agrees with what it stands for. -/
theorem State.agrees_after {r : Except EvaluationError Value} (h : ¬BreaksOff r) : (State.after r).Agrees r := by
  cases r with
  | ok v => rfl
  | error e =>
    cases e
    case brokenOff p => exact absurd ⟨p, rfl⟩ h
    all_goals trivial

/-- What a memory holds of these bindings, as far as one sees from a point, is what evaluation would find
again. -/
structure Memory.Sound (b : Basis) (env : Environment) (h : Horizon) (m : Memory) : Prop where
  environment : m.environment = env
  cells : ∀ p cell, p.Before h → m.cell? p = some cell →
    cell.state.Agrees (meaning b (denote b (visible env p)) cell.binding.query cell.binding.node)
  parsed : ∀ text e, m.parsed.lookup text = some e → XPath.Strict.parse? text = some e

/-- What is done with a memory gives `r`, and keeps the memory sound unless it breaks off. -/
def Computes (b : Basis) (env : Environment) (h : Horizon) (f : Memory → Result α) (r : Except EvaluationError α) :
    Prop :=
  ∀ m : Memory, m.Sound b env h → (f m).1 = r ∧ (¬BreaksOff r → (f m).2.Sound b env h)

variable {env : Environment}

theorem Computes.andThen {f : Memory → Result α} {r : Except EvaluationError α}
    {g : α → Memory → Result β} {k : α → Except EvaluationError β} (hf : Computes b env h f r)
    (hg : ∀ a, Computes b env h (g a) (k a)) : Computes b env h (Validation.andThen f g) (r >>= k) := by
  intro m hm
  obtain ⟨hr, hsound⟩ := hf m hm
  unfold Validation.andThen
  cases hfm : f m with
  | mk result after =>
    rw [hfm] at hr hsound
    change result = r at hr
    subst hr
    cases result with
    | error e => exact ⟨rfl, fun hbreak => hsound fun h => hbreak (breaksOff_error h)⟩
    | ok a => exact hg a after (hsound (not_breaksOff_ok a))

theorem computes_const (r : Except EvaluationError α) : Computes b env h (fun m => (r, m)) r :=
  fun _ hm => ⟨rfl, fun _ => hm⟩

theorem computes_valuesOf {find : String → Memory → Result Value}
    {den : String → Except EvaluationError Value} (hfind : ∀ name, Computes b env h (find name) (den name))
    (names : List String) : Computes b env h (valuesOf find names) (meanings den names) := by
  induction names with
  | nil => exact computes_const (.ok [])
  | cons name names ih =>
    rw [valuesOf_cons]
    refine (hfind name).andThen fun v => ih.andThen fun vs => ?_
    exact computes_const (.ok ((name, v) :: vs))

theorem computes_read (text : String) : Computes b env h (·.read text) (readText text) := by
  intro m hm
  show (m.read text).1 = readText text ∧ (_ → (m.read text).2.Sound b env h)
  cases hlookup : m.parsed.lookup text with
  | some e =>
    have hread : m.read text = (.ok e, m) := by
      simp only [Memory.read, hlookup]
    have htext : readText text = .ok e := by
      simp only [readText, hm.parsed text e hlookup]
    rw [hread, htext]
    exact ⟨rfl, fun _ => hm⟩
  | none =>
    cases hparse : XPath.Strict.parse? text with
    | none =>
      have hread : m.read text = (.error (.compile text), m) := by
        simp only [Memory.read, hlookup, hparse]
      have htext : readText text = .error (.compile text) := by
        simp only [readText, hparse]
      rw [hread, htext]
      exact ⟨rfl, fun _ => hm⟩
    | some e =>
      have hread : m.read text = (.ok e, { m with parsed := (text, e) :: m.parsed }) := by
        simp only [Memory.read, hlookup, hparse]
      have htext : readText text = .ok e := by
        simp only [readText, hparse]
      rw [hread, htext]
      refine ⟨rfl, fun _ => ⟨hm.environment, hm.cells, fun other f hother => ?_⟩⟩
      rw [List.lookup_cons] at hother
      split at hother
      · rename_i heq
        cases hother
        rw [eq_of_beq heq, hparse]
      · exact hm.parsed other f hother

theorem computes_queryValue {find : String → Memory → Result Value}
    {den : String → Except EvaluationError Value} (hfind : ∀ name, Computes b env h (find name) (den name))
    (q : Query.Compiled) (node : Node) :
    Computes b env h (queryValue b find q node) (meaning b den q node) := by
  rw [queryValue_eq]
  refine (computes_valuesOf hfind q.variableNames).andThen fun bindings => ?_
  refine (computes_read q.text).andThen fun e => ?_
  exact computes_const (evaluateExpr b q e node bindings)

/-- What one sees from a binding is sound while the binding is marked. -/
theorem Memory.Sound.setState (hm : m.Sound b env h) (hp : p.Before h) (st : State) :
    (m.setState p st).Sound b env p where
  environment := (environment_setState m p st).trans hm.environment
  cells q cell hq hcell := by
    have hne : q ≠ p := by
      rintro rfl
      exact Horizon.not_before_self q hq
    rw [cell?_setState_ne hne] at hcell
    exact hm.cells q cell (hq.trans hp) hcell
  parsed := hm.parsed

/-- When a marked binding has been evaluated, its state is written back. Only what one sees from it may have
changed meanwhile. -/
theorem Memory.Sound.writeBack {after : Memory} (hm : m.Sound b env h) (hp : p.Before h)
    (hcell : m.cell? p = some ⟨x, .pending⟩) (hsame : (m.setState p .evaluating).SameFrom p after)
    (hafter : after.Sound b env p) {st : State}
    (hst : st.Agrees (meaning b (denote b (visible env p)) x.query x.node)) : (after.setState p st).Sound b env h where
  environment := (environment_setState after p st).trans hafter.environment
  cells q cell hq hfound := by
    rcases Horizon.eq_or_before_or_before q p with rfl | hqp | hpq
    · have hmarked : after.cell? q = some ⟨x, .evaluating⟩ :=
        (hsame.cells q (Horizon.not_before_self q)).trans (cell?_setState_self hcell .evaluating)
      rw [cell?_setState_self hmarked] at hfound
      cases hfound
      exact hst
    · have hne : q ≠ p := by
        rintro rfl
        exact Horizon.not_before_self q hqp
      rw [cell?_setState_ne hne] at hfound
      exact hafter.cells q cell hqp hfound
    · have hne : q ≠ p := by
        rintro rfl
        exact Horizon.not_before_self q hpq
      have hbehind : ¬q.Before p := fun hqp => Horizon.not_before_self q (hqp.trans hpq)
      rw [cell?_setState_ne hne, hsame.cells q hbehind, cell?_setState_ne hne] at hfound
      exact hm.cells q cell hq hfound
  parsed := hafter.parsed

/-- A variable has the value that it stands for, whatever is remembered. -/
theorem computes_variableAt (b : Basis) (env : Environment) (h : Horizon) (name : String) :
    Computes b env h (variableAt b h name) (denote b (visible env h) name) := by
  induction h using Horizon.wellFounded_before.induction generalizing name with
  | _ h ih =>
    intro m hm
    have hfinds := Memory.finds_find? m name h
    rw [hm.environment] at hfinds
    cases hfound : find? m.scopes name h with
    | none =>
      rw [hfound] at hfinds
      rw [variableAt_of_find?_none hfound, denote_of_finds_none hfinds]
      exact ⟨rfl, fun _ => hm⟩
    | some found =>
      obtain ⟨p, x, st⟩ := found
      rw [hfound] at hfinds
      have hp : p.Before h := find?_before hfound
      have hcell : m.cell? p = some ⟨x, st⟩ := hfinds.1
      have hagrees := hm.cells p _ hp hcell
      rw [variableAt_of_find?_some hfound, denote_of_finds hfinds, hm.environment]
      cases st with
      | ready v => exact ⟨hagrees.symm, fun _ => hm⟩
      | evaluating => exact hagrees.elim
      | pending =>
        obtain ⟨hr, hsound⟩ := computes_queryValue (ih p hp) x.query x.node (m.setState p .evaluating)
          (hm.setState hp .evaluating)
        have hsame := stays_queryValue (stays_variableAt b p) b x.query x.node (m.setState p .evaluating)
        dsimp only
        rw [hr]
        exact ⟨rfl, fun hbreak => hm.writeBack hp hcell hsame (hsound hbreak) (State.agrees_after hbreak)⟩

end

end Schematron.Validation
