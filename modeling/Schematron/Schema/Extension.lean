import Schematron.Schema.Error
import Schematron.Schema.Model

namespace Schematron.Schema

/-- What a rule has to say: its variables and its assertions. -/
structure Content where
  lets : List Let
  assertions : List Assertion
  deriving DecidableEq, Repr

/-- A later variable replaces an earlier one of the same name. -/
def mergeLets (earlier later : List Let) : List Let :=
  later.foldl (fun acc l => acc.filter (·.name ≠ l.name) ++ [l]) earlier

namespace Content

def empty : Content := ⟨[], []⟩

def own (r : Rule) : Content := ⟨r.lets, r.assertions⟩

def merge (a b : Content) : Content := ⟨mergeLets a.lets b.lets, a.assertions ++ b.assertions⟩

end Content

def ruleIn? (id : String) (p : Pattern) : Option Rule := p.rules.find? (·.id = some id)

/-- A rule by its id, and the index of its pattern. The pattern at `home` is searched first. -/
def findRule? (patterns : List Pattern) (home : Nat) (id : String) : Option (Nat × Rule) :=
  match patterns[home]?.bind (ruleIn? id) with
  | some r => some (home, r)
  | none => patterns.zipIdx.findSome? fun (p, i) => (ruleIn? id p).map (i, ·)

def rules (patterns : List Pattern) : List Rule := patterns.flatMap (·.rules)

theorem mem_rules_of_ruleIn? {patterns : List Pattern} {p : Pattern} {id : String} {r : Rule}
    (hp : p ∈ patterns) (h : ruleIn? id p = some r) : r ∈ rules patterns ∧ r.id = some id :=
  ⟨List.mem_flatMap.mpr ⟨p, hp, List.mem_of_find?_eq_some h⟩, by simpa using List.find?_some h⟩

theorem mem_rules_of_findRule? {patterns : List Pattern} {home i : Nat} {id : String} {r : Rule}
    (h : findRule? patterns home id = some (i, r)) : r ∈ rules patterns ∧ r.id = some id := by
  unfold findRule? at h
  split at h
  · rename_i r' hr
    cases h
    obtain ⟨p, hp, hin⟩ := Option.bind_eq_some_iff.mp hr
    exact mem_rules_of_ruleIn? (List.mem_of_getElem? hp) hin
  · obtain ⟨⟨p, j⟩, hp, hin⟩ := List.exists_of_findSome?_eq_some h
    obtain ⟨r', hr, heq⟩ := Option.map_eq_some_iff.mp hin
    cases heq
    exact mem_rules_of_ruleIn? (List.fst_mem_of_mem_zipIdx hp) hr

/-- The number of rule ids that are not on the way to the current rule. -/
def unvisited (patterns : List Pattern) (visiting : List String) : Nat :=
  (((rules patterns).filterMap (·.id)).filter fun id => !visiting.contains id).length

theorem length_filter_lt_of_imp {α : Type} {p q : α → Bool} {l : List α} {a : α} (ha : a ∈ l)
    (hp : p a = true) (hq : q a = false) (hqp : ∀ x, q x = true → p x = true) :
    (l.filter q).length < (l.filter p).length := by
  induction l with
  | nil => simp at ha
  | cons b l ih =>
    have hle : (l.filter q).length ≤ (l.filter p).length := by
      rw [← List.countP_eq_length_filter, ← List.countP_eq_length_filter]
      exact List.countP_mono_left fun x _ => hqp x
    rcases List.mem_cons.mp ha with rfl | hmem
    · simp only [List.filter_cons, hp, hq, if_true, List.length_cons]
      simp
      omega
    · have := ih hmem
      by_cases hqb : q b = true
      · simp [hqb, hqp b hqb, this]
      · by_cases hpb : p b = true
        · simp only [List.filter_cons, hqb, hpb, if_true, List.length_cons]
          simp
          omega
        · simpa [List.filter_cons, hqb, hpb] using this

theorem unvisited_lt {patterns : List Pattern} {home i : Nat} {visiting : List String} {id : String}
    {r : Rule} (h : findRule? patterns home id = some (i, r)) (hv : visiting.contains id = false) :
    unvisited patterns (visiting ++ [id]) < unvisited patterns visiting := by
  refine length_filter_lt_of_imp (List.mem_filterMap.mpr ⟨r, mem_rules_of_findRule? h⟩) ?_ ?_ ?_
  · simpa using hv
  · simp
  · intro x hx
    simp only [Bool.not_eq_true', List.contains_eq_mem, List.mem_append, decide_eq_false_iff_not,
      not_or] at hx ⊢
    exact hx.1

/-- All targets of a schema: no rule has more. -/
def allBases (patterns : List Pattern) : List String := (rules patterns).flatMap (·.bases)

theorem length_bases_le {patterns : List Pattern} {home i : Nat} {id : String} {r : Rule}
    (h : findRule? patterns home id = some (i, r)) : r.bases.length ≤ (allBases patterns).length :=
  (List.sublist_flatten_of_mem (List.mem_map_of_mem (mem_rules_of_findRule? h).1)).length_le

theorem mul_add_lt {a b c d n : Nat} (h : a < b) (hc : c ≤ n) : a * n + c < b * n + (d + 1) := by
  have hstep : (a + 1) * n ≤ b * n := Nat.mul_le_mul_right n h
  rw [Nat.succ_mul] at hstep
  omega

mutual
/-- The content of a rule after all it extends, base first and depth first. `visiting` are the rules
on the way here. -/
def resolve (patterns : List Pattern) (home : Nat) (rule : Rule) (visiting : List String) :
    Except SchemaError Content :=
  match resolveAll patterns home rule visiting Content.empty rule.bases with
  | .error e => .error e
  | .ok inherited => .ok (inherited.merge (.own rule))
termination_by unvisited patterns visiting * ((allBases patterns).length + 1) + (rule.bases.length + 1)

/-- `sofar` and, behind it, the content of the rules that `targets` name. -/
def resolveAll (patterns : List Pattern) (home : Nat) (rule : Rule) (visiting : List String)
    (sofar : Content) (targets : List String) : Except SchemaError Content :=
  match targets with
  | [] => .ok sofar
  | target :: more =>
    if _hv : visiting.contains target then .error (.cyclicExtension (visiting ++ [target]))
    else
      match _hf : findRule? patterns home target with
      | none => .error (.unresolvedRule rule.label target)
      | some (i, base) =>
        match resolve patterns i base (visiting ++ [target]) with
        | .error e => .error e
        | .ok content => resolveAll patterns home rule visiting (sofar.merge content) more
termination_by unvisited patterns visiting * ((allBases patterns).length + 1) + targets.length
decreasing_by
  · exact mul_add_lt (unvisited_lt _hf (Bool.eq_false_iff.mpr _hv)) (Nat.succ_le_succ (length_bases_le _hf))
  · simp
end

/-- The rule with all it inherits written out. -/
def flatten (patterns : List Pattern) (home : Nat) (rule : Rule) : Except SchemaError Rule :=
  match resolve patterns home rule [rule.label] with
  | .error e => .error e
  | .ok content =>
    .ok {
      rule with
      isAbstract := false, bases := [], lets := content.lets, assertions := content.assertions }

end Schematron.Schema
