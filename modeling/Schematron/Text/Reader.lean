namespace Schematron

/-- A reader of the front of a text; a failure does not say why. -/
abbrev Reader := StateT (List Char) Option

namespace Reader

/-- Takes `word`, which has to be next. -/
def word (w : List Char) : Reader Unit := do
  match w.isPrefixOf? (← get) with
  | some rest => set rest
  | none => failure

def nextIs (w : List Char) : Reader Bool := return w.isPrefixOf (← get)

/-- The text before the next `stop`, which is taken too. -/
def cut (stop : List Char) : List Char → Option (List Char × List Char)
  | [] => if stop.isEmpty then some ([], []) else none
  | c :: rest =>
    match stop.isPrefixOf? (c :: rest) with
    | some after => some ([], after)
    | none => (cut stop rest).map fun (inside, after) => (c :: inside, after)

def upTo (stop : List Char) : Reader (List Char) := cut stop

theorem eq_append_of_isPrefixOf? {p cs rest : List Char} (h : p.isPrefixOf? cs = some rest) :
    cs = p ++ rest := by
  induction p generalizing cs with
  | nil => exact Option.some.inj h
  | cons a p ih =>
    cases cs with
    | nil => cases h
    | cons b cs =>
      change (if a == b then p.isPrefixOf? cs else none) = some rest at h
      split at h
      · rename_i hab
        rw [beq_iff_eq] at hab
        rw [hab, ih h]
        rfl
      · cases h

theorem length_of_isPrefixOf? {p cs rest : List Char} (h : p.isPrefixOf? cs = some rest) :
    cs.length = p.length + rest.length := by
  rw [eq_append_of_isPrefixOf? h, List.length_append]

theorem cut_length {stop cs inside after : List Char} (h : cut stop cs = some (inside, after)) :
    after.length ≤ cs.length := by
  induction cs generalizing inside after with
  | nil =>
    unfold cut at h
    split at h
    · simp_all
    · simp at h
  | cons c cs ih =>
    unfold cut at h
    split at h
    · rename_i rest hp
      have := length_of_isPrefixOf? hp
      simp only [Option.some.injEq, Prod.mk.injEq] at h
      rw [← h.2]
      omega
    · obtain ⟨⟨i, a⟩, hc, he⟩ := Option.map_eq_some_iff.mp h
      simp only [Prod.mk.injEq] at he
      rw [← he.2]
      exact Nat.le_succ_of_le (ih hc)

/-- The result of a reader that may fail; after a failure nothing has been taken. -/
def attempt {α : Type} (r : Reader α) : Reader (Option α) := fun cs =>
  match r cs with
  | some (a, rest) => some (some a, rest)
  | none => some (none, cs)

/-- `item` as often as it reads something. -/
def many {α : Type} (item : Reader α) (cs : List Char) : List α × List Char :=
  match item cs with
  | none => ([], cs)
  | some (a, rest) =>
    if rest.length < cs.length then
      let (as, last) := many item rest
      (a :: as, last)
    else ([], cs)
termination_by cs.length

end Reader

end Schematron
