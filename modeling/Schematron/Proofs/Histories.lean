import Mathlib.Data.List.Basic

/-!
Histories: one thing done after another, each to the state and in the world that the one before it left. What holds
at the start and is kept by every turn holds wherever a history is cut.
-/

namespace Schematron

variable {Op State World Turn : Type} {turn : Op → State → World → Turn} {state : Turn → State} {world : Turn → World}

/-- Each turn of a history is one where the invariant holds, of the turns before it and what they left. -/
theorem exists_turn_of_split {history : List Op → State → World → List Turn} (hnil : ∀ s w, history [] s w = [])
    (hcons : ∀ op ops s w,
      history (op :: ops) s w = turn op s w :: history ops (state (turn op s w)) (world (turn op s w)))
    {Invariant : List Turn → State → World → Prop}
    (hturn : ∀ past s w op, Invariant past s w →
      Invariant (past ++ [turn op s w]) (state (turn op s w)) (world (turn op s w)))
    {past before future : List Turn} {t : Turn} {ops : List Op} {s : State} {w : World} (h : Invariant past s w)
    (hsplit : history ops s w = before ++ t :: future) :
    ∃ op s w, t = turn op s w ∧ Invariant (past ++ before) s w := by
  induction ops generalizing s w past before with
  | nil =>
    rw [hnil] at hsplit
    cases before <;> cases hsplit
  | cons op ops ih =>
    rw [hcons] at hsplit
    cases before with
    | nil =>
      cases hsplit
      exact ⟨op, s, w, rfl, by rwa [List.append_nil]⟩
    | cons first before =>
      obtain ⟨rfl, hrest⟩ := List.cons.inj hsplit
      obtain ⟨op', s', w', ht, hs'⟩ := ih (hturn past s w op h) hrest
      exact ⟨op', s', w', ht, by rwa [List.append_assoc] at hs'⟩

end Schematron
