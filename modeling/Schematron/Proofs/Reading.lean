import Mathlib.Data.List.TakeWhile
import Schematron.Text.Reader

/-!
What is read off the front of a text: runs of characters, and what a reader gives whatever the text.
-/

namespace Schematron

theorem takeWhile_append_of_all {p : Char → Bool} {cs rest : List Char} (h : ∀ c ∈ cs, p c = true)
    (hrest : ∀ c ∈ rest.head?, p c = false) :
    (cs ++ rest).takeWhile p = cs ∧ (cs ++ rest).dropWhile p = rest := by
  rw [List.takeWhile_append_of_pos h, List.dropWhile_append_of_pos h]
  cases rest with
  | nil => simp
  | cons c rest =>
    rw [List.takeWhile_cons_of_neg (by simp [hrest c rfl]), List.dropWhile_cons_of_neg (by simp [hrest c rfl])]
    simp

namespace Reader

variable {α β : Type} {r : Reader α} {f : α → Reader β} {P : α → Prop} {Q : β → Prop}

/-- What the reader gives is as `P` says, whatever the text. -/
def Gives (r : Reader α) (P : α → Prop) : Prop :=
  ∀ cs a rest, r cs = some (a, rest) → P a

theorem Gives.pure {a : α} (h : P a) : Gives (pure a) P := by
  intro cs b rest hread
  cases hread
  exact h

theorem gives_failure : Gives failure P := by
  intro cs a rest hread
  cases hread

theorem Gives.bind (h : Gives r P) (hf : ∀ a, P a → Gives (f a) Q) : Gives (r >>= f) Q := by
  intro cs b rest hread
  obtain ⟨⟨a, between⟩, hr, hb⟩ := Option.bind_eq_some_iff.mp hread
  exact hf a (h cs a between hr) between b rest hb

/-- What is read first may be of no account. -/
theorem gives_bind (hf : ∀ a, Gives (f a) Q) : Gives (r >>= f) Q := by
  have hr : Gives r fun _ => True := fun _ _ _ _ => trivial
  exact hr.bind fun a _ => hf a

theorem Gives.ite {c : Prop} [Decidable c] {r' : Reader α} (h : Gives r P) (h' : Gives r' P) :
    Gives (if c then r else r') P := by
  split
  · exact h
  · exact h'

theorem Gives.attempt (h : Gives r P) : Gives (attempt r) fun found => ∀ a ∈ found, P a := by
  intro cs found rest hread a ha
  unfold Reader.attempt at hread
  rcases hr : r cs with _ | ⟨b, left⟩
  · rw [hr] at hread
    cases hread
    cases ha
  · rw [hr] at hread
    cases hread
    cases ha
    exact h cs a rest hr

theorem Gives.many (h : Gives r P) (cs : List Char) : ∀ a ∈ (many r cs).1, P a := by
  fun_induction Reader.many r cs with
  | case1 => exact List.forall_mem_nil _
  | case2 cs a rest hread _ as last hmany ih =>
    rw [hmany] at ih
    exact List.forall_mem_cons.mpr ⟨h cs a rest hread, ih⟩
  | case3 => exact List.forall_mem_nil _

end Reader

end Schematron
