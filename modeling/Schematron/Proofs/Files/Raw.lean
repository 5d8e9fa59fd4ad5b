import Mathlib.Data.List.Basic
import Schematron.Files.Path
import Schematron.Proofs.Splitting

/-!
Names and paths that are texts. They are shown as they are, and splitting a path into its steps goes by its text.
-/

namespace Schematron

theorem Text.splitAt_map {α β : Type} [DecidableEq α] [DecidableEq β] {f : α → β} (hf : f.Injective) (sep : α)
    (l : List α) : splitAt (f sep) (l.map f) = (splitAt sep l).map (·.map f) := by
  induction l with
  | nil => rfl
  | cons a l ih =>
    rw [List.map_cons, splitAt, splitAt, ih]
    by_cases ha : a = sep
    · simp [ha]
    · rw [if_neg ha, if_neg (hf.ne ha)]
      cases splitAt sep l <;> rfl

namespace Files

namespace Raw

@[simp] theorem shown_ofText (text : String) : (ofText text).shown = text := by
  simp [ofText, shown, Function.comp_def, Sign.shown]

theorem ofText_injective : Function.Injective ofText := by
  intro s t h
  rw [← shown_ofText s, h, shown_ofText]

theorem pieces_ofText (text : String) : (ofText text).pieces = (Text.pieces '/' text).map ofText := by
  have hchar : Function.Injective Sign.char := fun c d h => Sign.char.inj h
  rw [pieces, ofText, Text.splitAt_map hchar, Text.pieces, List.map_map, List.map_map]
  refine List.map_congr_left fun piece _ => ?_
  simp [ofText]

end Raw

namespace Path

theorem ofText_eq (text : String) :
    ofText text = ⟨text.toList.head? = some '/', (Text.pieces '/' text).filterMap fun piece => stepOf? (.ofText piece)⟩ := by
  rw [ofText, ofRaw, Raw.pieces_ofText, List.filterMap_map]
  simp [Raw.ofText, Function.comp_def]

/-- What is shown for a path is what is shown for its steps. -/
theorem toText_eq (p : Path) :
    p.toText = (if p.rooted then "/" else "") ++ "/".intercalate (p.steps.map stepText) := by
  have hsteps (steps : List Step) :
      ([.char '/'].intercalate (steps.map fun s => (stepRaw s).signs)).map Sign.shown
        = ("/".intercalate (steps.map stepText)).toList := by
    induction steps with
    | nil => rfl
    | cons s steps ih =>
      cases steps with
      | nil => simp [stepText, Raw.shown]
      | cons t steps =>
        simp only [List.map_cons] at ih ⊢
        rw [List.intercalate_cons_cons, List.map_append, List.map_append, ih, String.intercalate_cons_cons]
        simp [stepText, Raw.shown, Sign.shown]
  rw [toText, toRaw, Raw.shown, List.map_append, hsteps, ← String.toList_inj]
  cases p.rooted <;> simp [Sign.shown]

end Path

end Files

end Schematron
