import Schematron.Validation.Place

/-!
Slots never change the result of what asks for queries.
-/

namespace Schematron.Validation

open Schematron.Query (Slot)

namespace Queries

variable {α β γ : Type}

theorem bind_assoc (x : Queries α) (f : α → Queries β) (g : β → Queries γ) :
    (x.bind f).bind g = x.bind fun a => (f a).bind g := by
  induction x with
  | done a => rfl
  | fetch place next ih =>
    show fetch place (fun answer => ((next answer).bind f).bind g) = _
    exact congrArg (fetch place) (funext ih)

theorem bind_done (x : Queries α) : x.bind done = x := by
  induction x with
  | done a => rfl
  | fetch place next ih =>
    show fetch place (fun answer => (next answer).bind done) = _
    exact congrArg (fetch place) (funext ih)

instance : LawfulMonad Queries := LawfulMonad.mk' Queries bind_done (fun _ _ => rfl) bind_assoc

theorem runAnew_bind (s : Schema.Compiled) (x : Queries α) (f : α → Queries β) :
    (x >>= f).runAnew s = (f (x.runAnew s)).runAnew s := by
  induction x with
  | done a => rfl
  | fetch place next ih => exact ih (compileAt s place)

end Queries

namespace Slots

variable {s : Schema.Compiled} {slots : Slots}

/-- A slot keeps the text of its place, and with it nothing but that text compiled for its role. -/
structure Holds (s : Schema.Compiled) (place : Place) (slot : Slot) : Prop where
  source : slot.source = (place.source? s.document).getD ""
  compiled : ∀ q, slot.compiled = some q → compileAt s place = .ok q

def Sound (s : Schema.Compiled) (slots : Slots) : Prop :=
  ∀ place slot, slots.lookup place = some slot → Holds s place slot

/-- The slots after queries were asked for one after the other. -/
def fetched (s : Schema.Compiled) (places : List Place) : Slots :=
  places.foldl (fun slots place => (slots.fetch s place).2) []

theorem Sound.slotAt (h : Sound s slots) (place : Place) : Holds s place (slots.slotAt s place) := by
  unfold Slots.slotAt
  cases hslot : slots.lookup place with
  | none => exact ⟨rfl, fun q hq => by cases hq⟩
  | some slot => exact h place slot hslot

theorem Sound.cons (h : Sound s slots) {place : Place} {slot : Slot} (hslot : Holds s place slot) :
    Sound s ((place, slot) :: slots) := by
  intro other found hfound
  rw [List.lookup_cons] at hfound
  split at hfound
  · rename_i heq
    cases hfound
    rw [eq_of_beq heq]
    exact hslot
  · exact h other found hfound

/-- A slot that holds what its place has gives that, and holds it from then on. -/
theorem Holds.getOrCompile {place : Place} {slot : Slot} (h : Holds s place slot) :
    (slot.getOrCompile (Query.compileAs s.language place.role)).1 = compileAt s place ∧
      Holds s place (slot.getOrCompile (Query.compileAs s.language place.role)).2 := by
  cases hcompiled : slot.compiled with
  | some q =>
    rw [Slot.getOrCompile_of_some hcompiled, h.compiled q hcompiled]
    exact ⟨rfl, h⟩
  | none =>
    have hsource : Query.compileAs s.language place.role slot.source = compileAt s place := by
      rw [h.source, compileAt]
    rw [Slot.getOrCompile_of_none hcompiled, hsource]
    cases hat : compileAt s place with
    | error e => exact ⟨rfl, h⟩
    | ok q =>
      refine ⟨rfl, h.source, fun q' hq' => ?_⟩
      cases hq'
      exact hat

/-- Asking a slot is as good as compiling anew. -/
theorem Sound.fetch (h : Sound s slots) (place : Place) :
    (slots.fetch s place).1 = compileAt s place ∧ Sound s (slots.fetch s place).2 := by
  obtain ⟨hanswer, hholds⟩ := (h.slotAt place).getOrCompile
  unfold Slots.fetch
  dsimp only
  split
  · exact ⟨hanswer, h⟩
  · exact ⟨hanswer, h.cons hholds⟩

theorem sound_nil : Sound s [] := by
  intro place slot hslot
  cases hslot

theorem sound_fetched (s : Schema.Compiled) (places : List Place) : Sound s (fetched s places) := by
  suffices h : ∀ slots, Sound s slots →
      Sound s (places.foldl (fun slots place => (slots.fetch s place).2) slots) from h [] sound_nil
  induction places with
  | nil => exact fun slots h => h
  | cons place places ih => exact fun slots h => ih _ (h.fetch place).2

end Slots

namespace Queries

variable {α : Type} {s : Schema.Compiled}

/-- Sound slots change no result, and stay sound. -/
theorem runShared_of_sound (x : Queries α) {slots : Slots} (h : slots.Sound s) :
    (x.runShared s slots).1 = x.runAnew s ∧ (x.runShared s slots).2.Sound s := by
  induction x generalizing slots with
  | done a => exact ⟨rfl, h⟩
  | fetch place next ih =>
    obtain ⟨hanswer, hsound⟩ := h.fetch place
    have hnext := ih (slots.fetch s place).1 hsound
    show ((next (slots.fetch s place).1).runShared s (slots.fetch s place).2).1
        = (next (compileAt s place)).runAnew s ∧ _
    rw [← hanswer]
    exact hnext

/-- Slots that earlier runs filled are slots that were asked for. -/
theorem runShared_fetched (x : Queries α) (s : Schema.Compiled) (places : List Place) :
    (x.runShared s (.fetched s places)).1 = x.runAnew s ∧
      ∃ more, (x.runShared s (.fetched s places)).2 = .fetched s (places ++ more) := by
  refine ⟨(x.runShared_of_sound (Slots.sound_fetched s places)).1, ?_⟩
  induction x generalizing places with
  | done a => exact ⟨[], by rw [List.append_nil]; rfl⟩
  | fetch place next ih =>
    obtain ⟨more, hmore⟩ := ih ((Slots.fetched s places).fetch s place).1 (places ++ [place])
    have hfetched : ((Slots.fetched s places).fetch s place).2 = .fetched s (places ++ [place]) := by
      simp only [Slots.fetched, List.foldl_append, List.foldl_cons, List.foldl_nil]
    refine ⟨place :: more, ?_⟩
    show ((next ((Slots.fetched s places).fetch s place).1).runShared s
      ((Slots.fetched s places).fetch s place).2).2 = _
    rw [hfetched, hmore, List.append_assoc]
    rfl

end Queries

end Schematron.Validation
