import Schematron.Proofs.Histories
import Schematron.Query.Slot

/-!
Slots over time: any number of them, asked for their compiled forms by whatever means, copied, and made anew
from each other's sources.
-/

namespace Schematron.Query

/-- Something done with one of several slots, which goes by its index. Compiling reads and changes a world. -/
inductive SlotOp (σ ε : Type) where
  | fetch (index : Nat) (make : String → StateM σ (Except ε Compiled))
  | copy (index : Nat)
  | mapSource (index : Nat) (f : String → String)

/-- Something that was done: the slots and the world before, the answer if one was asked for, and the slots and
the world after. -/
structure Turn (σ ε : Type) where
  op : SlotOp σ ε
  slots : List Slot
  world : σ
  answer : Option (Except ε Compiled)
  slotsAfter : List Slot
  worldAfter : σ

section

variable {σ ε : Type}

/-- What is done to the slots. A copy gets the next index; there is nothing to do with a slot that is not there. -/
def SlotOp.perform : SlotOp σ ε → List Slot → StateM σ (Option (Except ε Compiled) × List Slot)
  | fetch i make, slots => do
    match slots[i]? with
    | none => return (none, slots)
    | some slot =>
      let (answer, slot) ← slot.getOrCompileIn make
      return (some answer, slots.set i slot)
  | copy i, slots => return (none, slots ++ (slots[i]?.map (·.copy)).toList)
  | mapSource i f, slots => return (none, slots ++ (slots[i]?.map (·.mapSource f)).toList)

def turn (op : SlotOp σ ε) (slots : List Slot) (world : σ) : Turn σ ε :=
  let ((answer, slotsAfter), worldAfter) := op.perform slots world
  ⟨op, slots, world, answer, slotsAfter, worldAfter⟩

def history : List (SlotOp σ ε) → List Slot → σ → List (Turn σ ε)
  | [], _, _ => []
  | op :: ops, slots, world =>
    turn op slots world :: history ops (turn op slots world).slotsAfter (turn op slots world).worldAfter

namespace Turn

/-- The slot was asked for its compiled form, and had one or got one. -/
def Succeeds (t : Turn σ ε) (i : Nat) (c : Compiled) : Prop :=
  ∃ make, t.op = .fetch i make ∧ t.answer = some (.ok c)

/-- What a turn does after others. -/
structure Follows (past : List (Turn σ ε)) (t : Turn σ ε) : Prop where
  /-- A slot has a compiled form from the first success on. -/
  compiled : ∀ i slot c, t.slots[i]? = some slot →
    (slot.compiled = some c ↔ ∃ earlier ∈ past, earlier.Succeeds i c)
  /-- After a success that is the answer, and nothing is compiled: the world is as it was. -/
  again : ∀ i make c, t.op = .fetch i make → (∃ earlier ∈ past, earlier.Succeeds i c) →
    t.answer = some (.ok c) ∧ t.slotsAfter = t.slots ∧ t.worldAfter = t.world
  /-- Without one the source of the slot is compiled, once. -/
  first : ∀ i make slot, t.op = .fetch i make → t.slots[i]? = some slot →
    (∀ earlier ∈ past, ∀ c, ¬earlier.Succeeds i c) →
      t.answer = some (make slot.source t.world).1 ∧ t.worldAfter = (make slot.source t.world).2
  succeeded : ∀ i make slot c, t.op = .fetch i make → t.slots[i]? = some slot → t.answer = some (.ok c) →
    t.slotsAfter = t.slots.set i ⟨slot.source, some c⟩
  failed : ∀ i make slot e, t.op = .fetch i make → t.slots[i]? = some slot → t.answer = some (.error e) →
    slot.compiled = none ∧ t.slotsAfter = t.slots
  copied : ∀ i slot, t.op = .copy i → t.slots[i]? = some slot →
    t.slotsAfter = t.slots ++ [⟨slot.source, none⟩] ∧ t.worldAfter = t.world
  mapped : ∀ i f slot, t.op = .mapSource i f → t.slots[i]? = some slot →
    t.slotsAfter = t.slots ++ [⟨f slot.source, none⟩] ∧ t.worldAfter = t.world

end Turn

section

variable {slots : List Slot} {world : σ} {i : Nat} {slot : Slot} {make : String → StateM σ (Except ε Compiled)}

theorem set_of_getElem? (h : slots[i]? = some slot) : slots.set i slot = slots := by
  obtain ⟨hi, rfl⟩ := List.getElem?_eq_some_iff.mp h
  exact List.set_getElem_self hi

theorem turn_of_missing (h : slots[i]? = none) :
    turn (.fetch i make) slots world = ⟨.fetch i make, slots, world, none, slots, world⟩ := by
  simp only [turn, SlotOp.perform, h]
  rfl

theorem turn_of_compiled {c : Compiled} (h : slots[i]? = some slot) (hc : slot.compiled = some c) :
    turn (.fetch i make) slots world = ⟨.fetch i make, slots, world, some (.ok c), slots, world⟩ := by
  simp only [turn, SlotOp.perform, h, Slot.getOrCompileIn_of_some hc]
  exact congrArg (fun left => Turn.mk _ _ _ _ left _) (set_of_getElem? h)

theorem turn_of_uncompiled (h : slots[i]? = some slot) (hc : slot.compiled = none) :
    turn (.fetch i make) slots world = ⟨.fetch i make, slots, world, some (make slot.source world).1,
      slots.set i (slot.keep (make slot.source world).1), (make slot.source world).2⟩ := by
  simp only [turn, SlotOp.perform, h, Slot.getOrCompileIn_of_none hc]
  rfl

end

/-- The compiled forms in the slots are those that earlier turns gave. -/
def Known (slots : List Slot) (past : List (Turn σ ε)) : Prop :=
  ∀ i c, slots[i]?.bind (·.compiled) = some c ↔ ∃ earlier ∈ past, earlier.Succeeds i c

namespace Known

variable {slots : List Slot} {past : List (Turn σ ε)}

theorem start (sources : List String) : Known (sources.map Slot.ofSource) ([] : List (Turn σ ε)) := by
  intro i c
  have hempty : (sources.map Slot.ofSource)[i]?.bind (·.compiled) = none := by
    rw [List.getElem?_map]
    cases sources[i]? <;> rfl
  rw [hempty]
  simp

theorem of_getElem? (h : Known slots past) {i : Nat} {slot : Slot} (hslot : slots[i]? = some slot) (c : Compiled) :
    slot.compiled = some c ↔ ∃ earlier ∈ past, earlier.Succeeds i c := by
  rw [← h i c, hslot]
  rfl

/-- A turn that gave no compiled form changes nothing of what is known. -/
theorem concat (h : Known slots past) {t : Turn σ ε} (ht : ∀ i c, ¬t.Succeeds i c) : Known slots (past ++ [t]) := by
  intro i c
  simp [h i c, or_and_right, exists_or, ht i c]

/-- New slots are not compiled. -/
theorem append (h : Known slots past) {new : List Slot} (hnew : ∀ slot ∈ new, slot.compiled = none) :
    Known (slots ++ new) past := by
  intro i c
  rw [← h i c]
  rcases Nat.lt_or_ge i slots.length with hi | hi
  · rw [List.getElem?_append_left hi]
  · rw [List.getElem?_append_right hi, List.getElem?_eq_none hi]
    refine iff_of_false (fun hbound => ?_) nofun
    obtain ⟨slot, hslot, hc⟩ := Option.bind_eq_some_iff.mp hbound
    cases (hnew slot (List.mem_of_getElem? hslot)).symm.trans hc

theorem fetch (h : Known slots past) (world : σ) (j : Nat) (make : String → StateM σ (Except ε Compiled)) :
    Known (turn (.fetch j make) slots world).slotsAfter (past ++ [turn (.fetch j make) slots world]) := by
  cases hslot : slots[j]? with
  | none =>
    rw [turn_of_missing hslot]
    exact h.concat fun i c => by simp [Turn.Succeeds]
  | some slot =>
    cases hc : slot.compiled with
    | some c₀ =>
      rw [turn_of_compiled hslot hc]
      intro i c
      have hpast := (h.of_getElem? hslot c₀).mp hc
      simp only [h i c, List.mem_append, List.mem_singleton, or_and_right, exists_or, exists_eq_left]
      refine (or_iff_left_of_imp ?_).symm
      rintro ⟨_, heq, hanswer⟩
      cases heq
      cases hanswer
      exact hpast
    | none =>
      rw [turn_of_uncompiled hslot hc]
      cases hanswer : (make slot.source world).1 with
      | error e =>
        have hsame : slots.set j (slot.keep (.error e : Except ε Compiled)) = slots := set_of_getElem? hslot
        rw [hsame]
        exact h.concat fun i c => by simp [Turn.Succeeds]
      | ok c₀ =>
        intro i c
        simp only [List.mem_append, List.mem_singleton, or_and_right, exists_or, exists_eq_left]
        by_cases hij : j = i
        · subst hij
          have hnone : ¬∃ earlier ∈ past, earlier.Succeeds j c := by
            rw [← h.of_getElem? hslot, hc]
            nofun
          rw [List.getElem?_set_self (List.getElem?_eq_some_iff.mp hslot).1, or_iff_right hnone]
          simp [Turn.Succeeds, Slot.keep]
        · rw [List.getElem?_set_ne hij, h i c]
          refine (or_iff_left ?_).symm
          rintro ⟨_, heq, -⟩
          cases heq
          exact hij rfl

theorem turn (h : Known slots past) (op : SlotOp σ ε) (world : σ) :
    Known (turn op slots world).slotsAfter (past ++ [Query.turn op slots world]) := by
  have hnew {slot : Option Slot} {f : Slot → Slot} (hf : ∀ s, (f s).compiled = none) :
      ∀ s ∈ (slot.map f).toList, s.compiled = none := by
    intro s hs
    obtain ⟨s', -, rfl⟩ := Option.map_eq_some_iff.mp (Option.mem_toList.mp hs)
    exact hf s'
  cases op with
  | fetch i make => exact h.fetch world i make
  | copy i => exact (h.append (hnew fun _ => rfl)).concat fun i c ⟨_, heq, _⟩ => nomatch heq
  | mapSource i f => exact (h.append (hnew fun _ => rfl)).concat fun i c ⟨_, heq, _⟩ => nomatch heq

end Known

theorem turn_follows {slots : List Slot} {past : List (Turn σ ε)} (h : Known slots past) (op : SlotOp σ ε)
    (world : σ) : (turn op slots world).Follows past where
  compiled i slot c hslot := h.of_getElem? hslot c
  again i make c hop hpast := by
    obtain rfl : op = .fetch i make := hop
    obtain ⟨slot, hslot, hc⟩ := Option.bind_eq_some_iff.mp ((h i c).mpr hpast)
    rw [turn_of_compiled hslot hc]
    exact ⟨rfl, rfl, rfl⟩
  first i make slot hop (hslot : slots[i]? = some slot) hnever := by
    obtain rfl : op = .fetch i make := hop
    cases hc : slot.compiled with
    | some c =>
      obtain ⟨earlier, hearlier, hsucceeds⟩ := (h.of_getElem? hslot c).mp hc
      exact absurd hsucceeds (hnever earlier hearlier c)
    | none =>
      rw [turn_of_uncompiled hslot hc]
      exact ⟨rfl, rfl⟩
  succeeded i make slot c hop (hslot : slots[i]? = some slot) hanswer := by
    obtain rfl : op = .fetch i make := hop
    obtain ⟨source, compiled⟩ := slot
    cases compiled with
    | some c₀ =>
      rw [turn_of_compiled hslot rfl] at hanswer ⊢
      cases hanswer
      exact (set_of_getElem? hslot).symm
    | none =>
      rw [turn_of_uncompiled hslot rfl] at hanswer ⊢
      have hmade : (make source world).1 = .ok c := Option.some.inj hanswer
      rw [hmade]
      rfl
  failed i make slot e hop (hslot : slots[i]? = some slot) hanswer := by
    obtain rfl : op = .fetch i make := hop
    cases hc : slot.compiled with
    | some c =>
      rw [turn_of_compiled hslot hc] at hanswer
      cases hanswer
    | none =>
      rw [turn_of_uncompiled hslot hc] at hanswer ⊢
      have hmade : (make slot.source world).1 = .error e := Option.some.inj hanswer
      rw [hmade]
      exact ⟨rfl, set_of_getElem? hslot⟩
  copied i slot hop (hslot : slots[i]? = some slot) := by
    obtain rfl : op = .copy i := hop
    have hafter : (turn (.copy i : SlotOp σ ε) slots world).slotsAfter =
        slots ++ (slots[i]?.map (·.copy)).toList := rfl
    rw [hafter, hslot]
    exact ⟨rfl, rfl⟩
  mapped i f slot hop (hslot : slots[i]? = some slot) := by
    obtain rfl : op = .mapSource i f := hop
    have hafter : (turn (.mapSource i f : SlotOp σ ε) slots world).slotsAfter =
        slots ++ (slots[i]?.map (·.mapSource f)).toList := rfl
    rw [hafter, hslot]
    exact ⟨rfl, rfl⟩

/-- In every history of slots that start with no compiled forms, a slot is compiled on a request just where no
request before it succeeded, and the first success is the answer from then on. Copies start anew, and no slot
changes with another. -/
theorem history_computes_once {sources : List String} {ops : List (SlotOp σ ε)} {world : σ}
    {past future : List (Turn σ ε)} {t : Turn σ ε}
    (h : history ops (sources.map .ofSource) world = past ++ t :: future) : t.Follows past := by
  have hturn (past : List (Turn σ ε)) (slots : List Slot) (world : σ) (op : SlotOp σ ε) (hknown : Known slots past) :
      Known (turn op slots world).slotsAfter (past ++ [turn op slots world]) := hknown.turn op world
  obtain ⟨op, slots, world', rfl, hknown⟩ := exists_turn_of_split (fun _ _ => rfl) (fun _ _ _ _ => rfl) hturn
    (Known.start sources) h
  exact turn_follows hknown op world'

end

/-- Compiling that counts how often it is done. -/
private def counted (f : String → Except String Compiled) (source : String) : StateM Nat (Except String Compiled) :=
  fun count => (f source, count + 1)

private def verbatim (source : String) : Compiled := ⟨source, source, false, [], false, none⟩

/-- A failure, a success, a copy, and one more request for each of the two. -/
private def retried : List (SlotOp Nat String) :=
  [.fetch 0 (counted .error), .fetch 0 (counted fun s => .ok (verbatim s)), .copy 0,
    .fetch 0 (counted fun _ => .ok (verbatim "")), .fetch 1 (counted .error)]

theorem history_computes_once_retried :
    ∃ past t future, history retried (["@a"].map .ofSource) 0 = past ++ t :: future ∧ past.length = 3 ∧
      t.Follows past ∧ t.answer = some (.ok (verbatim "@a")) ∧ t.world = 2 ∧ t.worldAfter = 2 ∧
      t.slots = [⟨"@a", some (verbatim "@a")⟩, ⟨"@a", none⟩] := by
  have hsplit : history retried (["@a"].map .ofSource) 0 =
      (history retried (["@a"].map .ofSource) 0).take 3 ++
        turn (.fetch 0 (counted fun _ => .ok (verbatim ""))) [⟨"@a", some (verbatim "@a")⟩, ⟨"@a", none⟩] 2 ::
          (history retried (["@a"].map .ofSource) 0).drop 4 := rfl
  exact ⟨_, _, _, hsplit, rfl, history_computes_once hsplit, rfl, rfl, rfl, rfl⟩

end Schematron.Query
