import Mathlib.Data.List.Induction
import Mathlib.Logic.Function.Iterate
import Schematron.Proofs.Validation.Slots
import Schematron.Validation.Run

/-!
Validations that share the compiled queries of one schema, and take turns in any way. Nothing gets into a
slot but what belongs there, and no validation sees another.
-/

namespace Schematron.Validation

open Schematron.Query (Slot)

variable {α β : Type} (s : Schema.Compiled)

namespace Queries

/-- Asks for the next query. A slot is locked for that long, so that no other run comes between. -/
def step : Queries α → Slots → Queries α × Slots
  | done a, slots => (done a, slots)
  | fetch place next, slots =>
    let (answer, slots) := slots.fetch s place
    (next answer, slots)

def stepAnew : Queries α → Queries α
  | done a => done a
  | fetch place next => next (compileAt s place)

/-- How many queries are asked for. -/
def fetches : Queries α → Nat
  | done _ => 0
  | fetch place next => (next (compileAt s place)).fetches + 1

def result? : Queries α → Option α
  | done a => some a
  | fetch _ _ => none

theorem step_of_sound (x : Queries α) {slots : Slots} (h : slots.Sound s) :
    (x.step s slots).1 = x.stepAnew s ∧ (x.step s slots).2.Sound s := by
  cases x with
  | done a => exact ⟨rfl, h⟩
  | fetch place next =>
    obtain ⟨hanswer, hsound⟩ := h.fetch place
    exact ⟨congrArg next hanswer, hsound⟩

theorem stepAnew_iterate (x : Queries α) (n : Nat) :
    ((stepAnew s)^[n] x).runAnew s = x.runAnew s ∧
      ((stepAnew s)^[n] x).fetches s = x.fetches s - n := by
  induction n generalizing x with
  | zero => exact ⟨rfl, rfl⟩
  | succ n ih =>
    obtain ⟨hrun, hfetches⟩ := ih (x.stepAnew s)
    rw [Function.iterate_succ_apply, hrun, hfetches]
    cases x with
    | done a => exact ⟨rfl, by simp [stepAnew, fetches]⟩
    | fetch place next =>
      refine ⟨rfl, ?_⟩
      simp only [stepAnew, fetches]
      omega

theorem result?_eq (x : Queries α) :
    x.result? = if x.fetches s = 0 then some (x.runAnew s) else none := by
  cases x <;> rfl

/-- A run is done after as many steps as it asks for queries, and not before. -/
theorem result?_iterate (x : Queries α) (n : Nat) :
    ((stepAnew s)^[n] x).result? = if x.fetches s ≤ n then some (x.runAnew s) else none := by
  obtain ⟨hrun, hfetches⟩ := x.stepAnew_iterate s n
  rw [result?_eq s, hrun, hfetches]
  simp only [Nat.sub_eq_zero_iff_le]

theorem runShared_map (f : α → β) (x : Queries α) (slots : Slots) :
    (f <$> x).runShared s slots = (f (x.runShared s slots).1, (x.runShared s slots).2) := by
  induction x generalizing slots with
  | done a => rfl
  | fetch place next ih => exact ih _ _

end Queries

/-- Runs that are under way, and the slots of their schema. -/
structure Pool (α : Type) where
  runs : List (Queries α)
  slots : Slots

namespace Pool

/-- It is the turn of a run. One that is done has nothing more to do. -/
def advance (pool : Pool α) (i : Nat) : Pool α :=
  match pool.runs[i]? with
  | none => pool
  | some x =>
    let (x, slots) := x.step s pool.slots
    ⟨pool.runs.set i x, slots⟩

def follow (pool : Pool α) (turns : List Nat) : Pool α := turns.foldl (advance s) pool

/-- The results of the runs that are done. -/
def results (pool : Pool α) : List (Option α) := pool.runs.map (·.result?)

/-- Each run is where its own turns have taken it, as if there were no others. -/
structure Separate (begun : List (Queries α)) (turns : List Nat) (pool : Pool α) : Prop where
  slots : pool.slots.Sound s
  runs : ∀ i, pool.runs[i]? = begun[i]?.map (Queries.stepAnew s)^[turns.count i]

variable {s} {begun : List (Queries α)} {turns : List Nat} {pool : Pool α}

theorem Separate.advance (h : pool.Separate s begun turns) (i : Nat) :
    (pool.advance s i).Separate s begun (turns ++ [i]) := by
  have hother : ∀ j, i ≠ j → (turns ++ [i]).count j = turns.count j := by
    intro j hij
    rw [List.count_append, List.count_singleton, if_neg (by simpa using hij), Nat.add_zero]
  have hown : (turns ++ [i]).count i = turns.count i + 1 := by
    rw [List.count_append, List.count_singleton_self]
  have hrun := h.runs i
  unfold Pool.advance
  cases hx : pool.runs[i]? with
  | none =>
    refine ⟨h.slots, fun j => ?_⟩
    by_cases hij : i = j
    · subst hij
      rw [hx] at hrun ⊢
      have hnone := Option.map_eq_none_iff.mp hrun.symm
      rw [hnone]
      rfl
    · rw [hother j hij]
      exact h.runs j
  | some x =>
    obtain ⟨hstep, hsound⟩ := x.step_of_sound s h.slots
    rw [hx] at hrun
    obtain ⟨y, hy, hxy⟩ := Option.map_eq_some_iff.mp hrun.symm
    refine ⟨hsound, fun j => ?_⟩
    by_cases hij : i = j
    · subst hij
      have hlt : i < pool.runs.length := (List.getElem?_eq_some_iff.mp hx).1
      rw [List.getElem?_set_self hlt, hstep, hown, hy, ← hxy, Option.map_some,
        Function.iterate_succ_apply']
    · rw [List.getElem?_set_ne hij, hother j hij]
      exact h.runs j

theorem separate_follow {slots : Slots} (h : slots.Sound s) (begun : List (Queries α)) (turns : List Nat) :
    (follow s ⟨begun, slots⟩ turns).Separate s begun turns := by
  -- from the end, for the pool that the last turn changes is where the turns before it have led
  induction turns using List.reverseRecOn with
  | nil => exact ⟨h, fun i => (Option.map_id_apply).symm⟩
  | append_singleton turns i ih =>
    unfold follow
    rw [List.foldl_append]
    exact ih.advance i

end Pool

/-- A validation over a schema, of a document or of a text that is to be read first. -/
inductive Request where
  | document (o : Options) (d : Xml.Document)
  | text (o : Options) (origin text : String)

namespace Request

/-- Validates with the compiled queries that earlier runs left. -/
def serve : Request → Slots → Except Failure Report × Slots
  | document o d => validateShared o s d
  | text o origin t => validateText o s origin t

/-- The result when no query of the schema has been compiled before. -/
def alone (request : Request) : Except Failure Report := (request.serve s []).1

/-- What the validation asks of the schema. -/
def run : Request → Queries (Except Failure Report)
  | document o d => Prod.fst <$> Run.execute o s d
  | text o origin t =>
    match Xml.Instance.parse t with
    | some d => Prod.fst <$> Run.execute o s d
    | none => return .error (.illFormed origin)

theorem runShared_run (request : Request) (slots : Slots) :
    (request.run s).runShared s slots = request.serve s slots := by
  cases request with
  | document o d => exact Queries.runShared_map s Prod.fst (Run.execute o s d) slots
  | text o origin t =>
    unfold run serve validateText
    dsimp only
    cases Xml.Instance.parse t with
    | none => rfl
    | some d => exact Queries.runShared_map s Prod.fst (Run.execute o s d) slots

theorem runAnew_run (request : Request) : (request.run s).runAnew s = request.alone s := by
  obtain ⟨hresult, -⟩ := (request.run s).runShared_of_sound (s := s) Slots.sound_nil
  rw [← hresult, runShared_run]
  rfl

variable {s}

theorem serve_of_sound (request : Request) {slots : Slots} (h : slots.Sound s) :
    (request.serve s slots).1 = request.alone s ∧ (request.serve s slots).2.Sound s := by
  rw [← runShared_run, ← runAnew_run]
  exact (request.run s).runShared_of_sound h

end Request

theorem validateTexts_of_sound {s : Schema.Compiled} (o : Options) (texts : List String) {slots : Slots}
    (h : slots.Sound s) :
    (validateTexts o s texts slots).1 = texts.map fun t => (Request.text o "<input>" t).alone s := by
  induction texts generalizing slots with
  | nil => rfl
  | cons t texts ih =>
    obtain ⟨hresult, hsound⟩ := (Request.text o "<input>" t).serve_of_sound h
    exact congrArg₂ List.cons hresult (ih hsound)

/-- A slot is empty, or holds the text of its place compiled for its role. -/
def Slots.IsOwn (s : Schema.Compiled) (slots : Slots) (place : Place) : Prop :=
  let source := (place.source? s.document).getD ""
  slots.slotAt s place = .ofSource source ∨
    ∃ q, Query.compileAs s.language place.role source = .ok q ∧ slots.slotAt s place = ⟨source, some q⟩

theorem Slots.Sound.isOwn {s : Schema.Compiled} {slots : Slots} (h : slots.Sound s) (place : Place) :
    slots.IsOwn s place := by
  obtain ⟨hsource, hcompiled⟩ := h.slotAt place
  unfold IsOwn
  cases hslot : slots.slotAt s place with
  | mk source compiled =>
    rw [hslot] at hsource hcompiled
    cases hsource
    cases compiled with
    | none => exact .inl rfl
    | some q => exact .inr ⟨q, hcompiled q rfl, rfl⟩

namespace Pool

/-- Validations before any of them has asked for a query. -/
def begin (s : Schema.Compiled) (requests : List Request) : Pool (Except Failure Report) :=
  ⟨requests.map (·.run s), []⟩

theorem separate_begin (s : Schema.Compiled) (requests : List Request) (turns : List Nat) :
    ((begin s requests).follow s turns).Separate s (requests.map (·.run s)) turns :=
  separate_follow Slots.sound_nil (requests.map (·.run s)) turns

theorem results_begin (s : Schema.Compiled) (requests : List Request) (turns : List Nat) :
    ((begin s requests).follow s turns).results = requests.mapIdx fun i request =>
      if (request.run s).fetches s ≤ turns.count i then some (request.alone s) else none := by
  have hpool := separate_begin s requests turns
  refine List.ext_getElem? fun i => ?_
  unfold results
  rw [List.getElem?_map, hpool.runs i, List.getElem?_map, List.getElem?_mapIdx, Option.map_map,
    Option.map_map]
  refine congrArg (Option.map · requests[i]?) (funext fun request => ?_)
  rw [← request.runAnew_run]
  exact Queries.result?_iterate s (request.run s) (turns.count i)

/-- The turns are enough for every validation. -/
def Enough (s : Schema.Compiled) (requests : List Request) (turns : List Nat) : Prop :=
  ∀ i request, requests[i]? = some request → (request.run s).fetches s ≤ turns.count i

theorem results_begin_of_enough {s : Schema.Compiled} {requests : List Request} {turns : List Nat}
    (h : Enough s requests turns) :
    ((begin s requests).follow s turns).results = requests.map fun request => some (request.alone s) := by
  refine List.ext_getElem? fun i => ?_
  rw [results_begin, List.getElem?_mapIdx, List.getElem?_map]
  cases hrequest : requests[i]? with
  | none => rfl
  | some request => exact congrArg some (if_pos (h i request hrequest))

/-- From anywhere there are turns that bring all validations to their end. -/
theorem exists_results (s : Schema.Compiled) (requests : List Request) (turns : List Nat) :
    ∃ more, (((begin s requests).follow s turns).follow s more).results
      = requests.map fun request => some (request.alone s) := by
  let each (item : Request × Nat) : List Nat := List.replicate ((item.1.run s).fetches s) item.2
  let more := (requests.zipIdx.map each).flatten
  have henough : Enough s requests (turns ++ more) := by
    intro i request hrequest
    have hmem : (request, i) ∈ requests.zipIdx := List.mk_mem_zipIdx_iff_getElem?.mpr hrequest
    have hsublist := List.sublist_flatten_of_mem (List.mem_map_of_mem (f := each) hmem)
    have hcount := hsublist.count_le i
    rw [List.count_replicate_self] at hcount
    rw [List.count_append]
    exact Nat.le_trans hcount (Nat.le_add_left _ _)
  refine ⟨more, ?_⟩
  have hfollow : ((begin s requests).follow s turns).follow s more
      = (begin s requests).follow s (turns ++ more) := List.foldl_append.symm
  rw [hfollow]
  exact results_begin_of_enough henough

end Pool

/-- Validations over one schema may take turns in any way, or go one after the other. At any time each slot
of the schema is empty or holds what its place has; a validation that is done has the result that it has
alone, and it is done once it has had a turn for each query that it asks for; when all are done, as they
can be from anywhere, the results are in the order of the validations. What they leave in the slots changes
no later validation, and no result of a later batch. -/
theorem turns_leave_no_trace (s : Schema.Compiled) (requests : List Request) (turns : List Nat) :
    let pool := (Pool.begin s requests).follow s turns
    (∀ place, pool.slots.IsOwn s place) ∧
    pool.results = (requests.mapIdx fun i request =>
      if (request.run s).fetches s ≤ turns.count i then some (request.alone s) else none) ∧
    (Pool.Enough s requests turns → pool.results = requests.map fun request => some (request.alone s)) ∧
    (∃ more, (pool.follow s more).results = requests.map fun request => some (request.alone s)) ∧
    (∀ request : Request, (request.serve s pool.slots).1 = request.alone s) ∧
    ∀ o texts, (validateTexts o s texts pool.slots).1
      = texts.map fun t => (validateText o s "<input>" t []).1 := by
  intro pool
  have hslots := (Pool.separate_begin s requests turns).slots
  refine ⟨?_, Pool.results_begin s requests turns, Pool.results_begin_of_enough,
    Pool.exists_results s requests turns, ?_, ?_⟩
  · intro place
    exact hslots.isOwn place
  · intro request
    exact (request.serve_of_sound hslots).1
  · intro o texts
    exact validateTexts_of_sound o texts hslots

end Schematron.Validation
