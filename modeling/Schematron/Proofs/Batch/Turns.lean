import Schematron.Proofs.Batch.Answers

/-!
Files that take turns. What one turn keeps: the schemas and slots that are shared hold what belongs there, the
job of each file leads to its verdict or past it for a reason, and no file waits for nothing. Each turn that
does anything brings the files nearer to their end.
-/

namespace Schematron.Batch

open Schematron.Loading
open Schematron.Validation (compileAt)

variable {σ : Type} {setup : Setup (StateM σ)} (o : Outside setup) (files : List Files.Raw)

/-- What is kept. -/
def Shared.kept (s : Shared) : Kept := s.cache.get?

/-- What is kept for a location is what is loaded from some source with that key, and its slots hold what belongs
there. -/
structure Shared.Sound (s : Shared) : Prop where
  loaded : ∀ location schema, s.kept location = some schema →
    ∃ source ∈ o.sources files, source.key = location ∧ o.loaded source = .ok schema
  slots : ∀ location schema, s.kept location = some schema → (s.slotsAt location).Sound schema

variable {o files} {s : Shared}

theorem Shared.sound_fresh : Shared.fresh.Sound o files := ⟨nofun, nofun⟩

theorem Outside.sources_mono {files' : List Files.Raw} (h : files ⊆ files') : o.sources files ⊆ o.sources files' :=
  List.filterMap_subset _ h

theorem Shared.Sound.mono {files' : List Files.Raw} (h : s.Sound o files) (hsubset : files ⊆ files') :
    s.Sound o files' where
  loaded location schema hkept := by
    obtain ⟨source, hsource, hloaded⟩ := h.loaded location schema hkept
    exact ⟨source, Outside.sources_mono hsubset hsource, hloaded⟩
  slots := h.slots

theorem perform_load_of_some {source : Source} {schema : Schema.Compiled}
    (h : s.cache.get? source.key = some schema) :
    Op.perform setup (.load source) s = pure (.ok schema, s) := by
  simp only [Op.perform, h]

theorem perform_load_of_none {source : Source} (h : s.cache.get? source.key = none) :
    Op.perform setup (.load source) s =
      setup.supply.schema source >>= fun loaded => pure (Cache.shareOf loaded, s.keep source.key loaded) := by
  simp only [Op.perform, h]

namespace Shared

theorem kept_keep_of_ne {location location' : String} (h : location' ≠ location)
    (loaded : Except Failure Schema.Compiled) : (s.keep location loaded).kept location' = s.kept location' := by
  cases loaded with
  | error e => rfl
  | ok schema => exact Table.get?_insert_ne h _ _

theorem kept_keep_self (h : s.kept location = none) (loaded : Except Failure Schema.Compiled) :
    (s.keep location loaded).kept location = loaded.toOption := by
  cases loaded with
  | error e => exact h
  | ok schema => exact Table.get?_insert_self _ _ _

theorem grows_keep {location : String} (h : s.kept location = none) (loaded : Except Failure Schema.Compiled) :
    s.kept.Grows (s.keep location loaded).kept := by
  intro location' schema hkept
  by_cases hlocation : location' = location
  · rw [hlocation, h] at hkept
    cases hkept
  · rwa [kept_keep_of_ne hlocation]

namespace Sound

/-- A schema that is kept has come from a source of one of the files. -/
theorem comes (h : s.Sound o files) {location : String} {schema : Schema.Compiled}
    (hkept : s.kept location = some schema) : o.Comes files s.kept location (.ok schema) := by
  obtain ⟨source, hsource, hkey, hloaded⟩ := h.loaded location schema hkept
  refine ⟨source, hsource, hkey, by rw [hloaded]; rfl, fun schema' hschema => ?_⟩
  cases hschema
  exact hkept

theorem keep (h : s.Sound o files) {source : Source} (hsource : source ∈ o.sources files)
    (hnone : s.kept source.key = none) : (s.keep source.key (o.loaded source)).Sound o files where
  loaded location schema hkept := by
    by_cases hlocation : location = source.key
    · subst hlocation
      rw [kept_keep_self hnone] at hkept
      cases hloaded : o.loaded source with
      | error e =>
        rw [hloaded] at hkept
        cases hkept
      | ok loaded =>
        rw [hloaded] at hkept
        cases hkept
        exact ⟨source, hsource, rfl, hloaded⟩
    · rw [kept_keep_of_ne hlocation] at hkept
      exact h.loaded location schema hkept
  slots location schema hkept := by
    unfold slotsAt Shared.keep
    by_cases hlocation : location = source.key
    · subst hlocation
      rw [Table.get?_erase_self]
      exact Validation.Slots.sound_nil
    · rw [kept_keep_of_ne hlocation] at hkept
      rw [Table.get?_erase_ne hlocation]
      exact h.slots location schema hkept

/-- What has been loaded is what comes to all that have asked for it. -/
theorem comes_keep {source : Source} (hsource : source ∈ o.sources files) (hnone : s.kept source.key = none) :
    o.Comes files (s.keep source.key (o.loaded source)).kept source.key (Cache.shareOf (o.loaded source)) := by
  refine ⟨source, hsource, rfl, rfl, fun schema hschema => ?_⟩
  rw [kept_keep_self hnone, ok_of_shareOf hschema]
  rfl

/-- What is asked of the shared state by one who goes on, other than a load, gets a proper answer. It leaves the
state sound and what is kept as it was. -/
theorem perform (h : s.Sound o files) {op : Op} (hop : ∀ source, op ≠ .load source)
    (hproper : o.Proper files s.kept op) (w : σ) :
    o.Admits files s.kept op ((op.perform setup s).run w).1.1 ∧ ((op.perform setup s).run w).1.2.Sound o files ∧
      ((op.perform setup s).run w).1.2.kept = s.kept ∧ ((op.perform setup s).run w).1.2.stopped = s.stopped := by
  cases op with
  | clock => exact ⟨trivial, h, rfl, rfl⟩
  | read path => exact ⟨o.read path w, h, rfl, rfl⟩
  | stopped => exact hproper.elim
  | signal => exact hproper.elim
  | finish path => exact hproper.elim
  | load source => exact absurd rfl (hop source)
  | seek location =>
    change o.Admits files s.kept (.seek location) (s.cache.seek location).1 ∧
      Shared.Sound o files { s with cache := (s.cache.seek location).2 } ∧
        (s.cache.seek location).2.get? = s.cache.get? ∧ _
    unfold Cache.seek
    cases hkept : s.cache.get? location with
    | none => exact ⟨nofun, ⟨h.loaded, h.slots⟩, rfl, rfl⟩
    | some schema =>
      refine ⟨fun schema' hschema => ?_, ⟨h.loaded, h.slots⟩, rfl, rfl⟩
      cases hschema
      exact h.comes hkept
  | query location schema place =>
    obtain ⟨hanswer, hsound⟩ := (h.slots location schema hproper).fetch place
    refine ⟨hanswer, ⟨h.loaded, fun location' schema' hkept => ?_⟩, rfl, rfl⟩
    change (Validation.Slots.Sound schema'
      (((s.slots.insert location ((s.slotsAt location).fetch schema place).2).get? location').getD []))
    by_cases hlocation : location' = location
    · subst hlocation
      cases hproper.symm.trans hkept
      rw [Table.get?_insert_self]
      exact hsound
    · rw [Table.get?_insert_ne hlocation]
      exact h.slots location' schema' hkept

end Sound

end Shared

/-- The result of the file is known. -/
def Task.Has (r : FileResult) : Task → Prop
  | .running job => ∃ failFast n, Settled failFast r n job
  | .ended r' => r' = r
  | .queued _ | .loading _ _ | .awaiting _ _ => False

theorem Task.Has.eq_of_ask {op : Op} {next : op.Answer → Job FileResult} {r : FileResult}
    (h : (Task.running (.ask op next)).Has r) : op = .signal ∨ ∃ path, op = .finish path := by
  obtain ⟨failFast, n, hsettled⟩ := h
  cases hsettled with
  | finish _ => exact .inr ⟨_, rfl⟩
  | signal _ _ _ => exact .inl rfl

/-- The file is invalid or in error. -/
def Pool.IsBad (pool : Pool) (i : Nat) : Prop :=
  ∃ (task : Task) (r : FileResult), pool.tasks[i]? = some task ∧ task.Has r ∧ r.status.isBad = true

variable (o files)

/-- The result may be that of the file, or the file is passed over because of another one. -/
def Pool.Fits (pool : Pool) (i : Nat) (path : Files.Raw) (r : FileResult) : Prop :=
  o.Possible files path r ∨ PassedOver path r ∧ setup.failFast = true ∧ ∃ j, j ≠ i ∧ pool.IsBad j

/-- A file that begins comes to its end within so many questions, whether it goes on or not. -/
def Opens (path : Files.Raw) (n : Nat) : Prop :=
  ∀ κ start, Leads o files (o.Possible files path) κ n ((setup.validation path).bind (setup.close start)) ∧
    Leads o files (PassedOver path) κ n (setup.close start (skippedResult path "fail-fast"))

/-- Whatever comes from a load for a location, the file goes on to its end within so many questions. -/
def Pool.Awaits (pool : Pool) (i : Nat) (path : Files.Raw) (location : String) (n : Nat)
    (next : Except Failure Schema.Compiled → Job FileResult) : Prop :=
  ∀ κ answer, pool.shared.kept.Grows κ → o.Comes files κ location answer →
    Leads o files (pool.Fits o files i path) κ n (next answer)

/-- How a file stands among the others, and a number that falls with each turn it takes. A question that is
left counts twice: where a schema has to be loaded, it takes a turn to begin and one to end. -/
inductive Task.Sound (pool : Pool) (i : Nat) (path : Files.Raw) : Nat → Task → Prop
  | queued {n : Nat} : Opens o files path n → Task.Sound pool i path (2 * n + 6) (.queued path)
  | task {n : Nat} : Opens o files path n → Task.Sound pool i path (2 * n + 5) (.running (setup.task path))
  | begun {n start : Nat} : Opens o files path n →
      Task.Sound pool i path (2 * n + 3) (.running (setup.begun path start))
  | running {n : Nat} {job : Job FileResult} : Leads o files (pool.Fits o files i path) pool.shared.kept n job →
      Task.Sound pool i path (2 * n + 1) (.running job)
  | loading {n : Nat} {source : Source} {next : Except Failure Schema.Compiled → Job FileResult} :
      source ∈ o.sources files → pool.Awaits o files i path source.key n next →
      Task.Sound pool i path (2 * n + 2) (.loading source next)
  | awaiting {n : Nat} {location : String} {next : Except Failure Schema.Compiled → Job FileResult} :
      pool.isLoading location = true → pool.Awaits o files i path location n next →
      Task.Sound pool i path (2 * n + 2) (.awaiting location next)
  | ended {r : FileResult} : pool.Fits o files i path r → Task.Sound pool i path 0 (.ended r)

/-- What is loaded for a location is not kept yet, and is loaded for one file only. -/
def Pool.LoadsOnce (pool : Pool) : Prop :=
  ∀ (location : String) (i : Nat) (task : Task), pool.tasks[i]? = some task → task.loads location = true →
    pool.shared.kept location = none ∧
      ∀ (j : Nat) (task' : Task), pool.tasks[j]? = some task' → task'.loads location = true → j = i

/-- How the files stand, with the turns that are left to each. -/
structure Pool.Sound (paths : List Files.Raw) (left : Nat → Nat) (pool : Pool) : Prop where
  shared : pool.shared.Sound o files
  length : pool.tasks.length = paths.length
  tasks : ∀ i path, paths[i]? = some path →
    ∃ task : Task, pool.tasks[i]? = some task ∧ task.Sound o files pool i path (left i)
  stopped : pool.shared.stopped = true → setup.failFast = true ∧ ∃ i, pool.IsBad i
  loads : pool.LoadsOnce

/-- The files stand well, and a turn of this one has brought them nearer to their end. -/
def Pool.Nearer (paths : List Files.Raw) (left : Nat → Nat) (i : Nat) (pool : Pool) : Prop :=
  ∃ left', pool.Sound o files paths left' ∧ (∀ j, left' j ≤ left j) ∧ left' i < left i

variable {o files} {pool pool' : Pool} {paths : List Files.Raw} {left : Nat → Nat} {i : Nat} {path : Files.Raw}

theorem Pool.Fits.mono (hbad : ∀ j, pool.IsBad j → pool'.IsBad j) {r : FileResult}
    (h : pool.Fits o files i path r) : pool'.Fits o files i path r := by
  rcases h with h | ⟨hpassed, hfast, j, hne, hj⟩
  · exact .inl h
  · exact .inr ⟨hpassed, hfast, j, hne, hbad j hj⟩

theorem Pool.Awaits.mono {location : String} {n : Nat} {next : Except Failure Schema.Compiled → Job FileResult}
    (h : pool.Awaits o files i path location n next) (hbad : ∀ j, pool.IsBad j → pool'.IsBad j)
    (hgrows : pool.shared.kept.Grows pool'.shared.kept) : pool'.Awaits o files i path location n next :=
  fun κ answer hgrows' hcomes =>
    (h κ answer (hgrows.trans hgrows') hcomes).imp (fun _ => Pool.Fits.mono hbad) (Nat.le_refl n)

/-- What a file may wait for is still under way. -/
theorem Task.Sound.mono {n : Nat} {task : Task} (h : task.Sound o files pool i path n)
    (hbad : ∀ j, pool.IsBad j → pool'.IsBad j) (hgrows : pool.shared.kept.Grows pool'.shared.kept)
    (hloading : ∀ location next, task = .awaiting location next → pool.isLoading location = true →
      pool'.isLoading location = true) : task.Sound o files pool' i path n := by
  have hfits : ∀ r, pool.Fits o files i path r → pool'.Fits o files i path r := fun r => Pool.Fits.mono hbad
  cases h with
  | queued hopens => exact .queued hopens
  | task hopens => exact .task hopens
  | begun hopens => exact .begun hopens
  | running hleads => exact .running ((hleads.imp hfits (Nat.le_refl _)).grows hgrows)
  | loading hsource hawaits => exact .loading hsource (hawaits.mono hbad hgrows)
  | awaiting hwait hawaits => exact .awaiting (hloading _ _ rfl hwait) (hawaits.mono hbad hgrows)
  | ended h => exact .ended (hfits _ h)

section

variable {shared : Shared} {task task' : Task}

theorem getElem?_setTask_self (htask : pool.tasks[i]? = some task) :
    (({ pool with shared } : Pool).setTask i task').tasks[i]? = some task' :=
  List.getElem?_set_self (List.getElem?_eq_some_iff.mp htask).1

theorem getElem?_setTask_ne {j : Nat} (h : j ≠ i) :
    (({ pool with shared } : Pool).setTask i task').tasks[j]? = pool.tasks[j]? :=
  List.getElem?_set_ne h.symm

theorem Pool.IsBad.setTask {j : Nat} (h : pool.IsBad j) (htask : pool.tasks[i]? = some task)
    (hhas : ∀ r, task.Has r → task'.Has r) : (({ pool with shared } : Pool).setTask i task').IsBad j := by
  obtain ⟨found, r, hfound, hr, hbad⟩ := h
  by_cases hij : j = i
  · subst hij
    rw [htask] at hfound
    cases hfound
    exact ⟨task', r, getElem?_setTask_self htask, hhas r hr, hbad⟩
  · exact ⟨found, r, (getElem?_setTask_ne hij).trans hfound, hr, hbad⟩

theorem isLoading_setTask {location : String} (h : pool.isLoading location = true)
    (htask : pool.tasks[i]? = some task) (hloads : task.loads location = false) :
    (({ pool with shared } : Pool).setTask i task').isLoading location = true := by
  obtain ⟨found, hmem, hfound⟩ := List.any_eq_true.mp h
  obtain ⟨j, hj⟩ := List.mem_iff_getElem?.mp hmem
  have hij : j ≠ i := by
    rintro rfl
    cases htask.symm.trans hj
    cases hloads.symm.trans hfound
  exact List.any_eq_true.mpr ⟨found, List.mem_of_getElem? ((getElem?_setTask_ne hij).trans hj), hfound⟩

/-- A file begins to load only where nothing is kept and no other loads. -/
theorem Pool.LoadsOnce.setTask (h : pool.LoadsOnce) (htask : pool.tasks[i]? = some task)
    (hkept : shared.kept = pool.shared.kept)
    (hloads : ∀ location, task'.loads location = true →
      pool.shared.kept location = none ∧ pool.isLoading location = false) :
    (({ pool with shared } : Pool).setTask i task').LoadsOnce := by
  have hidle {location : String} {k : Nat} {other : Task} (hother : pool.tasks[k]? = some other)
      (hotherLoads : other.loads location = true) : ¬task'.loads location = true := fun hnew =>
    List.any_eq_false.mp (hloads location hnew).2 other (List.mem_of_getElem? hother) hotherLoads
  intro location j found hfound hfoundLoads
  show shared.kept location = none ∧ _
  rw [hkept]
  by_cases hji : j = i
  · subst hji
    rw [getElem?_setTask_self htask] at hfound
    cases hfound
    refine ⟨(hloads location hfoundLoads).1, fun k other hother hotherLoads => ?_⟩
    by_contra hkj
    rw [getElem?_setTask_ne hkj] at hother
    exact hidle hother hotherLoads hfoundLoads
  · rw [getElem?_setTask_ne hji] at hfound
    obtain ⟨hlocation, honly⟩ := h location j found hfound hfoundLoads
    refine ⟨hlocation, fun k other hother hotherLoads => ?_⟩
    by_cases hki : k = i
    · subst hki
      rw [getElem?_setTask_self htask] at hother
      cases hother
      exact absurd hotherLoads (hidle hfound hfoundLoads)
    · rw [getElem?_setTask_ne hki] at hother
      exact honly k other hother hotherLoads

/-- One file goes on, and nobody is left waiting for it. -/
theorem Pool.Sound.setTask (h : pool.Sound o files paths left) (hi : paths[i]? = some path)
    (htask : pool.tasks[i]? = some task) (hhas : ∀ r, task.Has r → task'.Has r)
    (hwaited : ∀ location, task.loads location = false)
    (hloads : ∀ location, task'.loads location = true →
      pool.shared.kept location = none ∧ pool.isLoading location = false)
    (hshared : shared.Sound o files) (hkept : shared.kept = pool.shared.kept)
    (hstopped : shared.stopped = true →
      pool.shared.stopped = true ∨ setup.failFast = true ∧ ∃ r, task'.Has r ∧ r.status.isBad = true)
    {n : Nat} (hsound : task'.Sound o files pool i path n) (hn : n < left i) :
    (({ pool with shared } : Pool).setTask i task').Nearer o files paths left i := by
  have hbad : ∀ j, pool.IsBad j → (({ pool with shared } : Pool).setTask i task').IsBad j :=
    fun j hj => hj.setTask htask hhas
  have hgrows : pool.shared.kept.Grows shared.kept := hkept ▸ Kept.Grows.refl _
  have hloading : ∀ location, pool.isLoading location = true →
      (({ pool with shared } : Pool).setTask i task').isLoading location = true :=
    fun location hwait => isLoading_setTask hwait htask (hwaited location)
  refine ⟨Function.update left i n, ⟨hshared, ?_, ?_, ?_, ?_⟩, ?_, ?_⟩
  · rw [← h.length]
    exact List.length_set
  · intro j path' hj
    by_cases hij : j = i
    · subst hij
      rw [hi] at hj
      cases hj
      rw [Function.update_self]
      exact ⟨task', getElem?_setTask_self htask, hsound.mono hbad hgrows fun location _ _ => hloading location⟩
    · rw [Function.update_of_ne hij]
      obtain ⟨other, hother, hsound'⟩ := h.tasks j path' hj
      exact ⟨other, (getElem?_setTask_ne hij).trans hother,
        hsound'.mono hbad hgrows fun location _ _ => hloading location⟩
  · intro hstop
    rcases hstopped hstop with hstop | ⟨hfast, r, hr, hisBad⟩
    · obtain ⟨hfast, j, hj⟩ := h.stopped hstop
      exact ⟨hfast, j, hbad j hj⟩
    · exact ⟨hfast, i, task', r, getElem?_setTask_self htask, hr, hisBad⟩
  · exact h.loads.setTask htask hkept hloads
  · intro j
    by_cases hij : j = i
    · rw [hij, Function.update_self]
      exact Nat.le_of_lt hn
    · exact Nat.le_of_eq (Function.update_of_ne hij n left)
  · rw [Function.update_self]
    exact hn

end

theorem advance_ask {permits : Nat} {op : Op} {next : op.Answer → Job FileResult}
    (hop : ∀ source, op ≠ .load source) (h : pool.tasks[i]? = some (.running (.ask op next))) :
    pool.advance setup permits i = op.perform setup pool.shared >>= fun found =>
      pure (({ pool with shared := found.2 } : Pool).setTask i (.running (next found.1))) := by
  cases op with
  | load source => exact absurd rfl (hop source)
  | _ => simp only [Pool.advance, h]

/-- Questions that anyone may ask. -/
theorem Pool.Sound.advance_ask {permits n : Nat} {op : Op} {next : op.Answer → Job FileResult}
    (h : pool.Sound o files paths left) (hi : paths[i]? = some path)
    (htask : pool.tasks[i]? = some (.running (.ask op next))) (hop : ∀ source, op ≠ .load source)
    (hproper : o.Proper files pool.shared.kept op)
    (hnext : ∀ answer, o.Admits files pool.shared.kept op answer →
      (Task.running (next answer)).Sound o files pool i path n)
    (hn : n < left i) (w : σ) : ((pool.advance setup permits i).run w).1.Nearer o files paths left i := by
  rw [Batch.advance_ask hop htask]
  obtain ⟨hadmits, hshared, hkept, hstopped⟩ := h.shared.perform hop hproper w
  have hhas : ∀ r, ¬ (Task.running (.ask op next)).Has r := by
    intro r hr
    rcases hr.eq_of_ask with rfl | ⟨finished, rfl⟩ <;> exact hproper
  exact h.setTask hi htask (fun r hr => absurd hr (hhas r)) (fun _ => rfl) nofun hshared hkept
    (fun hstop => .inl (hstopped ▸ hstop)) (hnext _ hadmits) hn

theorem advance_done {permits : Nat} {r : FileResult} (h : pool.tasks[i]? = some (.running (.done r))) :
    pool.advance setup permits i = pure (pool.setTask i (.ended r)) := by
  simp only [Pool.advance, h]

/-- The file has its result, and makes it known. -/
theorem Pool.Sound.advance_settled {permits n : Nat} {r : FileResult} {job : Job FileResult}
    (h : pool.Sound o files paths left) (hi : paths[i]? = some path) (htask : pool.tasks[i]? = some (.running job))
    (hr : pool.Fits o files i path r) (hsettled : Settled setup.failFast r n job) (hn : left i = 2 * n + 1) (w : σ) :
    ((pool.advance setup permits i).run w).1.Nearer o files paths left i := by
  cases hsettled with
  | done =>
    rw [advance_done htask]
    refine h.setTask hi htask ?_ (fun _ => rfl) nofun h.shared rfl .inl (.ended hr) (by omega)
    rintro r' ⟨failFast, k, hsettled⟩
    cases hsettled
    rfl
  | @finish n finished next hsettled =>
    rw [Batch.advance_ask (by simp) htask]
    refine h.setTask hi htask ?_ (fun _ => rfl) nofun ⟨h.shared.loaded, h.shared.slots⟩ rfl .inl
      (.running (.settled hr hsettled)) (by omega)
    rintro r' ⟨failFast, k, hsettled'⟩
    cases hsettled' with
    | finish hsettled' => exact ⟨failFast, _, hsettled'⟩
  | @signal n next hfast hbad hsettled =>
    rw [Batch.advance_ask (by simp) htask]
    refine h.setTask hi htask ?_ (fun _ => rfl) nofun ⟨h.shared.loaded, h.shared.slots⟩ rfl
      (fun _ => .inr ⟨hfast, r, ⟨setup.failFast, n, hsettled⟩, hbad⟩) (.running (.settled hr hsettled)) (by omega)
    rintro r' ⟨failFast, k, hsettled'⟩
    cases hsettled' with
    | signal _ _ hsettled' => exact ⟨failFast, _, hsettled'⟩

theorem advance_load_of_some {permits : Nat} {source : Source}
    {next : Except Failure Schema.Compiled → Job FileResult} {schema : Schema.Compiled}
    (h : pool.tasks[i]? = some (.running (.ask (.load source) next)))
    (hkept : pool.shared.cache.get? source.key = some schema) :
    pool.advance setup permits i = pure (pool.setTask i (.running (next (.ok schema)))) := by
  simp only [Pool.advance, h, hkept]

theorem advance_load_of_none {permits : Nat} {source : Source}
    {next : Except Failure Schema.Compiled → Job FileResult}
    (h : pool.tasks[i]? = some (.running (.ask (.load source) next)))
    (hkept : pool.shared.cache.get? source.key = none) :
    pool.advance setup permits i = pure (pool.setTask i
      (if pool.isLoading source.key then .awaiting source.key next else .loading source next)) := by
  simp only [Pool.advance, h, hkept]

theorem advance_loading {permits : Nat} {source : Source} {next : Except Failure Schema.Compiled → Job FileResult}
    (h : pool.tasks[i]? = some (.loading source next)) :
    pool.advance setup permits i = setup.supply.schema source >>= fun loaded =>
      pure ((pool.deliver source.key loaded).setTask i (.running (next (Cache.shareOf loaded)))) := by
  simp only [Pool.advance, h]

theorem advance_queued {permits : Nat} {path : Files.Raw} (h : pool.tasks[i]? = some (.queued path))
    (hfree : pool.active < max permits 1) :
    pool.advance setup permits i = pure (pool.setTask i (.running (setup.task path))) := by
  simp only [Pool.advance, h, if_pos hfree]

/-- The file asks for a schema: one that is kept, one that is being loaded, or one that is to be loaded. -/
theorem Pool.Sound.advance_load {permits n : Nat} {source : Source}
    {next : Except Failure Schema.Compiled → Job FileResult} (h : pool.Sound o files paths left)
    (hi : paths[i]? = some path) (htask : pool.tasks[i]? = some (.running (.ask (.load source) next)))
    (hsource : source ∈ o.sources files) (hnext : pool.Awaits o files i path source.key n next)
    (hn : left i = 2 * (n + 1) + 1) (w : σ) : ((pool.advance setup permits i).run w).1.Nearer o files paths left i := by
  have hhas : ∀ r, ¬ (Task.running (.ask (.load source) next)).Has r := fun r hr =>
    absurd hr.eq_of_ask (by simp)
  cases hkept : pool.shared.cache.get? source.key with
  | some schema =>
    rw [advance_load_of_some htask hkept]
    exact h.setTask hi htask (fun r hr => absurd hr (hhas r)) (fun _ => rfl) nofun h.shared rfl .inl
      (.running (hnext _ _ (.refl _) (h.shared.comes hkept))) (by omega)
  | none =>
    rw [advance_load_of_none htask hkept]
    split
    · rename_i hwait
      exact h.setTask hi htask (fun r hr => absurd hr (hhas r)) (fun _ => rfl) nofun h.shared rfl .inl
        (.awaiting hwait hnext) (by omega)
    · rename_i hidle
      refine h.setTask hi htask (fun r hr => absurd hr (hhas r)) (fun _ => rfl) (fun location hloads => ?_) h.shared rfl
        .inl (.loading hsource hnext) (by omega)
      cases of_decide_eq_true hloads
      exact ⟨hkept, Bool.not_eq_true _ ▸ hidle⟩

section

variable {location : String} {loaded : Except Failure Schema.Compiled}

theorem receive_awaiting (l : String) (next : Except Failure Schema.Compiled → Job FileResult)
    (answer : Except Failure Schema.Compiled) : (Task.awaiting l next).receive location answer =
      if l = location then .running (next answer) else .awaiting l next := rfl

theorem getElem?_deliver (j : Nat) : (pool.deliver location loaded).tasks[j]? =
    pool.tasks[j]?.map (Task.receive location (Cache.shareOf loaded)) := List.getElem?_map

theorem loads_receive (task : Task) (answer : Except Failure Schema.Compiled) (other : String) :
    (task.receive location answer).loads other = task.loads other := by
  cases task with
  | awaiting l next =>
    rw [receive_awaiting]
    split <;> rfl
  | _ => rfl

theorem isLoading_deliver (other : String) : (pool.deliver location loaded).isLoading other = pool.isLoading other := by
  unfold Pool.isLoading Pool.deliver
  rw [List.any_map]
  exact congrArg pool.tasks.any (funext fun task => loads_receive task _ other)

theorem Pool.IsBad.deliver {j : Nat} (h : pool.IsBad j) : (pool.deliver location loaded).IsBad j := by
  obtain ⟨task, r, htask, hr, hbad⟩ := h
  refine ⟨task.receive location (Cache.shareOf loaded), r, ?_, ?_, hbad⟩
  · rw [getElem?_deliver, htask]
    rfl
  · cases task with
    | awaiting l next => exact hr.elim
    | _ => exact hr

end

/-- What a file has waited for comes to it. -/
theorem Task.Sound.receive {n : Nat} {task : Task} {source : Source} (h : task.Sound o files pool i path n)
    (hsource : source ∈ o.sources files) (hnone : pool.shared.kept source.key = none)
    (hkept : pool'.shared = pool.shared.keep source.key (o.loaded source)) (hbad : ∀ j, pool.IsBad j → pool'.IsBad j)
    (hloading : ∀ location, location ≠ source.key → pool.isLoading location = true → pool'.isLoading location = true) :
    ∃ k, k ≤ n ∧ (task.receive source.key (Cache.shareOf (o.loaded source))).Sound o files pool' i path k := by
  have hgrows : pool.shared.kept.Grows pool'.shared.kept := hkept ▸ Shared.grows_keep hnone _
  cases task with
  | awaiting location next =>
    rw [receive_awaiting]
    by_cases hlocation : location = source.key
    · subst hlocation
      rw [if_pos rfl]
      cases h with
      | @awaiting n _ _ _ hawaits =>
        have hcomes := Shared.Sound.comes_keep (s := pool.shared) hsource hnone
        rw [← hkept] at hcomes
        exact ⟨2 * n + 1, Nat.le_succ _,
          .running ((hawaits _ _ hgrows hcomes).imp (fun _ => Pool.Fits.mono hbad) (Nat.le_refl n))⟩
    · rw [if_neg hlocation]
      refine ⟨n, Nat.le_refl n, h.mono hbad hgrows fun location' next' heq => ?_⟩
      cases heq
      exact hloading location hlocation
  | _ => exact ⟨n, Nat.le_refl n, h.mono hbad hgrows nofun⟩

section

variable {source : Source} {next : Except Failure Schema.Compiled → Job FileResult}

/-- The files when what one of them was loading has come. -/
def Pool.loadedFor (pool : Pool) (i : Nat) (source : Source) (loaded : Except Failure Schema.Compiled)
    (next : Except Failure Schema.Compiled → Job FileResult) : Pool :=
  (pool.deliver source.key loaded).setTask i (.running (next (Cache.shareOf loaded)))

theorem getElem?_deliver_loading {location : String} {loaded : Except Failure Schema.Compiled}
    (htask : pool.tasks[i]? = some (.loading source next)) :
    (pool.deliver location loaded).tasks[i]? = some (.loading source next) := by
  rw [getElem?_deliver, htask]
  rfl

theorem getElem?_loadedFor_self {loaded : Except Failure Schema.Compiled}
    (htask : pool.tasks[i]? = some (.loading source next)) :
    (pool.loadedFor i source loaded next).tasks[i]? = some (.running (next (Cache.shareOf loaded))) :=
  getElem?_setTask_self (getElem?_deliver_loading htask)

theorem getElem?_loadedFor_ne {loaded : Except Failure Schema.Compiled} {j : Nat} (h : j ≠ i) :
    (pool.loadedFor i source loaded next).tasks[j]? =
      pool.tasks[j]?.map (Task.receive source.key (Cache.shareOf loaded)) :=
  (getElem?_setTask_ne h).trans (getElem?_deliver j)

theorem Pool.LoadsOnce.loadedFor {loaded : Except Failure Schema.Compiled} (h : pool.LoadsOnce)
    (htask : pool.tasks[i]? = some (.loading source next)) : (pool.loadedFor i source loaded next).LoadsOnce := by
  have hbefore {location : String} {j : Nat} {task : Task}
      (hj : (pool.loadedFor i source loaded next).tasks[j]? = some task) (hloads : task.loads location = true) :
      j ≠ i ∧ ∃ task₀, pool.tasks[j]? = some task₀ ∧ task₀.loads location = true := by
    have hne : j ≠ i := by
      rintro rfl
      rw [getElem?_loadedFor_self htask] at hj
      cases hj
      cases hloads
    rw [getElem?_loadedFor_ne hne] at hj
    obtain ⟨task₀, htask₀, rfl⟩ := Option.map_eq_some_iff.mp hj
    exact ⟨hne, task₀, htask₀, (loads_receive task₀ _ location).symm.trans hloads⟩
  intro location j task hj hloads
  obtain ⟨hne, task₀, htask₀, hloads₀⟩ := hbefore hj hloads
  obtain ⟨hnone, honly⟩ := h location j task₀ htask₀ hloads₀
  have hlocation : location ≠ source.key := by
    rintro rfl
    exact hne (honly i _ htask (decide_eq_true rfl)).symm
  refine ⟨(Shared.kept_keep_of_ne hlocation loaded).trans hnone, fun k other hk hother => ?_⟩
  obtain ⟨-, other₀, hother₀, hotherLoads₀⟩ := hbefore hk hother
  exact honly k other₀ hother₀ hotherLoads₀

theorem Pool.IsBad.loadedFor {j : Nat} (h : pool.IsBad j) (htask : pool.tasks[i]? = some (.loading source next))
    (loaded : Except Failure Schema.Compiled) : (pool.loadedFor i source loaded next).IsBad j :=
  h.deliver.setTask (getElem?_deliver_loading htask) fun _ hr => hr.elim

theorem isLoading_loadedFor {location : String} (h : pool.isLoading location = true)
    (htask : pool.tasks[i]? = some (.loading source next)) (hne : location ≠ source.key)
    (loaded : Except Failure Schema.Compiled) : (pool.loadedFor i source loaded next).isLoading location = true :=
  isLoading_setTask ((isLoading_deliver location).trans h) (getElem?_deliver_loading htask) (decide_eq_false hne.symm)

/-- The file goes on with what has come, and so do those that have waited for it. All others stand as they did. -/
theorem Pool.Sound.task_loadedFor {n : Nat} (h : pool.Sound o files paths left) (hi : paths[i]? = some path)
    (htask : pool.tasks[i]? = some (.loading source next)) (hsource : source ∈ o.sources files)
    (hawaits : pool.Awaits o files i path source.key n next) (hleft : left i = 2 * n + 2) (j : Nat) :
    ∃ k, k ≤ left j ∧ (j = i → k < left i) ∧ ∀ path, paths[j]? = some path →
      ∃ task : Task, (pool.loadedFor i source (o.loaded source) next).tasks[j]? = some task ∧
        task.Sound o files (pool.loadedFor i source (o.loaded source) next) j path k := by
  have hnone : pool.shared.kept source.key = none := (h.loads source.key i _ htask (decide_eq_true rfl)).1
  have hbad : ∀ j, pool.IsBad j → (pool.loadedFor i source (o.loaded source) next).IsBad j :=
    fun j hj => hj.loadedFor htask _
  by_cases hji : j = i
  · subst hji
    refine ⟨2 * n + 1, by omega, fun _ => by omega, fun path' hpath => ⟨_, getElem?_loadedFor_self htask, ?_⟩⟩
    cases hi.symm.trans hpath
    have hcomes := Shared.Sound.comes_keep (s := pool.shared) hsource hnone
    exact .running ((hawaits _ _ (Shared.grows_keep hnone _) hcomes).imp
      (fun _ => Pool.Fits.mono hbad) (Nat.le_refl n))
  · cases hj : paths[j]? with
    | none => exact ⟨left j, Nat.le_refl _, fun heq => absurd heq hji, nofun⟩
    | some path' =>
      obtain ⟨other, hother, hsound⟩ := h.tasks j path' hj
      obtain ⟨k, hk, hsound⟩ := hsound.receive hsource hnone rfl hbad fun location hne hwait =>
        isLoading_loadedFor hwait htask hne _
      refine ⟨k, hk, fun heq => absurd heq hji, fun path'' hpath => ⟨_, ?_, Option.some.inj hpath ▸ hsound⟩⟩
      rw [getElem?_loadedFor_ne hji, hother]
      rfl

/-- The schema that was being loaded for the file has come, for it and for those that wait. -/
theorem Pool.Sound.advance_loading {permits : Nat} (h : pool.Sound o files paths left)
    (hi : paths[i]? = some path) (htask : pool.tasks[i]? = some (.loading source next)) (w : σ) :
    ((pool.advance setup permits i).run w).1.Nearer o files paths left i := by
  rw [Batch.advance_loading htask]
  change (pool.loadedFor i source ((setup.supply.schema source).run w).1 next).Nearer o files paths left i
  rw [o.schema source w]
  obtain ⟨task, hfound, hsound⟩ := h.tasks i path hi
  cases htask.symm.trans hfound
  generalize hleft : left i = m at hsound
  cases hsound with
  | loading hsource hawaits =>
    have hnone : pool.shared.kept source.key = none := (h.loads source.key i _ htask (decide_eq_true rfl)).1
    choose left' hle hlt htasks using h.task_loadedFor hi htask hsource hawaits hleft
    refine ⟨left', ⟨h.shared.keep hsource hnone, ?_, htasks, fun hstop => ?_, h.loads.loadedFor htask⟩, hle, hlt i rfl⟩
    · rw [← h.length]
      exact List.length_set.trans (List.length_map ..)
    · obtain ⟨hfast, j, hj⟩ := h.stopped hstop
      exact ⟨hfast, j, hj.loadedFor htask _⟩

end

/-- The file takes its permit. -/
theorem Pool.Sound.advance_queued {permits n : Nat} (h : pool.Sound o files paths left) (hi : paths[i]? = some path)
    (htask : pool.tasks[i]? = some (.queued path)) (hopens : Opens o files path n) (hfree : pool.active < max permits 1)
    (hn : left i = 2 * n + 6) (w : σ) : ((pool.advance setup permits i).run w).1.Nearer o files paths left i := by
  rw [Batch.advance_queued htask hfree]
  exact h.setTask hi htask (fun _ hr => hr.elim) (fun _ => rfl) nofun h.shared rfl .inl (.task hopens) (by omega)

theorem task_eq (path : Files.Raw) : setup.task path = .ask .clock fun start => setup.begun path start := rfl

theorem begun_eq (path : Files.Raw) (start : Nat) : setup.begun path start = .ask .stopped fun stopped =>
    if stopped then setup.close start (skippedResult path "fail-fast")
    else (setup.validation path).bind (setup.close start) := rfl

/-- The file is told whether to go on. If not, then because of a bad one, which is not this one. -/
theorem Pool.Sound.advance_begun {permits n start : Nat} (h : pool.Sound o files paths left)
    (hi : paths[i]? = some path) (htask : pool.tasks[i]? = some (.running (setup.begun path start)))
    (hopens : Opens o files path n) (hn : left i = 2 * n + 3) (w : σ) :
    ((pool.advance setup permits i).run w).1.Nearer o files paths left i := by
  have hhas : ∀ r, ¬ (Task.running (setup.begun path start)).Has r := fun r hr =>
    absurd hr.eq_of_ask (by simp)
  rw [begun_eq] at htask
  rw [Batch.advance_ask (by simp) htask]
  obtain ⟨hon, hpast⟩ := hopens pool.shared.kept start
  refine h.setTask hi htask (fun r hr => absurd hr (hhas r)) (fun _ => rfl) nofun h.shared rfl .inl ?_
    (show 2 * n + 1 < left i by omega)
  refine .running ?_
  change Leads o files _ _ n (if pool.shared.stopped = true then _ else _)
  split
  · rename_i hstop
    obtain ⟨hfast, j, hj⟩ := h.stopped hstop
    -- The file itself has no result yet.
    have hne : j ≠ i := by
      rintro rfl
      obtain ⟨task, r, hfound, hr, -⟩ := hj
      rw [htask] at hfound
      cases hfound
      exact hhas r hr
    exact hpast.imp (fun r hr => .inr ⟨hr, hfast, j, hne, hj⟩) (Nat.le_refl n)
  · exact hon.imp (fun r hr => .inl hr) (Nat.le_refl n)

/-- A file on the way to its result goes on. -/
theorem Pool.Sound.advance_running {permits n : Nat} {job : Job FileResult} (h : pool.Sound o files paths left)
    (hi : paths[i]? = some path) (htask : pool.tasks[i]? = some (.running job))
    (hleads : Leads o files (pool.Fits o files i path) pool.shared.kept n job) (hn : left i = 2 * n + 1) (w : σ) :
    ((pool.advance setup permits i).run w).1.Nearer o files paths left i := by
  cases hleads with
  | settled hr hsettled => exact h.advance_settled hi htask hr hsettled hn w
  | @ask _ n op next hproper hnext =>
    by_cases hload : ∃ source, op = .load source
    · obtain ⟨source, rfl⟩ := hload
      exact h.advance_load hi htask hproper hnext hn w
    · exact h.advance_ask hi htask (fun source heq => hload ⟨source, heq⟩) hproper
        (fun answer hanswer => .running (hnext _ answer (.refl _) hanswer)) (by omega) w

/-- The file has ended, or has to wait for others. -/
def Pool.Waits (permits : Nat) (pool : Pool) (i : Nat) : Prop :=
  match pool.tasks[i]? with
  | some (.queued _) => max permits 1 ≤ pool.active
  | some (.running _) | some (.loading _ _) => False
  | some (.awaiting _ _) | some (.ended _) | none => True

theorem advance_of_waits {permits : Nat} (h : pool.Waits permits i) :
    pool.advance setup permits i = pure pool := by
  unfold Pool.Waits at h
  unfold Pool.advance
  split at h
  · rename_i htask
    simp only [htask, if_neg (Nat.not_lt.mpr h)]
  · exact h.elim
  · exact h.elim
  all_goals rename_i htask; simp only [htask]

/-- A turn of a file that need not wait brings it nearer to its end. -/
theorem Pool.Sound.advance {permits : Nat} (h : pool.Sound o files paths left) (hwaits : ¬ pool.Waits permits i) (w : σ) :
    ((pool.advance setup permits i).run w).1.Nearer o files paths left i := by
  cases hi : paths[i]? with
  | none =>
    have htask : pool.tasks[i]? = none := by
      rw [List.getElem?_eq_none_iff, h.length]
      exact List.getElem?_eq_none_iff.mp hi
    simp only [Pool.Waits, htask, not_true_eq_false] at hwaits
  | some path =>
    obtain ⟨task, htask, hsound⟩ := h.tasks i path hi
    simp only [Pool.Waits, htask] at hwaits
    generalize hleft : left i = k at hsound
    cases hsound with
    | queued hopens => exact h.advance_queued hi htask hopens (Nat.not_le.mp hwaits) hleft w
    | @task n hopens =>
      rw [task_eq] at htask
      exact h.advance_ask hi htask nofun trivial (fun start _ => .begun hopens)
        (show 2 * n + 3 < left i by omega) w
    | begun hopens => exact h.advance_begun hi htask hopens hleft w
    | running hleads => exact h.advance_running hi htask hleads hleft w
    | loading _ _ => exact h.advance_loading hi htask w
    | awaiting _ _ => exact absurd trivial hwaits
    | ended _ => exact absurd trivial hwaits

/-- As long as not all have ended there is a file that need not wait. -/
theorem Pool.Sound.exists_not_waits (h : pool.Sound o files paths left) (permits : Nat)
    (hends : ∃ task ∈ pool.tasks, task.result? = none) : ∃ i, i < paths.length ∧ ¬ pool.Waits permits i := by
  by_contra hall
  -- If all wait, then none loads; so none waits for a schema, no permit is out, and the next file may begin.
  have hat : ∀ task ∈ pool.tasks, ∃ i path n,
      pool.tasks[i]? = some task ∧ task.Sound o files pool i path n ∧ pool.Waits permits i := by
    intro task hmem
    obtain ⟨i, hi⟩ := List.mem_iff_getElem?.mp hmem
    have hlt : i < paths.length := h.length ▸ (List.getElem?_eq_some_iff.mp hi).1
    obtain ⟨found, hfound, hsound⟩ := h.tasks i paths[i] (List.getElem?_eq_getElem hlt)
    rw [hi] at hfound
    cases hfound
    exact ⟨i, paths[i], left i, hi, hsound, by_contra fun hwaits => hall ⟨i, hlt, hwaits⟩⟩
  have hloading : ∀ location, pool.isLoading location = false := by
    intro location
    refine List.any_eq_false.mpr fun task hmem hloads => ?_
    obtain ⟨i, path, n, hi, -, hwaits⟩ := hat task hmem
    cases task with
    | loading source next => simp only [Pool.Waits, hi] at hwaits
    | _ => cases hloads
  have hinactive : ∀ task ∈ pool.tasks, task.isActive = false := by
    intro task hmem
    obtain ⟨i, path, n, hi, hsound, hwaits⟩ := hat task hmem
    cases task with
    | queued path => rfl
    | ended r => rfl
    | running job => simp only [Pool.Waits, hi] at hwaits
    | loading source next => simp only [Pool.Waits, hi] at hwaits
    | awaiting location next =>
      cases hsound with
      | awaiting hwait _ =>
        rw [hloading] at hwait
        cases hwait
  have hactive : pool.active = 0 :=
    List.countP_eq_zero.mpr fun task hmem => Bool.not_eq_true _ ▸ hinactive task hmem
  obtain ⟨task, hmem, hnone⟩ := hends
  obtain ⟨i, path, n, hi, -, hwaits⟩ := hat task hmem
  cases task with
  | queued path =>
    simp only [Pool.Waits, hi, hactive] at hwaits
    exact absurd (Nat.le_trans (Nat.le_max_right permits 1) hwaits) (by decide)
  | ended r => cases hnone
  | _ => cases hinactive _ hmem

/-- Before any file is begun. -/
theorem Pool.sound_begin (hpaths : paths ⊆ files) (hshared : s.Sound o files) (hstopped : s.stopped = false) :
    ∃ left, (Pool.begin paths s).Sound o files paths left := by
  have hbound : ∀ path, ∃ n, path ∈ paths → Opens o files path n := by
    intro path
    by_cases hpath : path ∈ paths
    · obtain ⟨n, hn⟩ := exists_leads_begun o (hpaths hpath)
      exact ⟨n, fun _ => hn⟩
    · exact ⟨0, fun hmem => absurd hmem hpath⟩
  choose bound hopens using hbound
  refine ⟨fun i => 2 * (paths[i]?.elim 0 bound) + 6, ⟨hshared, List.length_map .., ?_, fun hstop => ?_, ?_⟩⟩
  · intro i path hi
    refine ⟨.queued path, ?_, ?_⟩
    · simp only [Pool.begin, List.getElem?_map, hi, Option.map_some]
    · simp only [hi, Option.elim_some]
      exact .queued (hopens path (List.mem_of_getElem? hi))
  · exact absurd hstop (hstopped ▸ Bool.false_ne_true)
  · intro location i task htask hloads
    obtain ⟨path, -, rfl⟩ := List.mem_map.mp (List.mem_of_getElem? htask)
    cases hloads

end Schematron.Batch
