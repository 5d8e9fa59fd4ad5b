import Mathlib.Algebra.Order.BigOperators.Group.Finset
import Schematron.Proofs.Batch.Turns
import Schematron.Proofs.Loading.Resolution

/-!
The results of a batch do not depend on the order in which its files take turns: each is what the file comes
to alone, or the file is passed over because another one is bad. But schemas are kept by what is shown for their
paths, and where two that are named are shown alike, one may be taken for the other. As long as every file gets its
turn again and again, all come to an end; one after the other is one of the orders.
-/

namespace Schematron.Batch

open Schematron.Loading

variable {σ : Type} {setup : Setup (StateM σ)} {o : Outside setup} {files paths : List Files.Raw} {permits : Nat}
  {pool : Pool} {left : Nat → Nat} {s : Shared}

theorem follow_cons (i : Nat) (turns : List Nat) (w : σ) : (pool.follow setup permits (i :: turns)).run w =
    (((pool.advance setup permits i).run w).1.follow setup permits turns).run
      ((pool.advance setup permits i).run w).2 := rfl

theorem follow_append (turns turns' : List Nat) (w : σ) : (pool.follow setup permits (turns ++ turns')).run w =
    (((pool.follow setup permits turns).run w).1.follow setup permits turns').run
      ((pool.follow setup permits turns).run w).2 := by
  unfold Pool.follow
  rw [List.foldlM_append]
  rfl

theorem Pool.Sound.turn (h : pool.Sound o files paths left) (i : Nat) (w : σ) :
    ∃ left', ((pool.advance setup permits i).run w).1.Sound o files paths left' ∧ ∀ j, left' j ≤ left j := by
  by_cases hwaits : pool.Waits permits i
  · rw [advance_of_waits hwaits]
    exact ⟨left, h, fun j => Nat.le_refl _⟩
  · obtain ⟨left', h', hle, -⟩ := h.advance hwaits w
    exact ⟨left', h', hle⟩

theorem Pool.Sound.follow (h : pool.Sound o files paths left) (permits : Nat) (turns : List Nat) (w : σ) :
    ∃ left', ((pool.follow setup permits turns).run w).1.Sound o files paths left' ∧ ∀ j, left' j ≤ left j := by
  induction turns generalizing pool left w with
  | nil => exact ⟨left, h, fun j => Nat.le_refl _⟩
  | cons i turns ih =>
    obtain ⟨left', h', hle⟩ := h.turn i w
    obtain ⟨left'', h'', hle'⟩ := ih h' _
    rw [follow_cons]
    exact ⟨left'', h'', fun j => Nat.le_trans (hle' j) (hle j)⟩

theorem Pool.Sound.lt_of_not_waits (h : pool.Sound o files paths left) {i : Nat} (hwaits : ¬ pool.Waits permits i) :
    i < paths.length := by
  by_contra hge
  have htask : pool.tasks[i]? = none := List.getElem?_eq_none_iff.mpr (h.length ▸ Nat.not_lt.mp hge)
  simp only [Pool.Waits, htask, not_true_eq_false] at hwaits

/-- Where one who need not wait gets a turn, something is done. -/
theorem Pool.Sound.follow_lt (h : pool.Sound o files paths left) {i : Nat} (hwaits : ¬ pool.Waits permits i)
    {turns : List Nat} (hi : i ∈ turns) (w : σ) :
    ∃ left', ((pool.follow setup permits turns).run w).1.Sound o files paths left' ∧ (∀ j, left' j ≤ left j) ∧
      ∃ j < paths.length, left' j < left j := by
  induction turns generalizing w with
  | nil => cases hi
  | cons j turns ih =>
    rw [follow_cons]
    by_cases hj : pool.Waits permits j
    · rw [advance_of_waits hj]
      have hne : i ≠ j := by
        rintro rfl
        exact hwaits hj
      exact ih ((List.mem_cons.mp hi).resolve_left hne) w
    · obtain ⟨left', h', hle, hlt⟩ := h.advance hj w
      obtain ⟨left'', h'', hle'⟩ := h'.follow permits turns ((pool.advance setup permits j).run w).2
      exact ⟨left'', h'', fun k => Nat.le_trans (hle' k) (hle k), j, h.lt_of_not_waits hj,
        Nat.lt_of_le_of_lt (hle' j) hlt⟩

theorem eq_map_ended_or (tasks : List Task) :
    (∃ results : List FileResult, tasks = results.map .ended) ∨ ∃ task ∈ tasks, task.result? = none := by
  induction tasks with
  | nil => exact .inl ⟨[], rfl⟩
  | cons task tasks ih =>
    rcases ih with ⟨results, rfl⟩ | ⟨other, hmem, hnone⟩
    · cases task with
      | ended r => exact .inl ⟨r :: results, rfl⟩
      | _ => exact .inr ⟨_, List.mem_cons_self .., rfl⟩
    · exact .inr ⟨other, List.mem_cons_of_mem _ hmem, hnone⟩

/-- All have ended just where there are results. -/
theorem results?_eq_some_iff {results : List FileResult} :
    pool.results? = some results ↔ pool.tasks = results.map .ended := by
  unfold Pool.results?
  induction pool.tasks generalizing results with
  | nil => cases results <;> simp
  | cons task tasks ih =>
    rw [List.mapM_cons]
    cases task <;> cases results <;> simp [Task.result?, Option.bind_eq_some_iff, ih, and_comm]

/-- Every one of so many files gets a turn again and again. -/
def Fair (count : Nat) (turns : Nat → Nat) : Prop := ∀ i < count, ∀ n, ∃ k, n ≤ k ∧ turns k = i

theorem Pool.Sound.exists_results {turns : Nat → Nat} (h : pool.Sound o files paths left)
    (hfair : Fair paths.length turns) (permits n : Nat) (w : σ) : ∃ k results,
      ((pool.follow setup permits ((List.range' n k).map turns)).run w).1.results? = some results := by
  induction hbound : ∑ i ∈ Finset.range paths.length, left i using Nat.strong_induction_on
    generalizing pool left n w with
  | _ bound ih =>
    rcases eq_map_ended_or pool.tasks with ⟨results, htasks⟩ | hends
    · exact ⟨0, results, results?_eq_some_iff.mpr htasks⟩
    · obtain ⟨i, hi, hwaits⟩ := h.exists_not_waits permits hends
      obtain ⟨k, hk, rfl⟩ := hfair i hi n
      have hmem : turns k ∈ (List.range' n (k + 1 - n)).map turns :=
        List.mem_map_of_mem (List.mem_range'_1.mpr (by omega))
      obtain ⟨left', h', hle, j, hj, hlt⟩ := h.follow_lt hwaits hmem w
      have hfalls : ∑ i ∈ Finset.range paths.length, left' i < bound :=
        hbound ▸ Finset.sum_lt_sum (fun i _ => hle i) ⟨j, Finset.mem_range.mpr hj, hlt⟩
      obtain ⟨k', results, hresults⟩ := ih _ hfalls h' (n + (k + 1 - n)) _ rfl
      refine ⟨k + 1 - n + k', results, ?_⟩
      rw [← List.range'_append_1, List.map_append, follow_append]
      exact hresults

variable {w w' : σ}

/-- Some turns lead from here to there. -/
def Reaches (setup : Setup (StateM σ)) (permits : Nat) (pool : Pool) (w : σ) (pool' : Pool) (w' : σ) : Prop :=
  ∃ turns, (pool.follow setup permits turns).run w = (pool', w')

theorem Reaches.refl : Reaches setup permits pool w pool w := ⟨[], rfl⟩

theorem Reaches.trans {pool' pool'' : Pool} {w'' : σ} (h : Reaches setup permits pool w pool' w')
    (h' : Reaches setup permits pool' w' pool'' w'') : Reaches setup permits pool w pool'' w'' := by
  obtain ⟨turns, hturns⟩ := h
  obtain ⟨turns', hturns'⟩ := h'
  refine ⟨turns ++ turns', ?_⟩
  rw [follow_append, hturns]
  exact hturns'

theorem reaches_of_advance {pool' : Pool} {i : Nat} (h : (pool.advance setup permits i).run w = (pool', w')) :
    Reaches setup permits pool w pool' w' := by
  refine ⟨[i], ?_⟩
  rw [follow_cons, h]
  rfl

/-- Some files have ended, one is under way, and no other is begun. -/
def Pool.inTurn (before : List FileResult) (task : Task) (after : List Files.Raw) (s : Shared) : Pool :=
  ⟨before.map .ended ++ task :: after.map .queued, s⟩

section

variable {before : List FileResult} {after : List Files.Raw} {task task' : Task}

theorem getElem?_inTurn : (Pool.inTurn before task after s).tasks[before.length]? = some task := by
  simp [Pool.inTurn]

theorem setTask_inTurn :
    (Pool.inTurn before task after s).setTask before.length task' = Pool.inTurn before task' after s := by
  simp [Pool.inTurn, Pool.setTask]

@[simp] theorem isActive_queued (path : Files.Raw) : (Task.queued path).isActive = false := rfl

@[simp] theorem isActive_ended (r : FileResult) : (Task.ended r).isActive = false := rfl

theorem active_inTurn (h : task.isActive = false) : (Pool.inTurn before task after s).active = 0 := by
  simp [Pool.inTurn, Pool.active, List.countP_eq_zero, h]

@[simp] theorem loads_queued (location : String) (path : Files.Raw) : (Task.queued path).loads location = false := rfl

@[simp] theorem loads_ended (location : String) (r : FileResult) : (Task.ended r).loads location = false := rfl

theorem isLoading_inTurn {location : String} (h : task.loads location = false) :
    (Pool.inTurn before task after s).isLoading location = false := by
  simp [Pool.inTurn, Pool.isLoading, h]

theorem deliver_inTurn {location : String} {loaded : Except Failure Schema.Compiled} {source : Source}
    {next : Except Failure Schema.Compiled → Job FileResult} :
    (Pool.inTurn before (.loading source next) after s).deliver location loaded =
      Pool.inTurn before (.loading source next) after (s.keep location loaded) := by
  have hended : Task.receive location (Cache.shareOf loaded) ∘ Task.ended = Task.ended := rfl
  have hqueued : Task.receive location (Cache.shareOf loaded) ∘ Task.queued = Task.queued := rfl
  simp [Pool.inTurn, Pool.deliver, hended, hqueued, Task.receive]

theorem run_ask (op : Op) (next : op.Answer → Job FileResult) (s : Shared) (w : σ) :
    ((Job.ask op next).run setup s).run w = ((next ((op.perform setup s).run w).1.1).run setup
      ((op.perform setup s).run w).1.2).run ((op.perform setup s).run w).2 := rfl

/-- The job of a file, with no other under way, comes to the end that it comes to by itself. -/
theorem reaches_run (job : Job FileResult) (s : Shared) (w : σ) :
    Reaches setup permits (Pool.inTurn before (.running job) after s) w
      (Pool.inTurn before (.ended ((job.run setup s).run w).1.1) after ((job.run setup s).run w).1.2)
      ((job.run setup s).run w).2 := by
  induction job generalizing s w with
  | done r =>
    refine reaches_of_advance (i := before.length) ?_
    rw [advance_done getElem?_inTurn, setTask_inTurn]
    rfl
  | ask op next ih =>
    rw [run_ask]
    by_cases hload : ∃ source, op = .load source
    · obtain ⟨source, rfl⟩ := hload
      cases hkept : s.cache.get? source.key with
      | some schema =>
        rw [perform_load_of_some hkept]
        refine (reaches_of_advance (i := before.length) ?_).trans (ih (.ok schema) s w)
        rw [advance_load_of_some getElem?_inTurn hkept, setTask_inTurn]
        rfl
      | none =>
        -- A turn to begin the load, and one to bring it to its end.
        rw [perform_load_of_none hkept]
        have hbegins : Reaches setup permits (Pool.inTurn before (.running (.ask (.load source) next)) after s) w
            (Pool.inTurn before (.loading source next) after s) w := by
          refine reaches_of_advance (i := before.length) ?_
          rw [advance_load_of_none getElem?_inTurn hkept, isLoading_inTurn rfl, setTask_inTurn]
          rfl
        refine hbegins.trans ((reaches_of_advance (i := before.length) ?_).trans (ih _ _ _))
        rw [advance_loading getElem?_inTurn]
        change (((Pool.inTurn _ _ _ _).deliver _ _).setTask _ _, _) = _
        rw [deliver_inTurn, setTask_inTurn]
        rfl
    · refine (reaches_of_advance (i := before.length) ?_).trans (ih _ _ _)
      rw [advance_ask (fun source heq => hload ⟨source, heq⟩) getElem?_inTurn]
      change (Pool.setTask (Pool.inTurn _ _ _ _) _ _, _) = _
      rw [setTask_inTurn]
      rfl

end

theorem validateFiles_cons (path : Files.Raw) (paths : List Files.Raw) (s : Shared) (w : σ) :
    (setup.validateFiles (path :: paths) s).run w =
      let first := ((setup.task path).run setup s).run w
      let rest := (setup.validateFiles paths first.1.2).run first.2
      ((first.1.1 :: rest.1.1, rest.1.2), rest.2) := rfl

/-- One after the other is one of the orders. -/
theorem reaches_validateFiles (setup : Setup (StateM σ)) (permits : Nat) (before : List FileResult)
    (paths : List Files.Raw) (s : Shared) (w : σ) :
    Reaches setup permits ⟨before.map .ended ++ paths.map .queued, s⟩ w
      ⟨(before ++ ((setup.validateFiles paths s).run w).1.1).map .ended, ((setup.validateFiles paths s).run w).1.2⟩
      ((setup.validateFiles paths s).run w).2 := by
  induction paths generalizing before s w with
  | nil =>
    change Reaches setup permits ⟨before.map .ended ++ [], s⟩ w ⟨(before ++ []).map .ended, s⟩ w
    rw [List.append_nil, List.append_nil]
    exact .refl
  | cons path paths ih =>
    rw [validateFiles_cons]
    have hbegins : Reaches setup permits (Pool.inTurn before (.queued path) paths s) w
        (Pool.inTurn before (.running (setup.task path)) paths s) w := by
      refine reaches_of_advance (i := before.length) ?_
      have hfree : (Pool.inTurn before (.queued path) paths s).active < max permits 1 := by
        rw [active_inTurn rfl]
        exact Nat.le_max_right permits 1
      rw [advance_queued getElem?_inTurn hfree, setTask_inTurn]
      rfl
    refine hbegins.trans ((reaches_run _ s w).trans ?_)
    have hrest := ih (before ++ [(((setup.task path).run setup s).run w).1.1])
      (((setup.task path).run setup s).run w).1.2 (((setup.task path).run setup s).run w).2
    simpa [Pool.inTurn] using hrest

theorem path_resultOf (path : Files.Raw) (href : String) (outcome : Except Validation.Failure Validation.Report) :
    (resultOf path href outcome).path = path := by
  rcases outcome with (_ | _) | report <;> rfl

theorem path_verdict (o : Outside setup) (path : Files.Raw) (place : Reference → Source) :
    (o.verdict path place).path = path := by
  unfold Outside.verdict
  split
  · rfl
  · split
    · rfl
    · unfold Outside.judgement
      split
      · rfl
      · exact path_resultOf ..

theorem Agrees.path_eq {r r' : FileResult} (h : Agrees r r') : r.path = r'.path := by
  unfold Agrees at h
  have hpath := congrArg FileResult.path h
  exact hpath

theorem Agrees.status_eq {r r' : FileResult} (h : Agrees r r') : r.status = r'.status := by
  unfold Agrees at h
  have hstatus := congrArg FileResult.status h
  exact hstatus

section

variable {results : List FileResult} {i : Nat} {path : Files.Raw} {r : FileResult}

theorem Pool.Sound.fits (h : pool.Sound o files paths left) (htasks : pool.tasks = results.map .ended)
    (hi : paths[i]? = some path) (hr : results[i]? = some r) : pool.Fits o files i path r := by
  obtain ⟨task, htask, hsound⟩ := h.tasks i path hi
  rw [htasks, List.getElem?_map, hr] at htask
  cases htask
  generalize left i = n at hsound
  cases hsound with
  | ended hfits => exact hfits

theorem Pool.IsBad.exists_result (h : pool.IsBad i) (htasks : pool.tasks = results.map .ended) :
    ∃ r, results[i]? = some r ∧ r.status.isBad = true := by
  obtain ⟨task, r, htask, hr, hbad⟩ := h
  rw [htasks, List.getElem?_map] at htask
  obtain ⟨r', hr', rfl⟩ := Option.map_eq_some_iff.mp htask
  cases hr
  exact ⟨_, hr', hbad⟩

end

/-- What the files of the next batch share: the schemas that are kept, with their slots. -/
def Shared.again (s : Shared) : Shared := { s with stopped := false, finished := [] }

/-- What the files of a batch may share at first: nothing, or what is left of batches of these files before. -/
inductive Setup.Opening (setup : Setup (StateM σ)) : List Files.Raw → Shared → Prop
  | fresh : setup.Opening [] .fresh
  | again {before : List Files.Raw} {s : Shared} {paths : List Files.Raw} {permits : Nat} {turns : List Nat} {w : σ} :
      setup.Opening before s →
      setup.Opening (before ++ paths) (((Pool.begin paths s).follow setup permits turns).run w).1.shared.again

variable {before : List Files.Raw}

theorem Setup.Opening.sound (h : setup.Opening before s) (o : Outside setup) :
    s.Sound o before ∧ s.stopped = false := by
  induction h with
  | fresh => exact ⟨Shared.sound_fresh, rfl⟩
  | @again before s paths permits turns w _ ih =>
    obtain ⟨left, hbegin⟩ := Pool.sound_begin (List.subset_append_right before paths)
      (ih.1.mono (List.subset_append_left before paths)) ih.2
    obtain ⟨left', hfollow, -⟩ := hbegin.follow permits turns w
    exact ⟨⟨hfollow.shared.loaded, hfollow.shared.slots⟩, rfl⟩

/-- The files of a batch stand well at first. -/
theorem Setup.Opening.sound_begin (h : setup.Opening before s) (o : Outside setup) (paths : List Files.Raw) :
    ∃ left, (Pool.begin paths s).Sound o (before ++ paths) paths left := by
  obtain ⟨hshared, hstopped⟩ := h.sound o
  exact Pool.sound_begin (List.subset_append_right before paths)
    (hshared.mono (List.subset_append_left before paths)) hstopped

/-- After some turns all files of a batch have ended. -/
theorem sound_of_results (o : Outside setup) {turns : List Nat} {results : List FileResult}
    (hopening : setup.Opening before s) (w : σ)
    (h : (((Pool.begin paths s).follow setup permits turns).run w).1.results? = some results) :
    ∃ (left : Nat → Nat) (pool : Pool), pool.Sound o (before ++ paths) paths left ∧
      pool.tasks = results.map .ended := by
  obtain ⟨left, hbegin⟩ := hopening.sound_begin o paths
  obtain ⟨left', hfollow, -⟩ := hbegin.follow permits turns w
  exact ⟨left', _, hfollow, results?_eq_some_iff.mp h⟩

theorem validateFiles_results (setup : Setup (StateM σ)) (permits : Nat) (paths : List Files.Raw) (s : Shared)
    (w : σ) : ∃ turns, (((Pool.begin paths s).follow setup permits turns).run w).1.results? =
      some ((setup.validateFiles paths s).run w).1.1 := by
  obtain ⟨turns, hturns⟩ := reaches_validateFiles setup permits [] paths s w
  refine ⟨turns, results?_eq_some_iff.mpr ?_⟩
  change ((Pool.follow setup permits ⟨[].map .ended ++ paths.map .queued, s⟩ turns).run w).1.tasks = _
  rw [hturns]
  rfl

theorem Outside.verdict_congr {path : Files.Raw} {place place' : Reference → Source}
    (h : ∀ given, o.reference? path = some given → place given = place' given) :
    o.verdict path place = o.verdict path place' := by
  unfold verdict
  split
  · rfl
  · rename_i text hcontents
    cases hgiven : setup.reference? path text with
    | none => rfl
    | some given =>
      exact congrArg (o.judgement path text given.href) (h given ((reference?_of_contents hcontents).trans hgiven))

/-- The validation of one file with nothing shared comes to the verdict on the file, with the schema that it names. -/
theorem validateFiles_singleton (o : Outside setup) (path : Files.Raw) (w : σ) :
    ∃ r, ((setup.validateFiles [path] .fresh).run w).1.1 = [r] ∧ Agrees r (o.verdict path Reference.source) := by
  obtain ⟨turns, hturns⟩ := validateFiles_results setup 1 [path] .fresh w
  obtain ⟨left, pool, hpool, htasks⟩ := sound_of_results o .fresh w hturns
  have hlength := hpool.length
  rw [htasks, List.length_map] at hlength
  obtain ⟨r, hr⟩ := List.length_eq_one_iff.mp hlength
  rw [hr] at htasks ⊢
  refine ⟨r, rfl, ?_⟩
  rcases hpool.fits (i := 0) htasks rfl rfl with ⟨place, hagrees, hplace⟩ | ⟨-, -, j, hne, hj⟩
  · rwa [Outside.verdict_congr fun given hgiven => ?_] at hagrees
    -- The file is the only one that names a schema.
    obtain ⟨path', hpath', hsource⟩ := List.mem_filterMap.mp (hplace given hgiven).1
    cases List.mem_singleton.mp hpath'
    rw [hgiven] at hsource
    exact (Option.some.inj hsource).symm
  · -- There is no other file.
    obtain ⟨r', hr', -⟩ := hj.exists_result htasks
    exact absurd (Nat.lt_one_iff.mp (List.getElem?_eq_some_iff.mp hr').1) hne

/-- The result is what the file comes to alone, with nothing shared. -/
def Setup.IsAlone (setup : Setup (StateM σ)) (r : FileResult) : Prop :=
  ∀ w, ∃ r', ((setup.validateFiles [r.path] .fresh).run w).1.1 = [r'] ∧ Agrees r r'

theorem isAlone_of_agrees {r : FileResult} (h : Agrees r (o.verdict r.path Reference.source)) : setup.IsAlone r := by
  intro w
  obtain ⟨r', hr', hagrees⟩ := validateFiles_singleton o r.path w
  exact ⟨r', hr', h.trans hagrees.symm⟩

/-- The schema at a source is applied to all files, under a name of its own. -/
def Setup.applying (setup : Setup (StateM σ)) (href : String) (source : Source) : Setup (StateM σ) :=
  { setup with explicit := some ⟨href, source⟩ }

/-- The result is what the file comes to alone, but with a schema that it does not name: one of another source, which
has the same key and is named by some file. -/
def Setup.IsMistaken (setup : Setup (StateM σ)) (files : List Files.Raw) (r : FileResult) : Prop :=
  ∃ given source, setup.Refers r.path given ∧ setup.Names files source ∧ source ≠ given.source ∧
    source.key = given.source.key ∧ (setup.applying given.href source).IsAlone r

/-- No two schemas that are named have the same key. -/
def Setup.Distinct (setup : Setup (StateM σ)) (files : List Files.Raw) : Prop :=
  ∀ source source', setup.Names files source → setup.Names files source' → source.key = source'.key →
    source = source'

theorem Setup.Distinct.not_isMistaken (h : setup.Distinct files) {r : FileResult} (hr : r.path ∈ files) :
    ¬ setup.IsMistaken files r := by
  rintro ⟨given, source, hgiven, hsource, hne, hkey, -⟩
  exact hne (h source given.source hsource ⟨r.path, hr, given, hgiven, rfl⟩ hkey)

/-- Names that are texts are told apart by what is shown for them. -/
theorem Setup.distinct_of_texts (h : ∀ path ∈ files, ∃ text : String, path = .ofText text) :
    setup.Distinct files := by
  rintro source source' ⟨path, hpath, r, ⟨w, text, -, hr⟩, rfl⟩ ⟨path', hpath', r', ⟨w', text', -, hr'⟩, rfl⟩ hkey
  unfold reference? at hr hr'
  cases hexplicit : setup.explicit with
  | some given =>
    rw [hexplicit] at hr hr'
    cases hr
    cases hr'
    rfl
  | none =>
    rw [hexplicit] at hr hr'
    have hplain {path : Files.Raw} {text : String} {r : Reference} (hpath : path ∈ files)
        (hr : (Reference.allIn text (.ofRaw path)).head? = some r) : r.source.IsPlain := by
      obtain ⟨name, rfl⟩ := h path hpath
      exact Source.isPlain_of_mem_allIn (fun _ => Files.Path.isPlain_ofText) (List.mem_of_head? hr)
    exact (hplain hpath hr).eq_of_key_eq (hplain hpath' hr') hkey

/-- The world stays as it is where a schema is applied to all files. -/
def Outside.applying (o : Outside setup) (href : String) (source : Source) : Outside (setup.applying href source) :=
  ⟨o.contents, o.loaded, o.read, o.schema⟩

/-- With the schema at a source applied to it, a file comes to what it does where its schema is taken from there. -/
theorem Outside.verdict_applying {path : Files.Raw} {given : Reference} (h : o.reference? path = some given)
    (source : Source) :
    (o.applying given.href source).verdict path Reference.source = o.verdict path fun _ => source := by
  unfold verdict
  dsimp only [applying]
  cases hcontents : o.contents path with
  | error e => rfl
  | ok text =>
    rw [reference?_of_contents hcontents] at h
    simp only [h]
    rfl

theorem Outside.Possible.isAlone_or_isMistaken {r : FileResult} (h : o.Possible files r.path r) (w : σ) :
    setup.IsAlone r ∨ setup.IsMistaken files r := by
  obtain ⟨place, hagrees, hplace⟩ := h
  cases hgiven : o.reference? r.path with
  | none =>
    refine .inl (isAlone_of_agrees (o := o) ?_)
    rwa [verdict_congr fun given hgiven' => absurd (hgiven.symm.trans hgiven') nofun] at hagrees
  | some given =>
    obtain ⟨hsource, hkey⟩ := hplace given hgiven
    have hchosen : o.verdict r.path place = o.verdict r.path fun _ => place given :=
      verdict_congr fun given' hgiven' => by cases hgiven.symm.trans hgiven'; rfl
    rw [hchosen] at hagrees
    by_cases hown : place given = given.source
    · refine .inl (isAlone_of_agrees (o := o) ?_)
      rwa [verdict_congr fun given' hgiven' => by cases hgiven.symm.trans hgiven'; exact hown] at hagrees
    · rw [← o.verdict_applying hgiven] at hagrees
      exact .inr ⟨given, place given, (o.reference?_eq_some_iff w).mp hgiven, (o.mem_sources w).mp hsource, hown, hkey,
        isAlone_of_agrees hagrees⟩

/-- One result for each file, in their order: what the file comes to alone or by mistake, or else the file is passed
over when another one is bad and that is reason to stop. There are no mistakes where no two schemas have one key. -/
structure Setup.Independent (setup : Setup (StateM σ)) (files paths : List Files.Raw) (results : List FileResult) :
    Prop where
  paths : results.map FileResult.path = paths
  alone : setup.failFast = false → ∀ r ∈ results, setup.IsAlone r ∨ setup.IsMistaken files r
  honest : setup.failFast = true → ∀ (i : Nat) (r : FileResult), results[i]? = some r →
    (setup.IsAlone r ∨ setup.IsMistaken files r) ∨
      PassedOver r.path r ∧ ∃ j r', j ≠ i ∧ results[j]? = some r' ∧ r'.status.isBad = true
  distinct : setup.Distinct files → ∀ r ∈ results, ¬ setup.IsMistaken files r

theorem Pool.Sound.independent {results : List FileResult} (h : pool.Sound o files paths left)
    (hpaths : paths ⊆ files) (htasks : pool.tasks = results.map .ended) (w : σ) :
    setup.Independent files paths results := by
  have hlength : results.length = paths.length := by rw [← h.length, htasks, List.length_map]
  have hfits : ∀ (i : Nat) (r : FileResult), results[i]? = some r → ∃ path,
      paths[i]? = some path ∧ r.path = path ∧ pool.Fits o files i path r := by
    intro i r hr
    have hlt : i < paths.length := hlength ▸ (List.getElem?_eq_some_iff.mp hr).1
    have hfits := h.fits htasks (List.getElem?_eq_getElem hlt) hr
    refine ⟨paths[i], List.getElem?_eq_getElem hlt, ?_, hfits⟩
    rcases hfits with ⟨place, hagrees, -⟩ | ⟨hpassed, -⟩
    · rw [hagrees.path_eq, path_verdict]
    · exact hpassed.path_eq
  refine ⟨?_, ?_, ?_, ?_⟩
  · refine List.ext_getElem (by rw [List.length_map, hlength]) fun i hi hi' => ?_
    rw [List.getElem_map]
    obtain ⟨path, hpath, heq, -⟩ := hfits i results[i] (List.getElem?_eq_getElem _)
    exact heq.trans (List.getElem?_eq_some_iff.mp hpath).2.symm
  · intro hfast r hmem
    obtain ⟨i, hr⟩ := List.mem_iff_getElem?.mp hmem
    obtain ⟨path, -, rfl, hpossible | ⟨-, hfast', -⟩⟩ := hfits i r hr
    · exact hpossible.isAlone_or_isMistaken w
    · rw [hfast] at hfast'
      cases hfast'
  · intro _ i r hr
    obtain ⟨path, -, rfl, hpossible | ⟨hpassed, -, j, hne, hj⟩⟩ := hfits i r hr
    · exact .inl (hpossible.isAlone_or_isMistaken w)
    · obtain ⟨r', hr', hbad⟩ := hj.exists_result htasks
      exact .inr ⟨hpassed, j, r', hne, hr', hbad⟩
  · intro hdistinct r hmem
    obtain ⟨i, hr⟩ := List.mem_iff_getElem?.mp hmem
    obtain ⟨path, hpath, rfl, -⟩ := hfits i r hr
    exact hdistinct.not_isMistaken (hpaths (List.mem_of_getElem? hpath))

/-- Whatever the order in which permits are given and turns are taken: where all files have ended, their results
are independent but for schemas that have one key; they all end where each gets its turn again and again; and one
after the other they do so. -/
theorem results_independent (h : Steady setup.supply) (hopening : setup.Opening before s) (permits : Nat)
    (paths : List Files.Raw) (w : σ) :
    (∀ turns results, (((Pool.begin paths s).follow setup permits turns).run w).1.results? = some results →
      setup.Independent (before ++ paths) paths results) ∧
    (∀ turns, Fair paths.length turns → ∃ n results,
      (((Pool.begin paths s).follow setup permits ((List.range n).map turns)).run w).1.results? = some results) ∧
    setup.Independent (before ++ paths) paths ((setup.validateFiles paths s).run w).1.1 := by
  obtain ⟨o⟩ := h.outside
  have hindependent : ∀ turns results,
      (((Pool.begin paths s).follow setup permits turns).run w).1.results? = some results →
        setup.Independent (before ++ paths) paths results := by
    intro turns results hresults
    obtain ⟨left, pool, hpool, htasks⟩ := sound_of_results o hopening w hresults
    exact hpool.independent (List.subset_append_right before paths) htasks w
  refine ⟨hindependent, fun turns hfair => ?_, ?_⟩
  · obtain ⟨left, hbegin⟩ := hopening.sound_begin o paths
    obtain ⟨k, results, hresults⟩ := hbegin.exists_results hfair permits 0 w
    exact ⟨k, results, List.range_eq_range' ▸ hresults⟩
  · obtain ⟨turns, hturns⟩ := validateFiles_results setup permits paths s w
    exact hindependent turns _ hturns

/-- Files that hold texts, a clock that goes on by one, and no server. -/
private def holding (texts : List (Files.Raw × String)) (failFast : Bool) : Setup (StateM Nat) where
  supply := {
    host := {
      tree := fun _ _ _ => pure none
      read := fun path => pure ((texts.lookup path).elim (.error .missing) .ok) }
    network := { request := fun _ => pure .none, pause := fun _ => pure () }
    policy := ⟨0, 0, 0, 0⟩ }
  clock := modifyGet fun time => (time, time + 1)
  explicit := none
  options := ⟨none, false, false⟩
  failFast := failFast

private theorem steady_holding (texts : List (Files.Raw × String)) (failFast : Bool) :
    Steady (holding texts failFast).supply :=
  ⟨fun _ => fixed_pure _, fun _ => fixed_pure _⟩

/-- A document of one element, with a schema beside it. -/
private def documentText (name : String) : String := "<?xml-model href='s.sch'?><" ++ name ++ "/>"

/-- A schema for documents whose element has this name. -/
private def schemaText (name : String) : String :=
  "<schema xmlns='http://purl.oclc.org/dsdl/schematron'><pattern><rule context='/'><assert test='" ++ name ++
    "'>not it</assert></rule></pattern></schema>"

private def threeFiles : List Files.Raw := ["a.xml", "b.xml", "c.xml"].map .ofText

/-- Three files with one schema. The second is not valid. -/
private def oneSchema (failFast : Bool) : Setup (StateM Nat) :=
  holding [(.ofText "a.xml", documentText "x"), (.ofText "b.xml", documentText "y"),
    (.ofText "c.xml", documentText "x"), (.ofText "s.sch", schemaText "x")] failFast

/-- With two permits the first two begin. One waits for the schema that the other has loaded. -/
private def inTurns : Pool :=
  (((Pool.begin threeFiles .fresh).follow (oneSchema true) 2 (List.replicate 20 [0, 1, 2]).flatten).run 0).1

theorem results_independent_oneSchema :
    (∀ failFast, Steady (oneSchema failFast).supply ∧ (oneSchema failFast).Opening [] .fresh ∧
      (oneSchema failFast).Distinct threeFiles) ∧
    (∃ results, inTurns.results? = some results ∧
      results.map (·.status) = [.valid, .invalid 1, .skipped "fail-fast"] ∧
      inTurns.shared.cache.stats = ⟨0, 2, 1⟩ ∧ (oneSchema true).Independent threeFiles threeFiles results) ∧
    (((oneSchema false).validateFiles threeFiles .fresh).run 0).1.1.map (·.status) = [.valid, .invalid 1, .valid] ∧
    ∀ r ∈ (((oneSchema false).validateFiles threeFiles .fresh).run 0).1.1, (oneSchema false).IsAlone r := by
  have hdistinct (failFast : Bool) : (oneSchema failFast).Distinct threeFiles := by
    refine Setup.distinct_of_texts fun path hpath => ?_
    obtain ⟨text, -, rfl⟩ := List.mem_map.mp hpath
    exact ⟨text, rfl⟩
  have hturns : inTurns.results?.map (·.map (·.status)) = some [.valid, .invalid 1, .skipped "fail-fast"] ∧
      inTurns.shared.cache.stats = ⟨0, 2, 1⟩ := by decide +kernel
  obtain ⟨results, hresults, hstatuses⟩ := Option.map_eq_some_iff.mp hturns.1
  have hsteady (failFast : Bool) : Steady (oneSchema failFast).supply := steady_holding _ failFast
  obtain ⟨hindependent, -, -⟩ := results_independent (hsteady true) .fresh 2 threeFiles 0
  obtain ⟨-, -, hinOrder⟩ := results_independent (hsteady false) .fresh 1 threeFiles 0
  refine ⟨fun failFast => ⟨hsteady failFast, .fresh, hdistinct failFast⟩,
    ⟨results, hresults, hstatuses, hturns.2, hindependent _ results hresults⟩, by decide +kernel, fun r hr => ?_⟩
  exact (hinOrder.alone rfl r hr).resolve_right (hinOrder.distinct (hdistinct false) r hr)

/-- A file in a directory whose name spells no text. -/
private def inDirectory (byte : UInt8) (name : String) : Files.Raw :=
  ⟨.char 'd' :: .stray [byte] :: (Files.Raw.ofText ("/" ++ name)).signs⟩

/-- Two files, each with a schema in its directory. The second file is not valid. -/
private def twoSchemas : Setup (StateM Nat) :=
  holding [(inDirectory 0xFF "a.xml", documentText "x"), (inDirectory 0xFF "s.sch", schemaText "x"),
    (inDirectory 0xFE "b.xml", documentText "x"), (inDirectory 0xFE "s.sch", schemaText "y")] false

private def twoFiles : List Files.Raw := [inDirectory 0xFF "a.xml", inDirectory 0xFE "b.xml"]

/-- The two directories are shown alike, and the schema in one is taken for the schema in the other. -/
theorem results_mistaken_sameShown :
    Steady twoSchemas.supply ∧ twoSchemas.failFast = false ∧
      (((twoSchemas.validateFiles twoFiles .fresh).run 0).1.1.map fun r => (r.path, r.status)) =
        [(inDirectory 0xFF "a.xml", .valid), (inDirectory 0xFE "b.xml", .valid)] ∧
      ((twoSchemas.validateFiles [inDirectory 0xFE "b.xml"] .fresh).run 0).1.1.map (·.status) = [.invalid 1] ∧
      ¬ ∀ r ∈ ((twoSchemas.validateFiles twoFiles .fresh).run 0).1.1, twoSchemas.IsAlone r := by
  have htogether : (((twoSchemas.validateFiles twoFiles .fresh).run 0).1.1.map fun r => (r.path, r.status)) =
      [(inDirectory 0xFF "a.xml", .valid), (inDirectory 0xFE "b.xml", .valid)] := by decide +kernel
  have halone : ((twoSchemas.validateFiles [inDirectory 0xFE "b.xml"] .fresh).run 0).1.1.map (·.status) =
      [.invalid 1] := by decide +kernel
  refine ⟨steady_holding _ false, rfl, htogether, halone, fun hall => ?_⟩
  have hmem : (inDirectory 0xFE "b.xml", Status.valid) ∈
      (((twoSchemas.validateFiles twoFiles .fresh).run 0).1.1.map fun r => (r.path, r.status)) := by
    rw [htogether]
    simp
  obtain ⟨r, hr, heq⟩ := List.mem_map.mp hmem
  obtain ⟨hpath, hstatus⟩ := Prod.mk.inj heq
  obtain ⟨r', hr', hagrees⟩ := hall r hr 0
  rw [hpath] at hr'
  rw [hr', List.map_singleton, List.singleton_inj] at halone
  have hsame := hagrees.status_eq
  rw [hstatus, halone] at hsame
  cases hsame

end Schematron.Batch
