import Mathlib.Algebra.Order.BigOperators.Group.List
import Mathlib.Algebra.Order.Ring.Nat
import Schematron.Batch.Pool
import Schematron.Proofs.Validation.Sharing

/-!
What the validation of a file comes to when files and servers always answer alike, whoever else is served
meanwhile. Whoever else is served may have had a schema loaded from another source that has the same key.
-/

namespace Schematron.Batch

open Schematron.Loading
open Schematron.Validation (Queries Request compileAt)

variable {σ α β : Type}

/-- The action gives `a` whatever the state of the world. -/
def Yields (x : StateM σ α) (a : α) : Prop := ∀ w, (x.run w).1 = a

/-- The action gives the same whatever the state of the world. -/
def Fixed (x : StateM σ α) : Prop := ∃ a, Yields x a

theorem fixed_pure (a : α) : Fixed (pure a : StateM σ α) := ⟨a, fun _ => rfl⟩

theorem Fixed.bind {x : StateM σ α} {f : α → StateM σ β} (h : Fixed x) (hf : ∀ a, Fixed (f a)) :
    Fixed (x >>= f) := by
  obtain ⟨a, ha⟩ := h
  obtain ⟨b, hb⟩ := hf a
  refine ⟨b, fun w => ?_⟩
  show ((f (x.run w).1).run (x.run w).2).1 = b
  rw [ha w]
  exact hb _

/-- Files and servers answer alike whenever they are asked. Time may pass. -/
structure Steady (supply : Supply (StateM σ)) : Prop where
  read : ∀ path, Fixed (supply.host.read path)
  request : ∀ url, Fixed (supply.network.request url)

variable {supply : Supply (StateM σ)}

theorem Steady.attempts (h : Steady supply) (policy : FetchPolicy) (url : String) (tried left : Nat) :
    Fixed (Fetch.attempts supply.network policy url tried left) := by
  induction left generalizing tried with
  | zero =>
    refine (h.request url).bind fun reply => ?_
    cases Fetch.judge url reply <;> exact fixed_pure _
  | succ left ih =>
    refine (h.request url).bind fun reply => ?_
    cases Fetch.judge url reply with
    | success body => exact fixed_pure _
    | final e => exact fixed_pure _
    | again e =>
      have hpause : Fixed (supply.network.pause (Fetch.pauseAfter policy tried)) := ⟨(), fun _ => rfl⟩
      exact hpause.bind fun _ => ih (tried + 1)

theorem Steady.schema (h : Steady supply) (source : Source) : Fixed (supply.schema source) := by
  have htext : Fixed (supply.text source) := by
    cases source with
    | remote url => exact (h.attempts supply.policy url 0 supply.policy.retries).bind fun _ => fixed_pure _
    | file path =>
      refine (h.read path.toRaw).bind fun answer => ?_
      rcases answer with (_ | _) | text <;> exact fixed_pure _
  exact htext.bind fun _ => fixed_pure _

variable (setup : Setup (StateM σ))

/-- The file names this schema. -/
def Setup.Refers (path : Files.Raw) (r : Reference) : Prop :=
  ∃ w text, ((setup.supply.host.read path).run w).1 = .ok text ∧ setup.reference? path text = some r

/-- One of the files names a schema at this source. -/
def Setup.Names (files : List Files.Raw) (source : Source) : Prop :=
  ∃ path ∈ files, ∃ r, setup.Refers path r ∧ r.source = source

variable {setup}

theorem Setup.Names.mono {files files' : List Files.Raw} {source : Source} (h : setup.Names files source)
    (hsubset : files ⊆ files') : setup.Names files' source := by
  obtain ⟨path, hpath, r, hr, hsource⟩ := h
  exact ⟨path, hsubset hpath, r, hr, hsource⟩

/-- What the world has: what each file holds, and what is loaded from each source. -/
structure Outside (setup : Setup (StateM σ)) where
  contents : Files.Raw → Except Files.ReadFailure String
  loaded : Source → Except Failure Schema.Compiled
  read : ∀ path, Yields (setup.supply.host.read path) (contents path)
  schema : ∀ source, Yields (setup.supply.schema source) (loaded source)

theorem Steady.outside (h : Steady setup.supply) : Nonempty (Outside setup) := by
  choose contents hread using h.read
  choose loaded hschema using h.schema
  exact ⟨⟨contents, loaded, hread, hschema⟩⟩

variable (o : Outside setup)

namespace Outside

/-- The schema that a file names. -/
def reference? (path : Files.Raw) : Option Reference :=
  match o.contents path with
  | .ok text => setup.reference? path text
  | .error _ => none

theorem reference?_eq_some_iff (w : σ) {path : Files.Raw} {r : Reference} :
    o.reference? path = some r ↔ setup.Refers path r := by
  unfold reference? Setup.Refers
  constructor
  · intro h
    split at h
    · rename_i text hcontents
      exact ⟨w, text, (o.read path w).trans hcontents, h⟩
    · cases h
  · rintro ⟨w, text, hread, h⟩
    rw [o.read path w] at hread
    rw [hread]
    exact h

/-- The sources of the schemas that files name. -/
def sources (files : List Files.Raw) : List Source := files.filterMap fun path => (o.reference? path).map (·.source)

theorem mem_sources (w : σ) {files : List Files.Raw} {source : Source} :
    source ∈ o.sources files ↔ setup.Names files source := by
  simp only [sources, List.mem_filterMap, Option.map_eq_some_iff, o.reference?_eq_some_iff w]
  rfl

end Outside

/-- The schemas that are kept, by location. -/
abbrev Kept := String → Option Schema.Compiled

/-- Nothing that is kept is lost or replaced. -/
def Kept.Grows (κ κ' : Kept) : Prop := ∀ location schema, κ location = some schema → κ' location = some schema

theorem Kept.Grows.refl (κ : Kept) : κ.Grows κ := fun _ _ h => h

theorem Kept.Grows.trans {κ κ' κ'' : Kept} (h : κ.Grows κ') (h' : κ'.Grows κ'') : κ.Grows κ'' :=
  fun location schema hkept => h' location schema (h location schema hkept)

variable (files : List Files.Raw)

namespace Outside

/-- What is got where a schema is asked for: what is loaded from some source with that key. If it is a schema, it is
the one that is kept. -/
def Comes (κ : Kept) (location : String) (answer : Except Failure Schema.Compiled) : Prop :=
  ∃ source ∈ o.sources files, source.key = location ∧ answer = Cache.shareOf (o.loaded source) ∧
    ∀ schema, answer = .ok schema → κ location = some schema

/-- What may be asked on the way to a result, by one who does not ask whether to go on and does not stop
others. -/
def Proper (κ : Kept) : Op → Prop
  | .stopped | .signal | .finish _ => False
  | .load source => source ∈ o.sources files
  | .query location schema _ => κ location = some schema
  | .clock | .read _ | .seek _ => True

/-- What may be the answer, whoever else is served. -/
def Admits (κ : Kept) : (op : Op) → op.Answer → Prop
  | .read path, answer => answer = o.contents path
  | .seek location, found => ∀ schema ∈ found, o.Comes files κ location (.ok schema)
  | .load source, answer => o.Comes files κ source.key answer
  | .query _ schema place, answer => answer = compileAt schema place
  | .clock, _ | .stopped, _ | .signal, _ | .finish _, _ => True

end Outside

/-- The job has its result, and at most tells that there will be no more files and counts its own. -/
inductive Settled (failFast : Bool) (r : FileResult) : Nat → Job FileResult → Prop
  | done {n : Nat} : Settled failFast r n (.done r)
  | finish {n : Nat} {path : Files.Raw} {next : Unit → Job FileResult} :
      Settled failFast r n (next ()) → Settled failFast r (n + 1) (.ask (.finish path) next)
  | signal {n : Nat} {next : Unit → Job FileResult} : failFast = true → r.status.isBad = true →
      Settled failFast r n (next ()) → Settled failFast r (n + 1) (.ask .signal next)

/-- Whatever is answered, and whatever else is kept by then, the job comes to such a result within so many
questions. -/
inductive Leads (Q : FileResult → Prop) : Kept → Nat → Job FileResult → Prop
  | settled {κ : Kept} {n : Nat} {r : FileResult} {job : Job FileResult} :
      Q r → Settled setup.failFast r n job → Leads Q κ n job
  | ask {κ : Kept} {n : Nat} {op : Op} {next : op.Answer → Job FileResult} : o.Proper files κ op →
      (∀ κ' answer, κ.Grows κ' → o.Admits files κ' op answer → Leads Q κ' n (next answer)) →
      Leads Q κ (n + 1) (.ask op next)

variable {o files} {Q P : FileResult → Prop} {κ κ' : Kept} {n k : Nat} {r : FileResult} {job : Job FileResult}

theorem Outside.Comes.grows {location : String} {answer : Except Failure Schema.Compiled}
    (h : o.Comes files κ location answer) (hgrows : κ.Grows κ') : o.Comes files κ' location answer := by
  obtain ⟨source, hsource, hkey, hanswer, hkept⟩ := h
  exact ⟨source, hsource, hkey, hanswer, fun schema hschema => hgrows _ _ (hkept schema hschema)⟩

theorem Outside.Proper.grows {op : Op} (h : o.Proper files κ op) (hgrows : κ.Grows κ') : o.Proper files κ' op := by
  cases op with
  | query location schema place => exact hgrows _ _ h
  | _ => exact h

theorem Settled.le {failFast : Bool} (h : Settled failFast r n job) (hle : n ≤ k) : Settled failFast r k job := by
  induction h generalizing k with
  | done => exact .done
  | finish _ ih =>
    obtain ⟨k, rfl⟩ := Nat.exists_eq_add_of_le' (Nat.one_le_of_lt hle)
    exact .finish (ih (Nat.le_of_succ_le_succ hle))
  | signal hfast hbad _ ih =>
    obtain ⟨k, rfl⟩ := Nat.exists_eq_add_of_le' (Nat.one_le_of_lt hle)
    exact .signal hfast hbad (ih (Nat.le_of_succ_le_succ hle))

theorem Leads.imp (h : Leads o files Q κ n job) (himp : ∀ r, Q r → P r) (hle : n ≤ k) :
    Leads o files P κ k job := by
  induction h generalizing k with
  | settled hr hsettled => exact .settled (himp _ hr) (hsettled.le hle)
  | ask hproper _ ih =>
    obtain ⟨k, rfl⟩ := Nat.exists_eq_add_of_le' (Nat.one_le_of_lt hle)
    exact .ask hproper fun κ' answer hgrows hanswer => ih κ' answer hgrows hanswer (Nat.le_of_succ_le_succ hle)

/-- A job is not hindered by what others have kept. -/
theorem Leads.grows (h : Leads o files Q κ n job) (hgrows : κ.Grows κ') : Leads o files Q κ' n job := by
  cases h with
  | settled hr hsettled => exact .settled hr hsettled
  | ask hproper hnext =>
    exact .ask (hproper.grows hgrows) fun κ'' answer hgrows' => hnext κ'' answer (hgrows.trans hgrows')

/-- The results are the same but for the time that they took. -/
def Agrees (r r' : FileResult) : Prop := { r with duration := 0 } = { r' with duration := 0 }

namespace Outside

variable (o)

/-- What the validation of a text comes to with the schema at a source, when nothing is shared. -/
def judgement (path : Files.Raw) (text href : String) (source : Source) : FileResult :=
  match Cache.shareOf (o.loaded source) with
  | .error e => errorResult path (some href) e
  | .ok schema => resultOf path href ((Request.text setup.options path.shown text).alone schema)

/-- What the validation of a file comes to when nothing is shared, and a schema that is named is where `place` says. -/
def verdict (path : Files.Raw) (place : Reference → Source) : FileResult :=
  match o.contents path with
  | .error _ => errorResult path none .unreadable
  | .ok text =>
    match setup.reference? path text with
    | none => skippedResult path "no Schematron xml-model reference"
    | some r => o.judgement path text r.href (place r)

variable (files)

/-- Among these files the result may be that of this one: its schema is at some source with the key that is asked
for. -/
def Possible (path : Files.Raw) (r : FileResult) : Prop :=
  ∃ place : Reference → Source, Agrees r (o.verdict path place) ∧
    ∀ given, o.reference? path = some given → place given ∈ o.sources files ∧ (place given).key = given.source.key

end Outside

theorem Outside.source_mem {path : Files.Raw} {given : Reference} (hpath : path ∈ files)
    (h : o.reference? path = some given) : given.source ∈ o.sources files :=
  List.mem_filterMap.mpr ⟨path, hpath, by rw [h]; rfl⟩

/-- Where a file names no schema there is but one result. -/
theorem Outside.possible_verdict {path : Files.Raw} (h : o.reference? path = none) :
    o.Possible files path (o.verdict path Reference.source) :=
  ⟨Reference.source, rfl, fun _ hgiven => absurd (h.symm.trans hgiven) nofun⟩

theorem settled_publish (r : FileResult) : Settled setup.failFast r 2 (setup.publish r) := by
  have hfinish : Settled setup.failFast r 1 (.ask (.finish r.path) fun _ => .done r) := .finish .done
  unfold Setup.publish
  split
  · rename_i hbad
    obtain ⟨hfast, hbad⟩ := Bool.and_eq_true_iff.mp hbad
    exact .signal hfast hbad hfinish
  · exact hfinish.le (by decide)

theorem leads_close {start : Nat} (h : ∀ time, Q { r with duration := time }) :
    Leads o files Q κ 3 (setup.close start r) :=
  .ask trivial fun _ _ _ _ => .settled (h _) (settled_publish _)

theorem leads_schema {source : Source} {f : Except Failure Schema.Compiled → Job FileResult}
    (hsource : source ∈ o.sources files)
    (hf : ∀ κ' answer, κ.Grows κ' → o.Comes files κ' source.key answer → Leads o files Q κ' n (f answer)) :
    Leads o files Q κ (n + 2) ((Job.schema source).bind f) := by
  refine .ask trivial fun κ' found hgrows hfound => ?_
  cases found with
  | none => exact .ask hsource fun κ'' answer hgrows' => hf κ'' answer (hgrows.trans hgrows')
  | some schema => exact (hf κ' (.ok schema) hgrows (hfound schema rfl)).imp (fun _ h => h) (Nat.le_succ n)

theorem bind_assoc {γ : Type} (x : Job α) (f : α → Job β) (g : β → Job γ) :
    (x.bind f).bind g = x.bind fun a => (f a).bind g := by
  induction x with
  | done a => rfl
  | ask op next ih => exact congrArg (Job.ask op) (funext ih)

theorem leads_ofQueries {location : String} {schema : Schema.Compiled} (hkept : κ location = some schema)
    (q : Queries α) {f : α → Job FileResult} (hf : ∀ κ', Leads o files Q κ' n (f (q.runAnew schema))) :
    Leads o files Q κ (n + q.fetches schema) ((Job.ofQueries location schema q).bind f) := by
  induction q generalizing κ with
  | done a => exact hf κ
  | fetch place next ih =>
    refine .ask hkept fun κ' answer hgrows hanswer => ?_
    cases hanswer
    exact ih _ (hgrows _ _ hkept) hf

theorem report_eq (options : Validation.Options) (location : String) (schema : Schema.Compiled)
    (origin text : String) : Job.report options location schema origin text =
      Job.ofQueries location schema ((Request.text options origin text).run schema) := by
  unfold Job.report Request.run
  dsimp only
  cases Xml.Instance.parse text <;> rfl

theorem ok_of_shareOf {loaded : Except Failure Schema.Compiled} {schema : Schema.Compiled}
    (h : Cache.shareOf loaded = .ok schema) : loaded = .ok schema := by
  cases loaded with
  | error e => cases h
  | ok schema' => exact h

/-- Whichever of the schemas it is, no more queries than so many are asked for. -/
theorem exists_fetches_le (o : Outside setup) (files : List Files.Raw) (request : Request) :
    ∃ m, ∀ source ∈ o.sources files, ∀ schema, o.loaded source = .ok schema →
      (request.run schema).fetches schema ≤ m := by
  let cost (source : Source) : Nat := (o.loaded source).toOption.elim 0 fun schema => (request.run schema).fetches schema
  refine ⟨((o.sources files).map cost).sum, fun source hsource schema hloaded => ?_⟩
  have hcost : cost source = (request.run schema).fetches schema := by
    simp only [cost, hloaded, Except.toOption, Option.elim]
  exact hcost ▸ List.le_sum_of_mem (List.mem_map_of_mem hsource)

variable {ι : Type} {f : ι → FileResult → Job FileResult} {path : Files.Raw} {text : String}

theorem Outside.reference?_of_contents (h : o.contents path = .ok text) :
    o.reference? path = setup.reference? path text := by
  simp only [reference?, h]

/-- The validation of a text comes to what may be. -/
theorem exists_leads_judge (hcontents : o.contents path = .ok text) (hpath : path ∈ files)
    (hf : ∀ κ x r, o.Possible files path r → Leads o files Q κ n (f x r)) :
    ∃ k, ∀ κ x, Leads o files Q κ k ((setup.judge path text).bind (f x)) := by
  have hreference := Outside.reference?_of_contents hcontents
  cases hr : setup.reference? path text with
  | none =>
    rw [hr] at hreference
    refine ⟨n, fun κ x => ?_⟩
    have hskipped : o.Possible files path (o.verdict path Reference.source) := Outside.possible_verdict hreference
    simp only [Outside.verdict, hcontents, hr] at hskipped
    simp only [Setup.judge, hr]
    exact hf κ x _ hskipped
  | some r =>
    rw [hr] at hreference
    obtain ⟨m, hm⟩ := exists_fetches_le o files (.text setup.options path.shown text)
    refine ⟨n + m + 2, fun κ x => ?_⟩
    have hpossible (source : Source) (hsource : source ∈ o.sources files) (hkey : source.key = r.source.key) :
        o.Possible files path (o.judgement path text r.href source) := by
      refine ⟨fun _ => source, ?_, fun given hgiven => ?_⟩
      · simp only [Outside.verdict, hcontents, hr]
        rfl
      · rw [hreference] at hgiven
        cases hgiven
        exact ⟨hsource, hkey⟩
    simp only [Setup.judge, hr]
    change Leads o files Q κ _ (((Job.schema r.source).bind _).bind (f x))
    rw [bind_assoc]
    refine leads_schema (Outside.source_mem hpath hreference) fun κ' answer _ hcomes => ?_
    obtain ⟨source, hsource, hkey, hanswer, hkept⟩ := hcomes
    have hresult := hpossible source hsource hkey
    unfold Outside.judgement at hresult
    rw [← hanswer] at hresult
    cases answer with
    | error e => exact (hf κ' x _ hresult).imp (fun _ h => h) (Nat.le_add_right n m)
    | ok schema =>
      change Leads o files Q κ' _ (((Job.report setup.options r.source.key schema path.shown text).bind _).bind (f x))
      rw [bind_assoc, report_eq]
      refine (leads_ofQueries (hkept schema rfl) _ fun κ'' => ?_).imp (fun _ h => h)
        (Nat.add_le_add_left (hm source hsource schema (ok_of_shareOf hanswer.symm)) n)
      rw [Request.runAnew_run]
      exact hf κ'' x _ hresult

/-- The validation of a file comes to what may be. -/
theorem exists_leads_validation (o : Outside setup) (hpath : path ∈ files)
    (hf : ∀ κ x r, o.Possible files path r → Leads o files Q κ n (f x r)) :
    ∃ k, ∀ κ x, Leads o files Q κ k ((setup.validation path).bind (f x)) := by
  cases hcontents : o.contents path with
  | error e =>
    have hnone : o.reference? path = none := by simp only [Outside.reference?, hcontents]
    have hpossible : o.Possible files path (o.verdict path Reference.source) := Outside.possible_verdict hnone
    simp only [Outside.verdict, hcontents] at hpossible
    refine ⟨n + 1, fun κ x => .ask trivial fun κ' answer _ hanswer => ?_⟩
    cases hanswer.trans hcontents
    exact hf κ' x _ hpossible
  | ok text =>
    obtain ⟨k, hk⟩ := exists_leads_judge hcontents hpath hf
    refine ⟨k + 1, fun κ x => .ask trivial fun κ' answer _ hanswer => ?_⟩
    cases hanswer.trans hcontents
    exact hk κ' x

/-- The file is passed over because no more files are to be begun. -/
def PassedOver (path : Files.Raw) (r : FileResult) : Prop := Agrees r (skippedResult path "fail-fast")

/-- Where a file is told to go on, and where it is told not to, its job comes to an end within as many
questions. -/
theorem exists_leads_begun (o : Outside setup) (hpath : path ∈ files) :
    ∃ k, ∀ κ start,
      Leads o files (o.Possible files path) κ k ((setup.validation path).bind (setup.close start)) ∧
        Leads o files (PassedOver path) κ k (setup.close start (skippedResult path "fail-fast")) := by
  have hclose (κ : Kept) (start : Nat) (r : FileResult) (hr : o.Possible files path r) :
      Leads o files (o.Possible files path) κ 3 (setup.close start r) := by
    obtain ⟨place, hagrees, hplace⟩ := hr
    exact leads_close fun _ => ⟨place, hagrees, hplace⟩
  obtain ⟨k, hk⟩ := exists_leads_validation o hpath hclose
  refine ⟨k + 3, fun κ start => ⟨(hk κ start).imp (fun _ h => h) (Nat.le_add_right k 3), ?_⟩⟩
  have hpassed : Leads o files (PassedOver path) κ 3 (setup.close start (skippedResult path "fail-fast")) :=
    leads_close fun _ => rfl
  exact hpassed.imp (fun _ h => h) (Nat.le_add_left 3 k)

end Schematron.Batch
