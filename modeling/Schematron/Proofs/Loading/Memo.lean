import Schematron.Loading.Cache
import Schematron.Proofs.Histories

/-!
A cache over time: locations are asked for, with a load each that succeeds or fails, looked up and dropped, in any
order. What the cache keeps for a location is what its latest successful load gave, as long as it was not dropped.
-/

namespace Schematron.Loading.Cache

/-- Something done with a cache. A load reads and changes a world. -/
inductive Op (σ α : Type) where
  | request (location : String) (load : StateM σ (Except Failure α))
  | look (location : String)
  | invalidate (location : String)
  | clear

inductive Answer (α : Type) where
  | loaded (result : Except Failure α)
  | found (kept : Option α)
  | done

/-- A world, and the locations of the loads that were run in it. -/
structure Noted (σ : Type) where
  world : σ
  runs : List String

/-- Something that was done: the cache and the world before, the answer, and the cache and the world after. -/
structure Turn (σ α : Type) where
  op : Op σ α
  cache : Cache α
  before : Noted σ
  answer : Answer α
  cacheAfter : Cache α
  after : Noted σ

section

variable {σ α : Type}

def noted (location : String) (load : StateM σ (Except Failure α)) : StateM (Noted σ) (Except Failure α) :=
  fun w => ((load w.world).1, ⟨(load w.world).2, w.runs ++ [location]⟩)

namespace Op

def perform : Op σ α → Cache α → StateM (Noted σ) (Answer α × Cache α)
  | request location load, c => do
    let (result, c) ← c.getOrLoad location (noted location load)
    return (.loaded result, c)
  | look location, c => return (.found (c.get? location), c)
  | invalidate location, c => return (.done, c.invalidate location)
  | clear, c => return (.done, c.clear)

def isRequest : Op σ α → Bool
  | request .. => true
  | _ => false

end Op

def turn (op : Op σ α) (c : Cache α) (w : Noted σ) : Turn σ α :=
  let ((answer, cacheAfter), after) := op.perform c w
  ⟨op, c, w, answer, cacheAfter, after⟩

def history : List (Op σ α) → Cache α → Noted σ → List (Turn σ α)
  | [], _, _ => []
  | op :: ops, c, w => turn op c w :: history ops (turn op c w).cacheAfter (turn op c w).after

namespace Turn

/-- A request ran its own load, and the load succeeded. -/
structure Stores (t : Turn σ α) (location : String) (a : α) : Prop where
  own : ∃ load, t.op = .request location load ∧ (load t.before.world).1 = .ok a
  ran : t.after.runs = t.before.runs ++ [location]

def Drops (t : Turn σ α) (location : String) : Prop := t.op = .invalidate location ∨ t.op = .clear

end Turn

/-- The latest successful load of a location gave `a`, and the location has not been dropped since. -/
def Holds (past : List (Turn σ α)) (location : String) (a : α) : Prop :=
  ∃ earlier t later, past = earlier ++ t :: later ∧ t.Stores location a ∧
    ∀ u ∈ later, ¬u.Drops location ∧ ∀ b, ¬u.Stores location b

/-- What a turn does after others. -/
structure Turn.Follows (past : List (Turn σ α)) (t : Turn σ α) : Prop where
  /-- The latest successful load is the answer, and no load is run: the world is as it was. -/
  hit : ∀ location load a, t.op = .request location load → Holds past location a →
    t.answer = .loaded (.ok a) ∧ t.after = t.before
  /-- Without one the request runs its own load, once, and its result is the answer. -/
  miss : ∀ location load, t.op = .request location load → (∀ a, ¬Holds past location a) →
    t.answer = .loaded ((load t.before.world).1.mapError .shared) ∧
      t.after = ⟨(load t.before.world).2, t.before.runs ++ [location]⟩
  look : ∀ location, t.op = .look location → t.after = t.before ∧
    ∃ kept, t.answer = .found kept ∧ ∀ a, kept = some a ↔ Holds past location a
  dropped : ∀ location, t.Drops location → t.after = t.before
  /-- Nothing is kept but what was loaded: no failure, and nothing that was dropped. -/
  kept : ∀ location a, t.cacheAfter.get? location = some a ↔ Holds (past ++ [t]) location a
  requests : t.cacheAfter.stats.hits + t.cacheAfter.stats.misses = (past ++ [t]).countP (·.op.isRequest)
  runs : t.cacheAfter.stats.misses = t.after.runs.length
  entries : ∃ locations : List String, locations.Nodup ∧
    (∀ location, location ∈ locations ↔ ∃ a, Holds (past ++ [t]) location a) ∧
      t.cacheAfter.stats.entries = locations.length

section

variable {c : Cache α} {location other : String} {loaded : Except Failure α}

theorem hits_keep : (c.keep location loaded).hits = c.hits := by
  cases loaded <;> rfl

theorem misses_keep : (c.keep location loaded).misses = c.misses := by
  cases loaded <;> rfl

theorem ordered_keep (h : c.table.Ordered) : (c.keep location loaded).table.Ordered := by
  cases loaded with
  | error e => exact h
  | ok a => exact h.insert location a

theorem get?_keep_self (h : c.get? location = none) (a : α) :
    (c.keep location loaded).get? location = some a ↔ loaded = .ok a := by
  cases loaded with
  | error e =>
    have hsame : (c.keep location (.error e)).get? location = none := h
    rw [hsame]
    exact iff_of_false nofun nofun
  | ok b =>
    have hkept : (c.keep location (.ok b)).get? location = some b := Table.get?_insert_self location b c.table
    rw [hkept, Option.some_inj, Except.ok.injEq]

theorem get?_keep_ne (h : other ≠ location) : (c.keep location loaded).get? other = c.get? other := by
  cases loaded with
  | error e => rfl
  | ok b => exact Table.get?_insert_ne h b c.table

end

section

variable {c : Cache α} {w : Noted σ} {location : String} {load : StateM σ (Except Failure α)}

theorem turn_of_kept {a : α} (h : c.get? location = some a) :
    turn (.request location load) c w =
      ⟨.request location load, c, w, .loaded (.ok a), { c with hits := c.hits + 1 }, w⟩ := by
  simp only [turn, Op.perform, getOrLoad, seek, h]
  rfl

theorem turn_of_unkept (h : c.get? location = none) :
    turn (.request location load) c w =
      ⟨.request location load, c, w, .loaded (shareOf (load w.world).1),
        keep { c with misses := c.misses + 1 } location (load w.world).1,
        ⟨(load w.world).2, w.runs ++ [location]⟩⟩ := by
  simp only [turn, Op.perform, getOrLoad, seek, h]
  rfl

end

/-- A request without an answer that is kept stores what its load gives, for its location only. -/
theorem stores_of_unkept {c : Cache α} {w : Noted σ} {location : String} {load : StateM σ (Except Failure α)}
    (h : c.get? location = none) {l : String} {b : α} :
    (turn (.request location load) c w).Stores l b ↔ l = location ∧ (load w.world).1 = .ok b := by
  rw [turn_of_unkept h]
  constructor
  · rintro ⟨⟨load', hop, hok⟩, -⟩
    cases hop
    exact ⟨rfl, hok⟩
  · rintro ⟨rfl, hok⟩
    exact ⟨⟨load, rfl, hok⟩, rfl⟩

/-- What is held after one more turn. -/
theorem holds_concat {past : List (Turn σ α)} {t : Turn σ α} {location : String} {a : α} :
    Holds (past ++ [t]) location a ↔
      t.Stores location a ∨ Holds past location a ∧ ¬t.Drops location ∧ ∀ b, ¬t.Stores location b := by
  constructor
  · rintro ⟨earlier, u, later, hsplit, hstores, hlater⟩
    rcases List.eq_nil_or_concat' later with rfl | ⟨later, last, rfl⟩
    · obtain ⟨-, heq⟩ := List.append_inj' hsplit rfl
      cases heq
      exact .inl hstores
    · have hsplit' : past ++ [t] = (earlier ++ u :: later) ++ [last] := by
        rw [hsplit, List.append_assoc, List.cons_append]
      obtain ⟨hpast, heq⟩ := List.append_inj' hsplit' rfl
      cases heq
      refine .inr ⟨⟨earlier, u, later, hpast, hstores, fun v hv => hlater v (List.mem_append_left _ hv)⟩, ?_⟩
      exact hlater t (by simp)
  · rintro (hstores | ⟨⟨earlier, u, later, rfl, hstores, hlater⟩, hlast⟩)
    · exact ⟨past, t, [], rfl, hstores, nofun⟩
    · refine ⟨earlier, u, later ++ [t], by simp, hstores, fun v hv => ?_⟩
      rcases List.mem_append.mp hv with hv | hv
      · exact hlater v hv
      · rw [List.mem_singleton.mp hv]
        exact hlast

/-- A cache keeps what is held, and has counted what was done. -/
structure Known (past : List (Turn σ α)) (c : Cache α) (w : Noted σ) : Prop where
  kept : ∀ location a, c.get? location = some a ↔ Holds past location a
  ordered : c.table.Ordered
  requests : c.hits + c.misses = past.countP (·.op.isRequest)
  runs : c.misses = w.runs.length

namespace Known

variable {past : List (Turn σ α)} {c : Cache α} {w : Noted σ}

theorem start (world : σ) : Known ([] : List (Turn σ α)) Cache.empty ⟨world, []⟩ where
  kept location a := by
    refine iff_of_false nofun ?_
    rintro ⟨earlier, t, later, hsplit, -⟩
    cases earlier <;> cases hsplit
  ordered := .nil
  requests := rfl
  runs := rfl

theorem eq_none_iff (h : Known past c w) {location : String} :
    c.get? location = none ↔ ∀ a, ¬Holds past location a := by
  rw [Option.eq_none_iff_forall_ne_some]
  exact forall_congr' fun a => not_congr (h.kept location a)

/-- A turn that stores nothing and drops nothing. -/
theorem holds_concat_of_idle {t : Turn σ α} {location : String} (hstores : ∀ b, ¬t.Stores location b)
    (hdrops : ¬t.Drops location) (a : α) : Holds (past ++ [t]) location a ↔ Holds past location a := by
  rw [holds_concat, or_iff_right (hstores a)]
  exact and_iff_left ⟨hdrops, hstores⟩

theorem countP_concat_of_request {t : Turn σ α} (h : t.op.isRequest = true) :
    (past ++ [t]).countP (·.op.isRequest) = past.countP (·.op.isRequest) + 1 := by
  rw [List.countP_append, List.countP_singleton, if_pos h]

theorem countP_concat_of_other {t : Turn σ α} (h : t.op.isRequest = false) :
    (past ++ [t]).countP (·.op.isRequest) = past.countP (·.op.isRequest) := by
  rw [List.countP_append, List.countP_singleton, if_neg (by rw [h]; exact Bool.false_ne_true), Nat.add_zero]

theorem not_drops_request (location : String) (load : StateM σ (Except Failure α)) (l : String) :
    ¬(Cache.turn (.request location load) c w).Drops l := by
  rintro (hop | hop) <;> cases hop

/-- Only requests store. -/
theorem not_stores_of_other {t : Turn σ α} (h : t.op.isRequest = false) (l : String) (a : α) : ¬t.Stores l a := by
  rintro ⟨⟨load, hrequest, -⟩, -⟩
  rw [hrequest] at h
  cases h

theorem request_of_kept (h : Known past c w) {location : String} {a : α} (hc : c.get? location = some a)
    (load : StateM σ (Except Failure α)) :
    Known (past ++ [Cache.turn (.request location load) c w]) (Cache.turn (.request location load) c w).cacheAfter
      (Cache.turn (.request location load) c w).after := by
  have hrequests := h.requests
  have hcount : (past ++ [Cache.turn (.request location load) c w]).countP (·.op.isRequest) =
      past.countP (·.op.isRequest) + 1 := countP_concat_of_request rfl
  have hstores (l : String) (b : α) : ¬(Cache.turn (.request location load) c w).Stores l b := by
    rintro ⟨-, hran⟩
    rw [turn_of_kept hc] at hran
    simp at hran
  refine ⟨fun l b => ?_, ?_, ?_, ?_⟩
  · rw [holds_concat_of_idle (hstores l) (not_drops_request location load l), ← h.kept, turn_of_kept hc]
    rfl
  · rw [turn_of_kept hc]
    exact h.ordered
  · rw [hcount, turn_of_kept hc]
    show c.hits + 1 + c.misses = past.countP (·.op.isRequest) + 1
    omega
  · rw [turn_of_kept hc]
    exact h.runs

theorem request_of_unkept (h : Known past c w) {location : String} (hc : c.get? location = none)
    (load : StateM σ (Except Failure α)) :
    Known (past ++ [Cache.turn (.request location load) c w]) (Cache.turn (.request location load) c w).cacheAfter
      (Cache.turn (.request location load) c w).after := by
  have hrequests := h.requests
  have hcount : (past ++ [Cache.turn (.request location load) c w]).countP (·.op.isRequest) =
      past.countP (·.op.isRequest) + 1 := countP_concat_of_request rfl
  have hnone : ∀ a, ¬Holds past location a := h.eq_none_iff.mp hc
  have hmissed : get? { c with misses := c.misses + 1 } location = none := hc
  refine ⟨fun l b => ?_, ?_, ?_, ?_⟩
  · by_cases hl : l = location
    · subst hl
      rw [holds_concat, stores_of_unkept hc, or_iff_left fun hheld => hnone b hheld.1, turn_of_unkept hc,
        and_iff_right rfl]
      exact get?_keep_self hmissed b
    · have hstores (b : α) : ¬(Cache.turn (.request location load) c w).Stores l b := by
        rw [stores_of_unkept hc]
        exact fun hb => hl hb.1
      rw [holds_concat_of_idle hstores (not_drops_request location load l), ← h.kept, turn_of_unkept hc]
      exact Eq.congr_left (get?_keep_ne hl)
  · rw [turn_of_unkept hc]
    exact ordered_keep h.ordered
  · rw [hcount, turn_of_unkept hc, hits_keep, misses_keep]
    show c.hits + (c.misses + 1) = past.countP (·.op.isRequest) + 1
    omega
  · rw [turn_of_unkept hc, misses_keep, List.length_append, List.length_singleton, ← h.runs]

theorem look (h : Known past c w) (location : String) : Known (past ++ [Cache.turn (.look location) c w]) c w := by
  have hdrops (l : String) : ¬(Cache.turn (.look location) c w).Drops l := by
    rintro (hop | hop) <;> cases hop
  refine ⟨fun l a => ?_, h.ordered, ?_, h.runs⟩
  · rw [holds_concat_of_idle (not_stores_of_other rfl l) (hdrops l), h.kept]
  · rw [countP_concat_of_other rfl, h.requests]

/-- What is dropped is held no more, and all else is held as it was. -/
theorem drop (h : Known past c w) {t : Turn σ α} {table : Table α} (hop : t.op.isRequest = false)
    (hordered : table.Ordered) (hdrops : ∀ l, t.Drops l → table.get? l = none)
    (hother : ∀ l, ¬t.Drops l → table.get? l = c.table.get? l) :
    Known (past ++ [t]) { c with table := table } w := by
  have hstores (l : String) (b : α) : ¬t.Stores l b := not_stores_of_other hop l b
  refine ⟨fun l a => ?_, hordered, ?_, h.runs⟩
  · by_cases hl : t.Drops l
    · have hget : get? { c with table := table } l = none := hdrops l hl
      rw [hget, holds_concat]
      refine iff_of_false nofun ?_
      rintro (hs | ⟨-, hkeeps, -⟩)
      · exact hstores l a hs
      · exact hkeeps hl
    · have hget : get? { c with table := table } l = c.get? l := hother l hl
      rw [hget, holds_concat_of_idle (hstores l) hl, h.kept]
  · rw [countP_concat_of_other hop]
    exact h.requests

theorem invalidate (h : Known past c w) (location : String) :
    Known (past ++ [Cache.turn (.invalidate location) c w]) (c.invalidate location) w := by
  have hdrops (l : String) : (Cache.turn (.invalidate location) c w).Drops l ↔ l = location := by
    constructor
    · rintro (hop | hop)
      · cases hop
        rfl
      · cases hop
    · rintro rfl
      exact .inl rfl
  refine h.drop rfl (h.ordered.erase location) (fun l hl => ?_) (fun l hl => ?_)
  · rw [(hdrops l).mp hl]
    exact Table.get?_erase_self location c.table
  · exact Table.get?_erase_ne (fun heq => hl ((hdrops l).mpr heq)) c.table

theorem clear (h : Known past c w) : Known (past ++ [Cache.turn .clear c w]) c.clear w :=
  h.drop rfl .nil (fun _ _ => rfl) (fun _ hl => absurd (.inr rfl) hl)

theorem turn (h : Known past c w) (op : Op σ α) :
    Known (past ++ [Cache.turn op c w]) (Cache.turn op c w).cacheAfter (Cache.turn op c w).after := by
  cases op with
  | request location load =>
    cases hc : c.get? location with
    | some a => exact h.request_of_kept hc load
    | none => exact h.request_of_unkept hc load
  | look location => exact h.look location
  | invalidate location => exact h.invalidate location
  | clear => exact h.clear

/-- As many entries are kept as there are locations of which a schema is held. -/
theorem entries (h : Known past c w) : ∃ locations : List String, locations.Nodup ∧
    (∀ location, location ∈ locations ↔ ∃ a, Holds past location a) ∧ c.stats.entries = locations.length := by
  refine ⟨c.table.map (·.1), h.ordered.nodup_keys, fun location => ?_, (List.length_map _).symm⟩
  rw [Table.mem_keys]
  exact exists_congr fun a => h.kept location a

end Known

theorem turn_follows {past : List (Turn σ α)} {c : Cache α} {w : Noted σ} (h : Known past c w) (op : Op σ α) :
    (turn op c w).Follows past where
  hit location load a hop hheld := by
    obtain rfl : op = .request location load := hop
    rw [turn_of_kept ((h.kept location a).mpr hheld)]
    exact ⟨rfl, rfl⟩
  miss location load hop hnever := by
    obtain rfl : op = .request location load := hop
    rw [turn_of_unkept (h.eq_none_iff.mpr hnever)]
    exact ⟨rfl, rfl⟩
  look location hop := by
    obtain rfl : op = .look location := hop
    exact ⟨rfl, c.get? location, rfl, h.kept location⟩
  dropped location hdrops := by
    rcases hdrops with hop | hop
    · obtain rfl : op = .invalidate location := hop
      rfl
    · obtain rfl : op = .clear := hop
      rfl
  kept := (h.turn op).kept
  requests := (h.turn op).requests
  runs := (h.turn op).runs
  entries := (h.turn op).entries

/-- In every history of a cache that starts empty, a request gives what the latest successful load of its location gave
if that was not dropped, and otherwise runs its own load, once. Failures are not kept. Hits and misses count the
requests, misses the loads that were run, and entries the locations of which a schema is held. -/
theorem history_memo {ops : List (Op σ α)} {world : σ} {past future : List (Turn σ α)} {t : Turn σ α}
    (h : history ops Cache.empty ⟨world, []⟩ = past ++ t :: future) : t.Follows past := by
  obtain ⟨op, c, w, rfl, hknown⟩ := exists_turn_of_split (fun _ _ => rfl) (fun _ _ _ _ => rfl)
    (fun _ _ _ op hknown => hknown.turn op) (Known.start world) h
  exact turn_follows hknown op

end

/-- A load that counts how often loads are run. -/
private def counting (loaded : Except Failure String) : StateM Nat (Except Failure String) :=
  fun count => (loaded, count + 1)

/-- A failure, a success, a hit, and a success after the location was dropped. -/
private def reloaded : List (Op Nat String) :=
  [.request "a" (counting (.error .unanswered)), .request "a" (counting (.ok "old")),
    .request "a" (counting (.ok "unused")), .invalidate "a", .request "a" (counting (.ok "new")), .look "a"]

theorem history_memo_reloaded :
    ∃ past t future, history reloaded Cache.empty ⟨0, []⟩ = past ++ t :: future ∧ past.length = 4 ∧
      t.Follows past ∧ t.answer = .loaded (.ok "new") ∧ t.before.world = 2 ∧ t.after.world = 3 ∧
      t.cacheAfter.stats = ⟨1, 3, 1⟩ := by
  have hsplit : history reloaded Cache.empty ⟨0, []⟩ =
      (history reloaded Cache.empty ⟨0, []⟩).take 4 ++
        turn (.request "a" (counting (.ok "new"))) ⟨[], 1, 2⟩ ⟨2, ["a", "a"]⟩ ::
          (history reloaded Cache.empty ⟨0, []⟩).drop 5 := rfl
  exact ⟨_, _, _, hsplit, rfl, history_memo hsplit, rfl, rfl, rfl, rfl⟩

end Schematron.Loading.Cache
