import Mathlib.Order.Bounds.Basic
import Mathlib.Algebra.Order.Ring.Nat
import Schematron.Loading.Fetch

/-!
How often a schema is asked for. A client goes on as long as the server fails and repetitions are left, and waits
twice as long each time; that counts have a largest one never shows.
-/

namespace Schematron.Loading

/-- No response, or the server's own failure: the next reply may be another. -/
def Reply.IsTransient : Reply → Prop
  | .none => True
  | .response code _ => Fetch.isServerError code = true

namespace Fetch

/-- What a client makes of the reply with which it stops. -/
def outcome (url : String) : Reply → Except Failure ByteArray
  | .none => .error .unanswered
  | .response code body => if isSuccess code then .ok body else .error (.status code url (reason code))

/-- What a server sees of its client. -/
inductive Act where
  | request (url : String)
  | pause (milliseconds : Nat)

/-- How far a script has been played: how many of its replies are given, and what the client has done. -/
structure Played where
  replies : Nat
  acts : List Act

/-- A network on which the requests are answered by a script, one after the other. -/
def scripted (script : Nat → Reply) : Network (StateM Played) where
  request url := fun s => (script s.replies, ⟨s.replies + 1, s.acts ++ [.request url]⟩)
  pause milliseconds := fun s => ((), { s with acts := s.acts ++ [.pause milliseconds] })

theorem run_request_bind {α : Type} (script : Nat → Reply) (url : String) (f : Reply → StateM Played α)
    (s : Played) :
    ((scripted script).request url >>= f).run s =
      (f (script s.replies)).run ⟨s.replies + 1, s.acts ++ [.request url]⟩ :=
  rfl

theorem run_pause_bind {α : Type} (script : Nat → Reply) (milliseconds : Nat) (f : Unit → StateM Played α)
    (s : Played) :
    ((scripted script).pause milliseconds >>= f).run s =
      (f ()).run { s with acts := s.acts ++ [.pause milliseconds] } :=
  rfl

/-- The pause is what it is without a bound on counts, as long as the longest pause can be counted: a product
that is cut off was longer than that. -/
theorem pauseAfter_eq {p : FetchPolicy} (h : p.longestPause ≤ largestCount) (n : Nat) :
    pauseAfter p n = min (p.firstPause * 2 ^ n) p.longestPause := by
  unfold pauseAfter saturated
  rw [Nat.pow_eq]
  rcases Nat.eq_zero_or_pos p.firstPause with hzero | hpos
  · simp [hzero]
  rcases Nat.le_total (2 ^ n) largestCount with hpow | hpow
  · rw [Nat.min_eq_left hpow]
    omega
  · have hcut : largestCount ≤ p.firstPause * largestCount := Nat.le_mul_of_pos_left _ hpos
    have hwhole : 2 ^ n ≤ p.firstPause * 2 ^ n := Nat.le_mul_of_pos_left _ hpos
    rw [Nat.min_eq_right hpow]
    omega

variable {p : FetchPolicy} {url : String} {script : Nat → Reply} {reply : Reply}

theorem judge_of_transient (url : String) (h : reply.IsTransient) :
    ∃ e, judge url reply = .again e ∧ outcome url reply = .error e := by
  cases reply with
  | none => exact ⟨_, rfl, rfl⟩
  | response code body =>
    have hserver : isServerError code = true := h
    have hsuccess : isSuccess code = false := by
      simp only [isServerError, isSuccess, Bool.and_eq_true, Bool.and_eq_false_iff, decide_eq_true_eq,
        decide_eq_false_iff_not] at hserver ⊢
      omega
    exact ⟨.status code url (reason code), by simp [judge, hserver, hsuccess], by simp [outcome, hsuccess]⟩

theorem judge_of_not_transient (url : String) (h : ¬ reply.IsTransient) :
    (∃ body, judge url reply = .success body ∧ outcome url reply = .ok body) ∨
      ∃ e, judge url reply = .final e ∧ outcome url reply = .error e := by
  cases reply with
  | none => exact absurd trivial h
  | response code body =>
    have hserver : isServerError code = false := by simpa [Reply.IsTransient] using h
    cases hsuccess : isSuccess code with
    | true => exact .inl ⟨body, by simp [judge, hsuccess], by simp [outcome, hsuccess]⟩
    | false =>
      exact .inr ⟨.status code url (reason code), by simp [judge, hsuccess, hserver], by simp [outcome, hsuccess]⟩

/-- A reply is the last one if it is none to try again at, or if no repetition is left. -/
theorem attempts_last {left : Nat} {s : Played} (h : ¬ (script s.replies).IsTransient ∨ left = 0) (done : Nat) :
    (attempts (scripted script) p url done left).run s =
      (outcome url (script s.replies), ⟨s.replies + 1, s.acts ++ [.request url]⟩) := by
  by_cases htransient : (script s.replies).IsTransient
  · obtain rfl : left = 0 := h.resolve_left (not_not_intro htransient)
    obtain ⟨e, hjudge, houtcome⟩ := judge_of_transient url htransient
    rw [houtcome, attempts, run_request_bind, hjudge]
    rfl
  · rcases judge_of_not_transient url htransient with ⟨body, hjudge, houtcome⟩ | ⟨e, hjudge, houtcome⟩
    all_goals
      rw [houtcome]
      cases left <;> rw [attempts, run_request_bind, hjudge] <;> rfl

/-- After another reply the client waits and goes on. -/
theorem attempts_again {s : Played} (h : (script s.replies).IsTransient) (done left : Nat) :
    (attempts (scripted script) p url done (left + 1)).run s =
      (attempts (scripted script) p url (done + 1) left).run
        ⟨s.replies + 1, s.acts ++ [.request url, .pause (pauseAfter p done)]⟩ := by
  obtain ⟨e, hjudge, -⟩ := judge_of_transient url h
  rw [attempts, run_request_bind, hjudge]
  dsimp only
  rw [run_pause_bind, List.append_assoc, List.singleton_append]

/-- The requests from the one after `done` repetitions on, each with the pause that follows it. -/
def repeated (p : FetchPolicy) (url : String) (done count : Nat) : List Act :=
  (List.range' done count).flatMap fun k => [.request url, .pause (pauseAfter p k)]

/-- From any request on, the client goes through transient replies and stops at the first other one, or where no
repetition is left. -/
theorem attempts_run (p : FetchPolicy) (url : String) (script : Nat → Reply) (left done : Nat) (acts : List Act) :
    ∃ count ≤ left, (∀ k, done ≤ k → k < done + count → (script k).IsTransient) ∧
      (¬ (script (done + count)).IsTransient ∨ count = left) ∧
      (attempts (scripted script) p url done left).run ⟨done, acts⟩ =
        (outcome url (script (done + count)),
          ⟨done + count + 1, acts ++ repeated p url done count ++ [.request url]⟩) := by
  induction left generalizing done acts with
  | zero =>
    refine ⟨0, Nat.le_refl 0, fun k _ _ => by omega, .inr rfl, ?_⟩
    rw [attempts_last (.inr rfl)]
    simp [repeated]
  | succ left ih =>
    by_cases htransient : (script done).IsTransient
    · obtain ⟨count, hcount, hbefore, hstop, hrun⟩ :=
        ih (done + 1) (acts ++ [.request url, .pause (pauseAfter p done)])
      have hshift : done + 1 + count = done + (count + 1) := by omega
      rw [hshift] at hbefore hstop hrun
      refine ⟨count + 1, by omega, fun k hle hlt => ?_, hstop.imp_right (by omega), ?_⟩
      · rcases Nat.eq_or_lt_of_le hle with rfl | hlt'
        · exact htransient
        · exact hbefore k hlt' hlt
      · rw [attempts_again htransient, hrun]
        simp [repeated, List.range'_succ]
    · refine ⟨0, Nat.zero_le _, fun k _ _ => by omega, .inl htransient, ?_⟩
      rw [attempts_last (.inl htransient)]
      simp [repeated]

/-- A client that may repeat a request stops at the first reply that is not transient, or after the last
repetition, and gives back that reply or its status. It has used that reply and those before it, and between two
requests it has waited for the first pause, doubled as often as there were repetitions, but never longer than the
longest pause. -/
theorem attempts_scripted (p : FetchPolicy) (hlongest : p.longestPause ≤ largestCount) (url : String)
    (script : Nat → Reply) :
    ∃ i, IsLeast {k | ¬ (script k).IsTransient ∨ k = p.retries} i ∧
      (i ≤ p.retries ∧ ∀ k < i, (script k).IsTransient) ∧
      (attempts (scripted script) p url 0 p.retries).run ⟨0, []⟩ =
        (outcome url (script i), ⟨i + 1,
          (List.range i).flatMap (fun k => [.request url, .pause (min (p.firstPause * 2 ^ k) p.longestPause)])
            ++ [.request url]⟩) := by
  obtain ⟨i, hle, hbefore, hstop, hrun⟩ := attempts_run p url script p.retries 0 []
  simp only [Nat.zero_add, Nat.zero_le, true_implies, List.nil_append] at hbefore hstop hrun
  refine ⟨i, ⟨hstop, fun k hk => ?_⟩, ⟨hle, hbefore⟩, ?_⟩
  · rcases hk with hk | rfl
    · by_contra hlt
      exact hk (hbefore k (by omega))
    · exact hle
  · rw [hrun, repeated, List.range_eq_range']
    simp only [pauseAfter_eq hlongest]

/-- A server that fails twice before it answers. -/
private def failing : Nat → Reply
  | 0 => .response 503 .empty
  | 1 => .response 500 .empty
  | _ => .response 200 "<schema/>".toUTF8

/-- The second pause would be one more than can be counted. -/
theorem attempts_scripted_atLargest :
    (⟨3, Nat.pow 2 63, Nat.pow 2 64 - 1, 16⟩ : FetchPolicy).longestPause ≤ largestCount ∧
      (attempts (scripted failing) ⟨3, Nat.pow 2 63, Nat.pow 2 64 - 1, 16⟩ "u" 0 3).run ⟨0, []⟩ =
        (.ok "<schema/>".toUTF8, ⟨3, [.request "u", .pause 9223372036854775808, .request "u",
          .pause 18446744073709551615, .request "u"]⟩) := by
  have hlongest : (⟨3, Nat.pow 2 63, Nat.pow 2 64 - 1, 16⟩ : FetchPolicy).longestPause ≤ largestCount := Nat.le_refl _
  obtain ⟨i, ⟨hstop, hleast⟩, -, hrun⟩ := attempts_scripted _ hlongest "u" failing
  have hi : i = 2 := by
    have hle : i ≤ 2 := hleast (.inl Bool.false_ne_true)
    rcases hstop with hstop | rfl
    · match i, hle with
      | 0, _ => exact absurd rfl hstop
      | 1, _ => exact absurd rfl hstop
      | 2, _ => rfl
    · exact absurd hle (by decide)
  refine ⟨hlongest, hrun.trans ?_⟩
  rw [hi]
  rfl

end Fetch

end Schematron.Loading
