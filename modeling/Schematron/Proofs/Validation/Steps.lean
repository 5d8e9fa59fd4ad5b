import Schematron.Proofs.Validation.Scopes
import Schematron.Proofs.Validation.Slots
import Schematron.Validation.Run

/-!
Parts of runs, one after the other, with queries compiled on the spot.
-/

namespace Schematron.Validation.Run

open Schematron.Evaluation
open Schematron.Xml

variable {α β : Type}

instance : LawfulMonad Run := inferInstanceAs (LawfulMonad (ExceptT Failure (StateT RunState Queries)))

/-- What a part of a run comes to in a state, and the state after it. -/
def exec (s : Schema.Compiled) (x : Run α) (st : RunState) : Except Failure α × RunState :=
  (x.run.run st).runAnew s

variable (s : Schema.Compiled) (st : RunState)

theorem exec_pure (a : α) : exec s (pure a) st = (.ok a, st) := rfl

theorem exec_get : exec s get st = (.ok st, st) := rfl

theorem exec_modify (f : RunState → RunState) : exec s (modify f) st = (.ok ⟨⟩, f st) := rfl

theorem exec_ask (place : Place) : exec s (ask place) st = (.ok (compileAt s place), st) := rfl

theorem exec_bind (x : Run α) (f : α → Run β) :
    exec s (x >>= f) st = match exec s x st with
      | (.ok a, after) => exec s (f a) after
      | (.error e, after) => (.error e, after) := by
  unfold exec
  rw [ExceptT.run_bind, StateT.run_bind, Queries.runAnew_bind]
  rcases (x.run.run st).runAnew s with ⟨e | a, after⟩ <;> rfl

theorem exec_bind_ok {x : Run α} {a : α} {after : RunState} (h : exec s x st = (.ok a, after))
    (f : α → Run β) : exec s (x >>= f) st = exec s (f a) after := by
  rw [exec_bind, h]

theorem exec_bind_error {x : Run α} {e : Failure} {after : RunState} (h : exec s x st = (.error e, after))
    (f : α → Run β) : exec s (x >>= f) st = (.error e, after) := by
  rw [exec_bind, h]

theorem exec_pushScope : exec s pushScope st = (.ok ⟨⟩, { st with session := st.session.push }) := rfl

theorem exec_popScope : exec s popScope st = match st.session.pop with
    | .ok session => (.ok ⟨⟩, { st with session })
    | .error e => (.error (.scope e), st) := by
  unfold popScope
  rw [exec_bind_ok s st (exec_get s st)]
  cases st.session.pop <;> rfl

theorem exec_bindQuery (name : String) (node : Node) (q : Query.Compiled) :
    exec s (bindQuery name node q) st = match st.session.bind name q node with
      | .ok session => (.ok ⟨⟩, { st with session })
      | .error e => (.error (.scope e), st) := by
  unfold bindQuery
  rw [exec_bind_ok s st (exec_get s st)]
  cases st.session.bind name q node <;> rfl

theorem exec_bindLet (o : Options) (place : Place) (name : String) (node : Node) :
    exec s (bindLet o place name node) st = match compileAt s place with
      | .error e => exec s (tolerate o () (.error (.parse e))) st
      | .ok q => exec s (bindQuery name node q) st := by
  unfold bindLet
  rw [exec_bind_ok s st (exec_ask s st place)]
  cases compileAt s place <;> rfl

theorem exec_withQuery (place : Place)
    (f : Session → Query.Compiled → Except EvaluationError α × Session) :
    exec s (withQuery place f) st = match compileAt s place with
      | .error e => (.ok (.error (.parse e)), st)
      | .ok q => (.ok (f st.session q).1, { st with session := (f st.session q).2 }) := by
  unfold withQuery
  rw [exec_bind_ok s st (exec_ask s st place)]
  cases compileAt s place <;> rfl

end Schematron.Validation.Run
