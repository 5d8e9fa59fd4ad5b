import Schematron.Batch.Run

/-!
Validation of many files that take turns. A file begins when a permit is free and gives it back with its
result; between two questions of one file any others may be answered. A schema that several files ask for is
loaded for the first of them, and the others wait and get what it gets.
-/

namespace Schematron.Batch

open Schematron.Loading

variable {m : Type → Type} [Monad m]

/-- How far the validation of a file has come. -/
inductive Task where
  /-- It waits for a permit. -/
  | queued (path : Files.Raw)
  | running (job : Job FileResult)
  /-- The schema at a source is being loaded for it. -/
  | loading (source : Source) (next : Except Failure Schema.Compiled → Job FileResult)
  /-- It waits for a schema that is being loaded for another file. -/
  | awaiting (location : String) (next : Except Failure Schema.Compiled → Job FileResult)
  | ended (r : FileResult)

namespace Task

/-- Whether the file holds a permit. -/
def isActive : Task → Bool
  | queued _ => false
  | ended _ => false
  | _ => true

def loads (location : String) : Task → Bool
  | loading source _ => source.key = location
  | _ => false

/-- Goes on with what has come for a location. -/
def receive (location : String) (answer : Except Failure Schema.Compiled) : Task → Task
  | awaiting l next => if l = location then running (next answer) else awaiting l next
  | task => task

def result? : Task → Option FileResult
  | ended r => some r
  | _ => none

end Task

structure Pool where
  tasks : List Task
  shared : Shared

namespace Pool

/-- Files of which none has been begun. -/
def begin (paths : List Files.Raw) (shared : Shared) : Pool := ⟨paths.map .queued, shared⟩

def setTask (pool : Pool) (i : Nat) (task : Task) : Pool := { pool with tasks := pool.tasks.set i task }

/-- The number of permits that are out. -/
def active (pool : Pool) : Nat := pool.tasks.countP Task.isActive

/-- Whether a load for a location is under way. -/
def isLoading (pool : Pool) (location : String) : Bool := pool.tasks.any (Task.loads location)

/-- Gives what has been loaded to all that wait for it, and keeps it. -/
def deliver (pool : Pool) (location : String) (loaded : Except Failure Schema.Compiled) : Pool :=
  ⟨pool.tasks.map (Task.receive location (Cache.shareOf loaded)), pool.shared.keep location loaded⟩

/-- It is the turn of a file. Nothing happens where it has to wait, or has ended. -/
def advance (setup : Setup m) (permits : Nat) (pool : Pool) (i : Nat) : m Pool :=
  match pool.tasks[i]? with
  | some (.queued path) =>
    return if pool.active < max permits 1 then pool.setTask i (.running (setup.task path)) else pool
  | some (.running (.done r)) => return pool.setTask i (.ended r)
  | some (.running (.ask (.load source) next)) =>
    match pool.shared.cache.get? source.key with
    | some schema => return pool.setTask i (.running (next (.ok schema)))
    | none =>
      return pool.setTask i (if pool.isLoading source.key then .awaiting source.key next else .loading source next)
  | some (.running (.ask op next)) => do
    let (answer, shared) ← op.perform setup pool.shared
    return { pool with shared }.setTask i (.running (next answer))
  | some (.loading source next) => do
    let loaded ← setup.supply.schema source
    return (pool.deliver source.key loaded).setTask i (.running (next (Cache.shareOf loaded)))
  | some (.awaiting _ _) => return pool
  | some (.ended _) => return pool
  | none => return pool

def follow (setup : Setup m) (permits : Nat) (pool : Pool) (turns : List Nat) : m Pool :=
  turns.foldlM (advance setup permits) pool

/-- The results in the order of the files, once all have ended. -/
def results? (pool : Pool) : Option (List FileResult) := pool.tasks.mapM Task.result?

end Pool

end Schematron.Batch
