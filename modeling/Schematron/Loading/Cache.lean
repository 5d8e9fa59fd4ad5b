import Schematron.Loading.Failure
import Schematron.Number.Fixed
import Schematron.Table

namespace Schematron.Loading

/-- What has been loaded, by location. -/
structure Cache (α : Type) where
  table : Table α
  hits : Nat
  misses : Nat

namespace Cache

variable {α : Type}

def empty : Cache α := ⟨[], 0, 0⟩

def get? (c : Cache α) (location : String) : Option α := c.table.get? location

/-- What is kept for a location. A hit or a miss is counted. -/
def seek (c : Cache α) (location : String) : Option α × Cache α :=
  match c.get? location with
  | some a => (some a, { c with hits := c.hits + 1 })
  | none => (none, { c with misses := c.misses + 1 })

/-- Keeps what has been loaded. A failure is not kept. -/
def keep (c : Cache α) (location : String) : Except Failure α → Cache α
  | .ok a => { c with table := c.table.insert location a }
  | .error _ => c

/-- What a load gives to those who waited for it. -/
def shareOf (loaded : Except Failure α) : Except Failure α := loaded.mapError .shared

/-- What is kept for a location, or else what `load` gives, which is kept from then on. -/
def getOrLoad {m : Type → Type} [Monad m] (c : Cache α) (location : String)
    (load : m (Except Failure α)) : m (Except Failure α × Cache α) :=
  match c.seek location with
  | (some a, c) => return (.ok a, c)
  | (none, c) => do
    let loaded ← load
    return (shareOf loaded, c.keep location loaded)

def invalidate (c : Cache α) (location : String) : Cache α := { c with table := c.table.erase location }

def clear (c : Cache α) : Cache α := { c with table := [] }

structure Stats where
  hits : Nat
  misses : Nat
  entries : Nat
  deriving DecidableEq, Repr

def stats (c : Cache α) : Stats := ⟨c.hits, c.misses, c.table.length⟩

/-- The share of look-ups that were hits. -/
def Stats.hitRate (s : Stats) : Float :=
  let total := s.hits + s.misses
  if total = 0 then 0.0 else Float.ofNat s.hits / Float.ofNat total

end Cache

end Schematron.Loading
