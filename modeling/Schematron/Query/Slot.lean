import Schematron.Query.Language

namespace Schematron.Query

/-- A query and, once it has been compiled, its compiled form. -/
structure Slot where
  source : String
  compiled : Option Compiled
  deriving DecidableEq, Repr

namespace Slot

variable {ε : Type}

def ofSource (source : String) : Slot := ⟨source, none⟩

/-- The slot after it was found empty and this came of compiling its source. -/
def keep (slot : Slot) : Except ε Compiled → Slot
  | .ok c => { slot with compiled := some c }
  | .error _ => slot

/-- The compiled form, made on first use. After a failure the slot is as it was. -/
def getOrCompileIn {m : Type → Type} [Monad m] (slot : Slot) (make : String → m (Except ε Compiled)) :
    m (Except ε Compiled × Slot) := do
  match slot.compiled with
  | some c => return (.ok c, slot)
  | none =>
    let answer ← make slot.source
    return (answer, slot.keep answer)

/-- The same where making the compiled form does nothing else. -/
def getOrCompile (slot : Slot) (make : String → Except ε Compiled) : Except ε Compiled × Slot :=
  Id.run (slot.getOrCompileIn fun source => pure (make source))

section

variable {m : Type → Type} [Monad m] {slot : Slot}

theorem getOrCompileIn_of_some {c : Compiled} (h : slot.compiled = some c)
    (make : String → m (Except ε Compiled)) : slot.getOrCompileIn make = pure (.ok c, slot) := by
  simp only [getOrCompileIn, h]

theorem getOrCompileIn_of_none (h : slot.compiled = none) (make : String → m (Except ε Compiled)) :
    slot.getOrCompileIn make = make slot.source >>= fun answer => pure (answer, slot.keep answer) := by
  simp only [getOrCompileIn, h]

theorem getOrCompile_of_some {c : Compiled} (h : slot.compiled = some c) (make : String → Except ε Compiled) :
    slot.getOrCompile make = (.ok c, slot) := by
  rw [getOrCompile, getOrCompileIn_of_some h]
  rfl

theorem getOrCompile_of_none (h : slot.compiled = none) (make : String → Except ε Compiled) :
    slot.getOrCompile make = (make slot.source, slot.keep (make slot.source)) := by
  rw [getOrCompile, getOrCompileIn_of_none h]
  rfl

end

def isCompiled (slot : Slot) : Bool := slot.compiled.isSome

/-- A copy shares the source only. -/
def copy (slot : Slot) : Slot := ofSource slot.source

def mapSource (slot : Slot) (f : String → String) : Slot := ofSource (f slot.source)

end Slot

end Schematron.Query
