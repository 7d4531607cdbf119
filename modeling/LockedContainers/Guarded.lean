import LockedContainers.Part

/-!
# Operations under a lock

An operation runs on a container and on the state that the container's
callbacks keep. It may fail, and what it changed before that stays changed.
-/
namespace LockedContainers

/-- A container beside the state of its callbacks. -/
structure Shared (C σ : Type) where
  container : C
  outside : σ
deriving DecidableEq, Repr

/-- One critical section on a container of type `C`. -/
abbrev Guarded (C ε σ α : Type) := EStateM ε (Shared C σ) α

namespace Guarded

variable {C ε σ α : Type}

/-- Runs a callback, which sees its own state only. -/
def call (act : EStateM ε σ α) : Guarded C ε σ α :=
  onPart Shared.outside (fun s o => { s with outside := o }) act

def read : Guarded C ε σ C := fun s => .ok s.container s

def modify (f : C → C) : Guarded C ε σ Unit := fun s =>
  .ok () { s with container := f s.container }

end Guarded
end LockedContainers
