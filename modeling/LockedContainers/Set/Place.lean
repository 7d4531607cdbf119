import LockedContainers.Guarded

/-!
# Places in a sorted list

A list is bounded by a head before every key and a tail after every key, so
a search compares keys with keys only.
-/
namespace LockedContainers

/-- What a set asks of its keys; both may fail and keep state. -/
structure SetCallbacks (T ε σ : Type) where
  compare : T → T → EStateM ε σ Bool
  copy : T → EStateM ε σ T

inductive Place (T : Type)
  | head
  | at (key : T)
  | tail
deriving DecidableEq, Repr

namespace Place

variable {T ε σ : Type} (cb : SetCallbacks T ε σ)

/-- The place where the rest of a list begins. -/
def start : List T → Place T
  | [] => tail
  | key :: _ => .at key

def isBefore (key : T) : Place T → EStateM ε σ Bool
  | head => pure true
  | .at k => cb.compare k key
  | tail => pure false

/-- For a place that is not before `key`, one comparison more decides equivalence. -/
def isSame (key : T) : Place T → EStateM ε σ Bool
  | .at k => do return !(← cb.compare key k)
  | _ => pure false

end Place
end LockedContainers
