import LockedContainers.Set.Place

/-!
# A sorted set behind one lock

Every operation holds the lock from its first comparison to its last change.
-/
namespace LockedContainers

structure MonitorSet (T : Type) where
  keys : List T := []
  count : Nat := 0
deriving DecidableEq, Repr

namespace MonitorSet

variable {T ε σ : Type} (cb : SetCallbacks T ε σ)

/-- The number of leading keys before `key`. -/
def position (key : T) : List T → EStateM ε σ Nat
  | [] => pure 0
  | k :: rest => do
    if ← (Place.at k).isBefore cb key then return (← position key rest) + 1
    else return 0

def sameAt (keys : List T) (i : Nat) (key : T) : EStateM ε σ Bool :=
  (Place.start (keys.drop i)).isSame cb key

/-- Whether each key is before the next one. -/
def ascending : List T → EStateM ε σ Bool
  | k :: next :: rest => do
    if ← cb.compare k next then ascending (next :: rest) else return false
  | _ => pure true

def add (key : T) : Guarded (MonitorSet T) ε σ Bool := do
  let set ← Guarded.read
  let i ← Guarded.call (position cb key set.keys)
  if ← Guarded.call (sameAt cb set.keys i key) then return false
  Guarded.modify fun set => ⟨set.keys.insertIdx i key, set.count + 1⟩
  return true

def remove (key : T) : Guarded (MonitorSet T) ε σ Bool := do
  let set ← Guarded.read
  let i ← Guarded.call (position cb key set.keys)
  if ← Guarded.call (sameAt cb set.keys i key) then
    Guarded.modify fun set => ⟨set.keys.eraseIdx i, set.count - 1⟩
    return true
  return false

def contains (key : T) : Guarded (MonitorSet T) ε σ Bool := do
  let set ← Guarded.read
  let i ← Guarded.call (position cb key set.keys)
  Guarded.call (sameAt cb set.keys i key)

def size : Guarded (MonitorSet T) ε σ Nat := do return (← Guarded.read).count

def snapshot : Guarded (MonitorSet T) ε σ (List T) := do
  Guarded.call ((← Guarded.read).keys.mapM cb.copy)

/-- Whether the keys ascend and the counter is right. -/
def audit : Guarded (MonitorSet T) ε σ Bool := do
  let set ← Guarded.read
  if ← Guarded.call (ascending cb set.keys) then return set.keys.length = set.count
  else return false

end MonitorSet
end LockedContainers
