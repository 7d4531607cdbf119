import LockedContainers.Map.Basic

/-!
# A hash map behind one lock

An insertion that would cross the load threshold doubles the table once and
then finds the slot of its key anew.
-/
namespace LockedContainers.MonitorMap

variable {K V ε σ : Type} (cb : MapCallbacks K V ε σ)

def make (options : MapOptions) : EStateM (MapFailure ε) σ (MonitorMap K V) := do
  options.require
  LockedMap.build cb options

/-- Inserts or overwrites; answers the previous value. -/
def put (key : K) (value : V) : MapSection .monitor K V ε σ (Option V) := do
  match ← LockedMap.lookup cb (← Guarded.ask (cb.hash key)) key with
  | (slot, some hit) =>
    LockedMap.overwrite slot hit value
    return some hit.value
  | (slot, none) =>
    if (← Guarded.read).isFull then
      LockedMap.double cb
      let h ← Guarded.ask (cb.hash key)
      LockedMap.link cb (← (← Guarded.read).table.slot h) key value
    else LockedMap.link cb slot key value
    return none

end LockedContainers.MonitorMap
