import LockedContainers.Map.Basic

/-!
# A hash map with a bank of locks

Stripe `i` guards the buckets whose index is `i` modulo the number of
stripes. An operation holds one stripe; growing the table takes all of them,
so an insertion that has to grow gives its stripe up and starts over.
-/
namespace LockedContainers

/-- How one attempt to put under a stripe ends. -/
inductive Attempt (V : Type)
  | done (previous : Option V)
  /-- The insertion has to wait for a table of more than `seen` buckets. -/
  | full (seen : Nat)
deriving DecidableEq, Repr

namespace StripedMap

variable {K V ε σ : Type} (cb : MapCallbacks K V ε σ)

def stripes (map : StripedMap K V) : Nat := map.options.stripes.toNat

/-- The stripe that guards the slot of a hash. -/
def stripeOf (map : StripedMap K V) (h : UInt64) : Nat := h.toNat % stripes map

/-- The bank of locks is granted before the table. -/
def make (options : MapOptions) : EStateM (MapFailure ε) σ (StripedMap K V) := do
  options.require
  (cb.allocate (Table.lockBytes * options.stripes.toNat)).adaptExcept .callback
  LockedMap.build cb options.rounded

/-- Under the stripe of `h`: overwrite, insert, or give up. -/
def attempt (h : UInt64) (key : K) (value : V) : MapSection .striped K V ε σ (Attempt V) := do
  match ← LockedMap.lookup cb h key with
  | (slot, some hit) =>
    LockedMap.overwrite slot hit value
    return .done (some hit.value)
  | (slot, none) =>
    let map ← Guarded.read
    if map.isFull then return .full map.table.size
    else
      LockedMap.link cb slot key value
      return .done none

/-- Under all stripes: doubles the table if it still has `seen` buckets and is still full. -/
def grow (seen : Nat) : MapSection .striped K V ε σ Unit := do
  let map ← Guarded.read
  if map.table.size = seen && map.isFull then LockedMap.double cb

/-- At most so many attempts, with a growth after each that gives up. -/
def putWithin (h : UInt64) (key : K) (value : V) : Nat → MapSection .striped K V ε σ (Option V)
  | 0 => throw .tooLarge
  | attempts + 1 => do
    match ← attempt cb h key value with
    | .done previous => return previous
    | .full seen =>
      grow cb seen
      putWithin h key value attempts

/-- No table has 2⁶⁴ buckets, so none can be doubled after so many attempts. -/
def maxAttempts : Nat := 64

/-- Inserts or overwrites; answers the previous value. -/
def put (key : K) (value : V) : MapSection .striped K V ε σ (Option V) := do
  putWithin cb (← Guarded.ask (cb.hash key)) key value maxAttempts

def stripeCount : MapSection .striped K V ε σ Nat := do return stripes (← Guarded.read)

/-- As with one lock, and the buckets come out even among the stripes. -/
def audit : MapSection .striped K V ε σ Bool := do
  let map ← Guarded.read
  if map.table.size % stripes map = 0 then LockedMap.auditTable cb else return false

end StripedMap
end LockedContainers
