import LockedContainers.Map.Failure

/-!
# Hash maps under locks

A map is a table with a count of its entries and of its growths. The two ways
to lock it share everything but construction, insertion and audit.
-/
namespace LockedContainers

inductive Locking
  /-- One lock for the whole table. -/
  | monitor
  /-- A bank of locks, each for the buckets of one residue class. -/
  | striped
deriving DecidableEq, Repr

structure LockedMap (locking : Locking) (K V : Type) where
  /-- As given, or as rounded at construction. -/
  options : MapOptions
  table : Table K V
  count : Nat := 0
  growths : Nat := 0
deriving DecidableEq, Repr

abbrev MonitorMap := LockedMap .monitor

abbrev StripedMap := LockedMap .striped

/-- A critical section on a map. -/
abbrev MapSection (l : Locking) (K V ε σ α : Type) :=
  Guarded (LockedMap l K V) (MapFailure ε) σ α

namespace LockedMap

variable {l : Locking} {K V ε σ : Type} (cb : MapCallbacks K V ε σ)

/-- Whether one entry more is too many for the table. -/
def isFull (map : LockedMap l K V) : Bool :=
  map.options.exceeds (map.count + 1) map.table.size

/-- An empty map, once its table is granted. -/
def build (options : MapOptions) : EStateM (MapFailure ε) σ (LockedMap l K V) := do
  let buckets := options.buckets.toNat
  (cb.allocate (Table.bucketBytes * buckets)).adaptExcept .callback
  return { options, table := Table.vacant buckets }

/-- The slot of a hash, and the entry with the key there. -/
def lookup (h : UInt64) (key : K) : MapSection l K V ε σ (Nat × Option (Hit K V)) := do
  let map ← Guarded.read
  let slot ← map.table.slot h
  let hit ← Guarded.ask ((map.table.bucket slot).find cb key)
  return (slot, hit)

def overwrite (slot : Nat) (hit : Hit K V) (value : V) : MapSection l K V ε σ Unit :=
  Guarded.modify fun map =>
    { map with table := map.table.setIfInBounds slot (hit.replaced value) }

/-- Asks for storage for one entry more in a bucket. -/
def makeRoom (slot : Nat) : MapSection l K V ε σ Unit := do
  let map ← Guarded.read
  Guarded.ask (cb.allocate (Table.widerBytes cb.entryBytes (map.table.bucket slot).length))

def link (slot : Nat) (key : K) (value : V) : MapSection l K V ε σ Unit := do
  makeRoom cb slot
  Guarded.modify fun map =>
    { map with table := map.table.append slot (key, value), count := map.count + 1 }

def unlink (slot : Nat) (hit : Hit K V) : MapSection l K V ε σ Unit :=
  Guarded.modify fun map =>
    { map with table := map.table.setIfInBounds slot hit.removed, count := map.count - 1 }

/-- Installs a table of twice the size; a failure leaves the old one. -/
def double : MapSection l K V ε σ Unit := do
  let map ← Guarded.read
  let table ← Guarded.ask (map.table.resized cb (map.table.size * 2))
  Guarded.modify fun map => { map with table, growths := map.growths + 1 }

def get (key : K) : MapSection l K V ε σ (Option V) := do
  match ← lookup cb (← Guarded.ask (cb.hash key)) key with
  | (_, some hit) => some <$> Guarded.ask (cb.copy hit.value)
  | (_, none) => return none

/-- Answers the value that was removed. -/
def remove (key : K) : MapSection l K V ε σ (Option V) := do
  match ← lookup cb (← Guarded.ask (cb.hash key)) key with
  | (slot, some hit) =>
    unlink slot hit
    return some hit.value
  | (_, none) => return none

def contains (key : K) : MapSection l K V ε σ Bool := do
  let (_, hit) ← lookup cb (← Guarded.ask (cb.hash key)) key
  return hit.isSome

def size : MapSection l K V ε σ Nat := do return (← Guarded.read).count

def bucketCount : MapSection l K V ε σ Nat := do return (← Guarded.read).table.size

def growthCount : MapSection l K V ε σ Nat := do return (← Guarded.read).growths

def loadFactor : MapSection l K V ε σ Binary64 := do
  let map ← Guarded.read
  return (Binary64.ofNat map.count).div (.ofNat map.table.size)

/-- Whether every entry is at home, no bucket repeats a key, and the counter is right. -/
def auditTable : MapSection l K V ε σ Bool := do
  let map ← Guarded.read
  return (← Guarded.ask (map.table.homed cb)) = some map.count

end LockedMap
end LockedContainers
