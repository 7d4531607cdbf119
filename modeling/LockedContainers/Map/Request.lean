import LockedContainers.Map.Monitor
import LockedContainers.Map.Striped

/-!
# Requests to a map

The operations for either way of locking, as functions and as data.
-/
namespace LockedContainers

namespace LockedMap

variable {l : Locking} {K V ε σ : Type} (cb : MapCallbacks K V ε σ)

def make (l : Locking) (options : MapOptions) : EStateM (MapFailure ε) σ (LockedMap l K V) :=
  match l with
  | .monitor => MonitorMap.make cb options
  | .striped => StripedMap.make cb options

def put (key : K) (value : V) : MapSection l K V ε σ (Option V) :=
  match l with
  | .monitor => MonitorMap.put cb key value
  | .striped => StripedMap.put cb key value

def audit : MapSection l K V ε σ Bool :=
  match l with
  | .monitor => auditTable cb
  | .striped => StripedMap.audit cb

end LockedMap

inductive MapRequest (K V : Type)
  | put (key : K) (value : V)
  | get (key : K)
  | remove (key : K)
  | contains (key : K)
  | size
  | isEmpty
  | bucketCount
  | growthCount
  | loadFactor
  | options
  | audit
deriving DecidableEq, Repr

inductive MapAnswer (V : Type)
  | value (v : Option V)
  | flag (b : Bool)
  | count (n : Nat)
  | factor (x : Binary64)
  | options (o : MapOptions)
deriving DecidableEq, Repr

/-- Carries the request out. -/
def MapRequest.perform {l : Locking} {K V ε σ : Type} (cb : MapCallbacks K V ε σ) :
    MapRequest K V → MapSection l K V ε σ (MapAnswer V)
  | put key value => .value <$> LockedMap.put cb key value
  | get key => .value <$> LockedMap.get cb key
  | remove key => .value <$> LockedMap.remove cb key
  | contains key => .flag <$> LockedMap.contains cb key
  | size => .count <$> LockedMap.size
  | isEmpty => (fun n => .flag (n = 0)) <$> LockedMap.size
  | bucketCount => .count <$> LockedMap.bucketCount
  | growthCount => .count <$> LockedMap.growthCount
  | loadFactor => .factor <$> LockedMap.loadFactor
  | options => (fun map => .options map.options) <$> Guarded.read
  | audit => .flag <$> LockedMap.audit cb

end LockedContainers
