import LockedContainers.Set.Coupled
import LockedContainers.Set.Monitor

/-!
# Requests to a set

What the two sets have in common: the operations, as an interface and as data.
-/
namespace LockedContainers

/-- A sorted set that many threads may share. -/
class LockedSet (S : Type → Type) where
  empty {T : Type} : S T
  keys {T : Type} : S T → List T
  add {T ε σ : Type} (cb : SetCallbacks T ε σ) (key : T) : Guarded (S T) ε σ Bool
  remove {T ε σ : Type} (cb : SetCallbacks T ε σ) (key : T) : Guarded (S T) ε σ Bool
  contains {T ε σ : Type} (cb : SetCallbacks T ε σ) (key : T) : Guarded (S T) ε σ Bool
  size {T ε σ : Type} : Guarded (S T) ε σ Nat
  snapshot {T ε σ : Type} (cb : SetCallbacks T ε σ) : Guarded (S T) ε σ (List T)
  audit {T ε σ : Type} (cb : SetCallbacks T ε σ) : Guarded (S T) ε σ Bool
  /-- An audit that may run while writers are active. -/
  auditLive {T ε σ : Type} (cb : SetCallbacks T ε σ) : Guarded (S T) ε σ Bool

instance : LockedSet MonitorSet where
  empty := {}
  keys := MonitorSet.keys
  add := MonitorSet.add
  remove := MonitorSet.remove
  contains := MonitorSet.contains
  size := MonitorSet.size
  snapshot := MonitorSet.snapshot
  audit := MonitorSet.audit
  auditLive := MonitorSet.audit

instance : LockedSet CoupledSet where
  empty := {}
  keys := CoupledSet.keys
  add := CoupledSet.add
  remove := CoupledSet.remove
  contains := CoupledSet.contains
  size := CoupledSet.size
  snapshot := CoupledSet.snapshot
  audit cb := CoupledSet.audit cb true
  auditLive cb := CoupledSet.audit cb false

inductive SetRequest (T : Type)
  | add (key : T)
  | remove (key : T)
  | contains (key : T)
  | size
  | isEmpty
  | snapshot
  | audit
  | auditLive
deriving DecidableEq, Repr

inductive SetAnswer (T : Type)
  | flag (b : Bool)
  | count (n : Nat)
  | keys (ks : List T)
deriving DecidableEq, Repr

/-- Carries the request out. -/
def SetRequest.perform {S : Type → Type} [LockedSet S] {T ε σ : Type} (cb : SetCallbacks T ε σ) :
    SetRequest T → Guarded (S T) ε σ (SetAnswer T)
  | add key => .flag <$> LockedSet.add cb key
  | remove key => .flag <$> LockedSet.remove cb key
  | contains key => .flag <$> LockedSet.contains cb key
  | size => .count <$> LockedSet.size
  | isEmpty => (fun n => .flag (n = 0)) <$> LockedSet.size
  | snapshot => .keys <$> LockedSet.snapshot cb
  | audit => .flag <$> LockedSet.audit cb
  | auditLive => .flag <$> LockedSet.auditLive cb

end LockedContainers
