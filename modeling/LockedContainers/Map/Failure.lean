import LockedContainers.Map.Options
import LockedContainers.Map.Table

/-!
# How a map can fail
-/
namespace LockedContainers

inductive MapFailure (ε : Type)
  | unusable (error : OptionError)
  /-- A callback failed, or memory was refused. -/
  | callback (error : ε)
  /-- A look-up in a table without buckets. -/
  | noBucket
  /-- No table has so many buckets. -/
  | tooLarge
deriving DecidableEq, Repr

def MapOptions.require {ε σ : Type} (options : MapOptions) : EStateM (MapFailure ε) σ Unit :=
  match options.check with
  | .ok () => return ()
  | .error e => throw (.unusable e)

/-- Runs a callback on behalf of a map. -/
def Guarded.ask {C ε σ α : Type} (act : EStateM ε σ α) : Guarded C (MapFailure ε) σ α :=
  Guarded.call (act.adaptExcept .callback)

/-- The slot of a hash in a table that has one. -/
def Table.slot {K V C ε σ : Type} (table : Table K V) (h : UInt64) :
    Guarded C (MapFailure ε) σ Nat :=
  if table.size = 0 then throw .noBucket else return h.toNat % table.size

end LockedContainers
