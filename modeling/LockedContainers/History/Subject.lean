import LockedContainers.History.Model
import LockedContainers.Map.Integer
import LockedContainers.Set.Integer

/-!
# Containers under observation

An invocation performed on a container of integers, its answer as a number:
1 or 0 for a flag, the value or -1 for an optional value.
-/
namespace LockedContainers

namespace SetOp

def perform {S : Type → Type} [LockedSet S] {ε σ : Type} (i : Invocation) :
    Guarded (S Int) ε σ Int := do
  let done ← match ofCode i.op with
    | .add => LockedSet.add .integer i.key
    | .remove => LockedSet.remove .integer i.key
    | .contains => LockedSet.contains .integer i.key
  return if done then 1 else 0

def isHit (result : Int) : Bool := result = 1

end SetOp

namespace MapOp

/-- On a container every code but two removes, unlike in the model. -/
def ofContainerCode : Int → MapOp
  | 0 => put
  | 1 => get
  | _ => remove

def perform {l : Locking} {σ : Type} (i : Invocation) : MapSection l Int Int MemoryFault σ Int := do
  let value ← match ofContainerCode i.op with
    | .put => LockedMap.put .integer i.key i.arg
    | .get => LockedMap.get .integer i.key
    | .remove => LockedMap.remove .integer i.key
  return value.getD (-1)

def isHit (result : Int) : Bool := result ≠ -1

end MapOp
end LockedContainers
