import LockedContainers.Set.Request

/-!
# Sets of integers

Integers in their natural order, with callbacks that never fail.
-/
namespace LockedContainers

def SetCallbacks.integer {ε σ : Type} : SetCallbacks Int ε σ where
  compare a b := pure (a < b)
  copy := pure

end LockedContainers
