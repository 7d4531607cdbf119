/-!
# A latch for a common start
-/
namespace LockedContainers

/-- Single use: opens once the expected number of threads has arrived. -/
structure Latch where
  arrived : Nat := 0
  isOpen : Bool := false
deriving DecidableEq, Repr

namespace Latch

def arrive (latch : Latch) : Latch := { latch with arrived := latch.arrived + 1 }

def openAt (latch : Latch) (expected : Nat) : Latch :=
  if expected ≤ latch.arrived then { latch with isOpen := true } else latch

end Latch
end LockedContainers
