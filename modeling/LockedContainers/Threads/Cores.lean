/-!
# Pinning a thread to a core
-/
namespace LockedContainers.Cores

/-- Whether `core` is one of the machine's; a machine that cannot count its cores says 0. -/
def inRange (cores : Nat) (core : Int) : Bool :=
  0 ≤ core && (cores = 0 || core < cores)

/-- A thread is pinned when the core is in range and the system grants it. -/
def pin (cores : Nat) (granted : Int → Bool) (core : Int) : Bool :=
  inRange cores core && granted core

end LockedContainers.Cores
