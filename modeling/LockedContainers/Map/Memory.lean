/-!
# Memory for tables and locks

A block of memory has fewer than 2⁶³ bytes, and the machine has 2⁴⁷ of them.
-/
namespace LockedContainers

inductive MemoryFault
  | blockTooLarge
  | exhausted
deriving DecidableEq, Repr

def allocateBlock {σ : Type} (bytes : Nat) : EStateM MemoryFault σ Unit :=
  if 1 <<< 63 ≤ bytes then throw .blockTooLarge
  else if 1 <<< 47 < bytes then throw .exhausted
  else return ()

end LockedContainers
