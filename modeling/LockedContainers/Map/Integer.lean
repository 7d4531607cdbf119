import LockedContainers.Map.Memory
import LockedContainers.Map.Request

/-!
# Maps from integers

An integer hashes to its 64-bit word; only memory can fail. A key and its value
take four bytes each.
-/
namespace LockedContainers

def MapCallbacks.integer {V σ : Type} : MapCallbacks Int V MemoryFault σ where
  hash k := pure (.ofInt k)
  equal a b := pure (a = b)
  copy := pure
  entryBytes := 8
  allocate := allocateBlock

end LockedContainers
