/-!
# Messages of failures

The message of a failure ends where its text first has a NUL.
-/
namespace LockedContainers

/-- Text without a NUL. -/
structure Message where
  text : String
  noNul : '\x00' ∉ text.toList
deriving DecidableEq, Repr

namespace Message

theorem nul_not_mem_takeWhile (cs : List Char) : '\x00' ∉ cs.takeWhile (· ≠ '\x00') := fun h => by
  simpa using List.all_eq_true.1 List.all_takeWhile _ h

/-- The text before its first NUL, or all of it. -/
def ofText (s : String) : Message where
  text := String.ofList (s.toList.takeWhile (· ≠ '\x00'))
  noNul := by simpa using nul_not_mem_takeWhile s.toList

@[simp] theorem toList_text_ofText (s : String) :
    (ofText s).text.toList = s.toList.takeWhile (· ≠ '\x00') := by simp [ofText]

end Message
end LockedContainers
