/-!
# Calls and their histories

A completed call keeps what was asked, what was answered, and the logical
times just before and just after it.
-/
namespace LockedContainers

structure Invocation where
  op : Int
  key : Int
  arg : Int
deriving DecidableEq, Repr

structure Event extends Invocation where
  result : Int
  invoked : Nat
  returned : Nat
deriving DecidableEq, Repr

/-- The first call was over before the second began. -/
def Event.before (a b : Event) : Prop := a.returned < b.invoked

/-- How many events with this code had an answer that counts as a hit. -/
def hits (history : List Event) (isHit : Int → Bool) (op : Int) : Nat :=
  history.countP fun e => e.op = op && isHit e.result

end LockedContainers
