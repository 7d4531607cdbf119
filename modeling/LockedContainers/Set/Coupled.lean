import LockedContainers.Set.Place

/-!
# A sorted set with a lock on every node

A search moves a cursor between two adjacent nodes along the list, hand over
hand, and an update changes the link under the cursor where the search ends.
-/
namespace LockedContainers

structure CoupledSet (T : Type) where
  keys : List T := []
  count : Nat := 0
deriving DecidableEq, Repr

/-- A link of the list: the keys up to it, reversed, and the keys after it. -/
structure Cursor (T : Type) where
  behind : List T
  ahead : List T
deriving DecidableEq, Repr

namespace Cursor

variable {T ε σ : Type} (cb : SetCallbacks T ε σ)

def current (c : Cursor T) : Place T := Place.start c.ahead

def toList (c : Cursor T) : List T := c.behind.reverse ++ c.ahead

/-- With a new node on the link. -/
def splice (c : Cursor T) (key : T) : Cursor T := ⟨c.behind, key :: c.ahead⟩

/-- Without the current node. -/
def unlink (c : Cursor T) : Cursor T := ⟨c.behind, c.ahead.tail⟩

/-- Steps on while the current node is before `key`. -/
def seek (key : T) (behind : List T) : List T → EStateM ε σ (Cursor T)
  | [] => pure ⟨behind, []⟩
  | k :: ahead => do
    if ← (Place.at k).isBefore cb key then seek key (k :: behind) ahead
    else return ⟨behind, k :: ahead⟩

@[simp] theorem toList_splice (c : Cursor T) (key : T) :
    (c.splice key).toList = c.behind.reverse ++ key :: c.ahead := rfl

@[simp] theorem toList_unlink (c : Cursor T) :
    c.unlink.toList = c.behind.reverse ++ c.ahead.tail := rfl

end Cursor

namespace CoupledSet

variable {T ε σ β : Type} (cb : SetCallbacks T ε σ)

/-- Visits node after node; the flag says whether the tail was reached. -/
def traverse (visit : β → T → EStateM ε σ (β × Bool)) (acc : β) :
    List T → EStateM ε σ (β × Bool)
  | [] => pure (acc, true)
  | k :: rest => do
    match ← visit acc k with
    | (acc, true) => traverse visit acc rest
    | (acc, false) => return (acc, false)

/-- Counts the node unless the one behind it is not before it. -/
def auditNode : Option T × Nat → T → EStateM ε σ ((Option T × Nat) × Bool)
  | (none, seen), k => pure ((some k, seen + 1), true)
  | (some last, seen), k => do
    if ← cb.compare last k then return ((some k, seen + 1), true)
    else return ((some last, seen), false)

def copyNode (copied : Array T) (k : T) : EStateM ε σ (Array T × Bool) := do
  return (copied.push (← cb.copy k), true)

def add (key : T) : Guarded (CoupledSet T) ε σ Bool := do
  let set ← Guarded.read
  let c ← Guarded.call (Cursor.seek cb key [] set.keys)
  if ← Guarded.call (c.current.isSame cb key) then return false
  Guarded.modify fun set => ⟨(c.splice key).toList, set.count + 1⟩
  return true

def remove (key : T) : Guarded (CoupledSet T) ε σ Bool := do
  let set ← Guarded.read
  let c ← Guarded.call (Cursor.seek cb key [] set.keys)
  if ← Guarded.call (c.current.isSame cb key) then
    Guarded.modify fun set => ⟨c.unlink.toList, set.count - 1⟩
    return true
  return false

def contains (key : T) : Guarded (CoupledSet T) ε σ Bool := do
  let set ← Guarded.read
  let c ← Guarded.call (Cursor.seek cb key [] set.keys)
  Guarded.call (c.current.isSame cb key)

def size : Guarded (CoupledSet T) ε σ Nat := do return (← Guarded.read).count

def snapshot : Guarded (CoupledSet T) ε σ (List T) := do
  let set ← Guarded.read
  let (copied, _) ← Guarded.call (traverse (copyNode cb) #[] set.keys)
  return copied.toList

/-- Whether the keys ascend; at rest, also whether the counter is right. -/
def audit (atRest : Bool) : Guarded (CoupledSet T) ε σ Bool := do
  let set ← Guarded.read
  let ((_, seen), reached) ← Guarded.call (traverse (auditNode cb) (none, 0) set.keys)
  return reached && (!atRest || seen = set.count)

end CoupledSet
end LockedContainers
