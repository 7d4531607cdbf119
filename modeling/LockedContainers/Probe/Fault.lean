import LockedContainers.Map.Memory
import LockedContainers.Map.Request
import LockedContainers.Set.Request

/-!
# Probed callbacks

Callbacks that log their calls, and that fail when a fuse has burnt down or
when they meet a poisoned key. Each call is logged before it can fail.
-/
namespace LockedContainers.Probe

inductive Fault
  | fuseBlown
  | poisonedComparison
  | poisonedHash
  | poisonedEquality
  | copyFailed
  | memory (fault : MemoryFault)
deriving DecidableEq, Repr

/-- Memory faults have no text of their own. -/
def Fault.message? : Fault → Option String
  | fuseBlown => some "fuse blown"
  | poisonedComparison => some "poisoned comparison"
  | poisonedHash => some "poisoned hash"
  | poisonedEquality => some "poisoned equality"
  | copyFailed => some "copy failed"
  | memory _ => none

inductive Call (K : Type)
  | compare (a b : K)
  | hash (key : K)
  | equal (stored searched : K)
deriving DecidableEq, Repr

/-- What the callbacks do at present, and the calls they have seen while tracing, the last one first. -/
structure Setup (K : Type) where
  precedes : K → K → Bool := fun _ _ => false
  hash : K → UInt64 := fun _ => 0
  equal : K → K → Bool := fun _ _ => false
  /-- Calls that still succeed. -/
  fuse : Option Nat := none
  copyFuse : Option Nat := none
  poison : Option K := none
  poisonEqual : Option K := none
  tracing : Bool := true
  calls : List (Call K) := []

abbrev Probed (K α : Type) := EStateM Fault (Setup K) α

variable {K V : Type}

/-- A fuse after one call; none when that call blows it. -/
def burn : Option Nat → Option (Option Nat)
  | none => some none
  | some 0 => none
  | some (n + 1) => some (some n)

/-- Logs the call, then lets the fuse burn. -/
def enter (c : Call K) : Probed K Unit := do
  modify fun s => if s.tracing then { s with calls := c :: s.calls } else s
  match burn (← get).fuse with
  | some fuse => modify fun s => { s with fuse }
  | none =>
    modify fun s => { s with fuse := none }
    throw .fuseBlown

def copyOne (fragile : Bool) {α : Type} (a : α) : Probed K α := do
  if fragile then
    match burn (← get).copyFuse with
    | some copyFuse =>
      modify fun s => { s with copyFuse }
      return a
    | none =>
      modify fun s => { s with copyFuse := none }
      throw .copyFailed
  else return a

section
variable [DecidableEq K]

def compare (a b : K) : Probed K Bool := do
  enter (.compare a b)
  let s ← get
  if s.poison = some a ∨ s.poison = some b then throw .poisonedComparison
  return s.precedes a b

def hash (key : K) : Probed K UInt64 := do
  enter (.hash key)
  let s ← get
  if s.poison = some key then throw .poisonedHash
  return s.hash key

def equal (a b : K) : Probed K Bool := do
  enter (.equal a b)
  let s ← get
  if s.poisonEqual = some a ∨ s.poisonEqual = some b then throw .poisonedEquality
  return s.equal a b

def setCallbacks (fragileKeys : Bool) : SetCallbacks K Fault (Setup K) where
  compare := compare
  copy := copyOne fragileKeys

def mapCallbacks (fragileValues : Bool) : MapCallbacks K V Fault (Setup K) where
  hash := hash
  equal := equal
  copy := copyOne fragileValues
  entryBytes := 8
  allocate bytes := (allocateBlock bytes).adaptExcept .memory

end
end LockedContainers.Probe
