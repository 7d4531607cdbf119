import LockedContainers.Decimal.General
import LockedContainers.Map.Integer
import LockedContainers.Output.Console
import LockedContainers.Set.Integer

/-!
# A showcase of the containers

Writers insert all keys into a set and a map, each its own slice of them.
Then the contents are verified, the containers audited and the keys counted.
-/
namespace LockedContainers.Showcase

def writers : Nat := 8

def options : MapOptions := { stripes := 8 }

/-- The half-open range of indices that one writer inserts; past the end it is empty. -/
def slice (keys writer : Nat) : Nat × Nat :=
  let width := (keys + writers - 1) / writers
  (writer * width, min (writer * width + width) keys)

/-- The keys of one slice. -/
def share (order : List Int) (writer : Nat) : List Int :=
  let (first, last) := slice order.length writer
  (order.drop first).take (last - first)

structure Stage where
  set : Shared (CoupledSet Int) Unit := ⟨{}, ()⟩
  map : Shared (StripedMap Int Int) Unit
  console : Console := {}

/-- An act on the stage; only memory for the map can fail. -/
abbrev Act (α : Type) := EStateM (MapFailure MemoryFault) Stage α

def onSet {α : Type} (act : Guarded (CoupledSet Int) (MapFailure MemoryFault) Unit α) : Act α :=
  onPart Stage.set (fun stage set => { stage with set }) act

def onMap {α : Type} (act : MapSection .striped Int Int MemoryFault Unit α) : Act α :=
  onPart Stage.map (fun stage map => { stage with map }) act

def say (template : String) (args : List String) : Act Unit :=
  modify fun stage => { stage with console := stage.console.printLine template args }

/-- A check mark on the output, or a cross among the errors. -/
def mark (console : Console) (ok : Bool) (what : String) : Console :=
  if ok then console.printLine "  ✔ \x7b\x7d" [what]
  else console.errorLine "  ✘ \x7b\x7d" [what]

def announce (ok : Bool) (what : String) : Act Bool := do
  modify fun stage => { stage with console := mark stage.console ok what }
  return ok

/-- What a writer does for one key. -/
def insertKey (key : Int) : Act Unit := do
  let _ ← onSet (CoupledSet.add .integer key)
  let _ ← onMap (StripedMap.put .integer key key)

/-- Inserts the slices one after another. -/
def insertAll (order : List Int) : Act Unit :=
  ((List.range writers).flatMap (share order)).forM insertKey

/-- The map is asked for every key, the set as long as nothing is missing. -/
def verifyKey (soFar : Bool) (key : Int) : Act Bool := do
  let value ← onMap (LockedMap.get .integer key)
  if soFar then
    if ← onSet (CoupledSet.contains .integer key) then return value = some key
    else return false
  else return false

def allPresent (order : List Int) : Act Bool := do
  let inSet ← onSet CoupledSet.size
  let inMap ← onMap LockedMap.size
  order.foldlM verifyKey (inSet = order.length && inMap = order.length)

/-- From a quarter below the keys up to a quarter above them, its end left out. -/
def scanRange (keys : Nat) : List Int :=
  let first := Int.tdiv (-keys) 4
  let last := Int.tdiv (keys * 5) 4
  (List.range (last - first).toNat).map fun (i : Nat) => first + i

def survivors (keys : Nat) : Act Nat :=
  (scanRange keys).foldlM (fun n key => do
    return if ← onSet (CoupledSet.contains .integer key) then n + 1 else n) 0

/-- The set's audit decides first. -/
def audit (atRest : Bool) : Act Bool := do
  if ← onSet (CoupledSet.audit .integer atRest) then onMap (StripedMap.audit .integer)
  else return false

/-- The showcase with the keys inserted in a given order and nothing in between;
answers the exit code. -/
def run (order : List Int) : Act UInt32 := do
  insertAll order
  say "[phase-1] bulk insert done: \x7b\x7d buckets after \x7b\x7d resizes"
    [toString (← onMap LockedMap.bucketCount), toString (← onMap LockedMap.growthCount)]
  let present ← announce (← allPresent order)
    (Template.format "all \x7b\x7d keys present in both containers" [toString order.length])
  let watched ← audit false
  say "[phase-2] mixed stress finished" []
  let watched ← announce watched "watchdog saw no broken invariant"
  let valid ← announce (← audit true) "final validation"
  let found ← survivors order.length
  let counted ← announce (found = (← onSet CoupledSet.size))
    (Template.format "\x7b\x7d keys currently in the set" [toString found])
  say "  map: \x7b\x7d entries, \x7b\x7d buckets, load factor \x7b\x7d, \x7b\x7d resizes"
    [toString (← onMap LockedMap.size), toString (← onMap LockedMap.bucketCount),
      (← onMap LockedMap.loadFactor).displayText, toString (← onMap LockedMap.growthCount)]
  if present && watched && valid && counted then
    say "🎉 ALL DEMO CHECKS PASSED" []
    return 0
  else return 1

/-- The keys from zero on. -/
def ascending (keys : Nat) : List Int := (List.range keys).map fun (i : Nat) => (i : Int)

/-- Builds the containers and runs the showcase on so many keys. -/
def perform (keys : Nat) : Except (MapFailure MemoryFault) (UInt32 × Console) :=
  match (StripedMap.make .integer options : EStateM _ Unit (StripedMap Int Int)) () with
  | .error e _ => .error e
  | .ok map _ =>
    match run (ascending keys) { map := ⟨map, ()⟩ } with
    | .ok code stage => .ok (code, stage.console)
    | .error e _ => .error e

end LockedContainers.Showcase
