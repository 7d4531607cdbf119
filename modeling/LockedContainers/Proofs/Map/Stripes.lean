import LockedContainers.Map.Request
import LockedContainers.Proofs.Interleaved

/-!
# The stripes of a map

A striped map at the grain of its locks and its counter. A thread finds the
stripe of its key free and holds it while it looks the key up; an insertion
reads the counter, links its entry and counts it in three steps, a removal
unlinks and counts in two. A growth and an audit take the stripes one by one,
and each gives them up in the reverse order.
-/
namespace LockedContainers

variable {K V ε σ : Type}

/-- A striped map with its bank of locks. -/
structure StripeBank (K V : Type) where
  map : StripedMap K V
  locked : Nat → Bool := fun _ => false

/-- A request that is carried out under the stripe of its key. -/
inductive KeyRequest (K V : Type)
  | put (key : K) (value : V)
  | get (key : K)
  | remove (key : K)
  | contains (key : K)
deriving DecidableEq, Repr

namespace KeyRequest

def key : KeyRequest K V → K
  | put key _ => key
  | get key => key
  | remove key => key
  | contains key => key

def request : KeyRequest K V → MapRequest K V
  | put key value => .put key value
  | get key => .get key
  | remove key => .remove key
  | contains key => .contains key

end KeyRequest

/-- A request that reads the table under the first stripe. -/
inductive Glance
  | bucketCount
  | growthCount
  | loadFactor
deriving DecidableEq, Repr

def Glance.request : Glance → MapRequest K V
  | bucketCount => .bucketCount
  | growthCount => .growthCount
  | loadFactor => .loadFactor

namespace StripeBank

/-- A section on a map with its locks. -/
abbrev Section (K V ε σ α : Type) := Guarded (StripeBank K V) (MapFailure ε) σ α

/-- A put with the hash of its key. -/
structure Insertion (K V : Type) where
  hash : UInt64
  key : K
  value : V
deriving DecidableEq, Repr

def Insertion.request (put : Insertion K V) : KeyRequest K V := .put put.key put.value

/-- What all stripes are taken for. -/
inductive Purpose (K V : Type)
  /-- The put gave up on a table of `seen` buckets. -/
  | growth (put : Insertion K V) (seen : Nat)
  | audit
deriving DecidableEq, Repr

/-- What follows once the stripes are given up. -/
inductive Ending (K V ε : Type)
  | settled (request : MapRequest K V) (outcome : Except (MapFailure ε) (MapAnswer V))
  | growing (put : Insertion K V) (seen : Nat)
  | retrying (put : Insertion K V)

/-- A request before one of its accesses to shared memory. -/
inductive Task (K V ε : Type)
  | asked (request : MapRequest K V)
  /-- Before the stripe of the hash. -/
  | knocking (r : KeyRequest K V) (h : UInt64)
  | searching (r : KeyRequest K V) (h : UInt64)
  /-- After the look-up. -/
  | found (r : KeyRequest K V) (h : UInt64) (slot : Nat) (hit : Option (Hit K V))
  /-- Before the counter is read. -/
  | weighing (put : Insertion K V) (slot : Nat)
  | linking (put : Insertion K V) (slot : Nat)
  /-- Before the counter goes up. -/
  | tallying (put : Insertion K V)
  /-- Before the counter goes down. -/
  | discounting (h : UInt64) (key : K) (value : V)
  /-- Before the first stripe. -/
  | peeking (g : Glance)
  | reading (g : Glance)
  /-- Before the next stripe after so many. -/
  | barring (purpose : Purpose K V) (taken : Nat)
  | barred (purpose : Purpose K V)
  | doubling (put : Insertion K V)
  /-- Before the last of so many stripes is given up. -/
  | leaving (first left : Nat) (ending : Ending K V ε)

/-- The answer to a request, or what is left to do for it. -/
abbrev Progress (K V ε : Type) := MapAnswer V ⊕ Task K V ε

def Ending.request : Ending K V ε → MapRequest K V
  | settled request _ => request
  | growing put _ => put.request.request
  | retrying put => put.request.request

namespace Task

def request : Task K V ε → MapRequest K V
  | asked request => request
  | knocking r _ => r.request
  | searching r _ => r.request
  | found r _ _ _ => r.request
  | weighing put _ => put.request.request
  | linking put _ => put.request.request
  | tallying put => put.request.request
  | discounting _ key _ => .remove key
  | peeking g => g.request
  | reading g => g.request
  | barring (.growth put _) _ => put.request.request
  | barring .audit _ => .audit
  | barred (.growth put _) => put.request.request
  | barred .audit => .audit
  | doubling put => put.request.request
  | leaving _ _ ending => ending.request

end Task

/-- What a section on the map makes of the bank. The stripes are given up before a failure is
handed on, so here it is an outcome. -/
def onMap {α : Type} (act : MapSection .striped K V ε σ α) :
    Section K V ε σ (Except (MapFailure ε) α) := fun s =>
  match act ⟨s.container.map, s.outside⟩ with
  | .ok a s' => .ok (.ok a) ⟨{ s.container with map := s'.container }, s'.outside⟩
  | .error e s' => .ok (.error e) ⟨{ s.container with map := s'.container }, s'.outside⟩

def modifyMap (f : StripedMap K V → StripedMap K V) : Section K V ε σ Unit :=
  Guarded.modify fun bank => { bank with map := f bank.map }

/-- Takes a stripe and goes on to `there`, or stays `here` when it is locked. -/
def acquire (i : Nat) (here there : Task K V ε) : Section K V ε σ (Progress K V ε) := do
  if (← Guarded.read).locked i then return .inr here
  else
    Guarded.modify fun bank => { bank with locked := Function.update bank.locked i true }
    return .inr there

def release (i : Nat) (there : Task K V ε) : Section K V ε σ (Progress K V ε) := do
  Guarded.modify fun bank => { bank with locked := Function.update bank.locked i false }
  return .inr there

/-- Gives the stripe of a hash up. -/
def part (h : UInt64) (ending : Ending K V ε) : Section K V ε σ (Progress K V ε) := do
  return .inr (.leaving (StripedMap.stripeOf (← Guarded.read).map h) 1 ending)

/-- Gives all stripes up. -/
def unbar (ending : Ending K V ε) : Section K V ε σ (Progress K V ε) := do
  return .inr (.leaving 0 (StripedMap.stripes (← Guarded.read).map) ending)

/-- What is made of a look-up. -/
def conclude (cb : MapCallbacks K V ε σ) (h : UInt64) (slot : Nat) :
    KeyRequest K V → Option (Hit K V) → Section K V ε σ (Progress K V ε)
  | .put key value, some hit => do
    modifyMap fun map => { map with table := map.table.setIfInBounds slot (hit.replaced value) }
    part h (.settled (.put key value) (.ok (.value (some hit.value))))
  | .put key value, none => return .inr (.weighing ⟨h, key, value⟩ slot)
  | .get key, some hit => do
    let copied ← onMap (Guarded.ask (cb.copy hit.value))
    part h (.settled (.get key) (copied.map (.value ∘ some)))
  | .get key, none => part h (.settled (.get key) (.ok (.value none)))
  | .remove key, some hit => do
    modifyMap fun map => { map with table := map.table.setIfInBounds slot hit.removed }
    return .inr (.discounting h key hit.value)
  | .remove key, none => part h (.settled (.remove key) (.ok (.value none)))
  | .contains key, hit => part h (.settled (.contains key) (.ok (.flag hit.isSome)))

namespace Task

/-- The hash of a key is asked for before any stripe. -/
def approach (cb : MapCallbacks K V ε σ) (r : KeyRequest K V) :
    Section K V ε σ (Progress K V ε) := do
  return .inr (.knocking r (← Guarded.ask (cb.hash r.key)))

def next (cb : MapCallbacks K V ε σ) : Task K V ε → Section K V ε σ (Progress K V ε)
  | asked (.put key value) => approach cb (.put key value)
  | asked (.get key) => approach cb (.get key)
  | asked (.remove key) => approach cb (.remove key)
  | asked (.contains key) => approach cb (.contains key)
  | asked .bucketCount => return .inr (.peeking .bucketCount)
  | asked .growthCount => return .inr (.peeking .growthCount)
  | asked .loadFactor => return .inr (.peeking .loadFactor)
  | asked .audit => return .inr (.barring .audit 0)
  | asked .size => return .inl (.count (← Guarded.read).map.count)
  | asked .isEmpty => return .inl (.flag ((← Guarded.read).map.count = 0))
  | asked .options => return .inl (.options (← Guarded.read).map.options)
  | knocking r h => do
    acquire (StripedMap.stripeOf (← Guarded.read).map h) (.knocking r h) (.searching r h)
  | searching r h => do
    match ← onMap (LockedMap.lookup cb h r.key) with
    | .ok (slot, hit) => return .inr (.found r h slot hit)
    | .error e => part h (.settled r.request (.error e))
  | found r h slot hit => conclude cb h slot r hit
  | weighing put slot => do
    let map := (← Guarded.read).map
    if map.isFull then part put.hash (.growing put map.table.size)
    else return .inr (.linking put slot)
  | linking put slot => do
    match ← onMap (LockedMap.makeRoom cb slot) with
    | .ok () =>
      modifyMap fun map => { map with table := map.table.append slot (put.key, put.value) }
      return .inr (.tallying put)
    | .error e => part put.hash (.settled put.request.request (.error e))
  | tallying put => do
    modifyMap fun map => { map with count := map.count + 1 }
    part put.hash (.settled put.request.request (.ok (.value none)))
  | discounting h key value => do
    modifyMap fun map => { map with count := map.count - 1 }
    part h (.settled (.remove key) (.ok (.value (some value))))
  | peeking g => acquire 0 (.peeking g) (.reading g)
  | reading g => do
    return .inr (.leaving 0 1 (.settled g.request (← onMap (g.request.perform cb))))
  | barring purpose taken => do
    if taken < StripedMap.stripes (← Guarded.read).map then
      acquire taken (.barring purpose taken) (.barring purpose (taken + 1))
    else return .inr (.barred purpose)
  | barred (.growth put seen) => do
    let map := (← Guarded.read).map
    if map.table.size = seen && map.isFull then return .inr (.doubling put)
    else unbar (.retrying put)
  | barred .audit => do
    unbar (.settled .audit (← onMap (MapRequest.audit.perform cb)))
  | doubling put => do
    match ← onMap (LockedMap.double cb) with
    | .ok () => unbar (.retrying put)
    | .error e => unbar (.settled put.request.request (.error e))
  | leaving first (left + 1) ending => release (first + left) (.leaving first left ending)
  | leaving _ 0 (.settled _ (.ok a)) => return .inl a
  | leaving _ 0 (.settled _ (.error e)) => throw e
  | leaving _ 0 (.growing put seen) => return .inr (.barring (.growth put seen) 0)
  | leaving _ 0 (.retrying put) => return .inr (.knocking put.request put.hash)

end Task

def sections (cb : MapCallbacks K V ε σ) :
    Sections (StripeBank K V) (MapFailure ε) σ (MapRequest K V) (MapAnswer V) (Task K V ε) where
  start := .asked
  request := Task.request
  next := Task.next cb

end StripeBank
end LockedContainers
