import LockedContainers.Guarded

/-!
# Buckets and tables

A bucket is a short list of entries whose keys hash to one slot, and a table
is an array of buckets.
-/
namespace LockedContainers

/-- What a map asks of its keys, its values and the machine; all may fail and keep state. -/
structure MapCallbacks (K V ε σ : Type) where
  hash : K → EStateM ε σ UInt64
  /-- A stored key against a searched one. -/
  equal : K → K → EStateM ε σ Bool
  copy : V → EStateM ε σ V
  /-- The size in memory of one entry. -/
  entryBytes : Nat
  /-- Asked for every block that a table, its buckets, the notes of a growth and the locks take, with
  its size in bytes. A list that gets longer asks each time: one that has room left is granted the
  block without taking it. -/
  allocate : Nat → EStateM ε σ Unit

abbrev Bucket (K V : Type) := List (K × V)

abbrev Table (K V : Type) := Array (Bucket K V)

/-- A bucket split at one of its entries. -/
structure Hit (K V : Type) where
  before : Bucket K V
  key : K
  value : V
  after : Bucket K V
deriving DecidableEq, Repr

namespace Hit

variable {K V : Type}

def bucket (hit : Hit K V) : Bucket K V := hit.before ++ (hit.key, hit.value) :: hit.after

/-- The bucket with a new value at the entry, which keeps its key. -/
def replaced (hit : Hit K V) (value : V) : Bucket K V :=
  hit.before ++ (hit.key, value) :: hit.after

/-- The bucket without the entry, whose place the last one takes. -/
def removed (hit : Hit K V) : Bucket K V :=
  match hit.after.getLast? with
  | none => hit.before
  | some last => hit.before ++ last :: hit.after.dropLast

end Hit

namespace Bucket

variable {K V ε σ : Type} (cb : MapCallbacks K V ε σ)

/-- Scans on past the entries of `before`, which is reversed. -/
def scan (key : K) (before : Bucket K V) : Bucket K V → EStateM ε σ (Option (Hit K V))
  | [] => pure none
  | (k, v) :: after => do
    if ← cb.equal k key then return some ⟨before.reverse, k, v, after⟩
    else scan key ((k, v) :: before) after

/-- The first entry whose key is equal to `key`. -/
def find (key : K) (bucket : Bucket K V) : EStateM ε σ (Option (Hit K V)) :=
  scan cb key [] bucket

/-- Whether a later entry has an equal key. -/
def repeats (key : K) : Bucket K V → EStateM ε σ Bool
  | [] => pure false
  | (k, _) :: rest => do
    if ← cb.equal key k then return true else repeats key rest

/-- Whether each entry of the bucket at `slot` of `size` belongs there and no key is repeated. -/
def homed (size slot : Nat) : Bucket K V → EStateM ε σ Bool
  | [] => pure true
  | (k, _) :: rest => do
    if (← cb.hash k).toNat % size = slot then
      if ← repeats cb k rest then return false else homed size slot rest
    else return false

end Bucket

namespace Table

variable {K V ε σ : Type} (cb : MapCallbacks K V ε σ)

def vacant (buckets : Nat) : Table K V := Array.replicate buckets []

def bucket (table : Table K V) (slot : Nat) : Bucket K V := table.getD slot []

/-- All entries, bucket by bucket. -/
def entries (table : Table K V) : List (K × V) := table.toList.flatten

def append (table : Table K V) (slot : Nat) (entry : K × V) : Table K V :=
  table.modify slot (· ++ [entry])

/-- The size in memory of one counter, of one bucket and of one lock. -/
def counterBytes : Nat := 8
def bucketBytes : Nat := 24
def lockBytes : Nat := 40

/-- The size of the block that a full list of so many elements moves to: it has room for twice as
many. -/
def widerBytes (elementBytes length : Nat) : Nat := elementBytes * max 1 (length * 2)

/-- Entries paired with their slots, in the order in which their keys are hashed. Every slot is noted
in a list, which has `noted` of them before. -/
def placements (buckets noted : Nat) : List (K × V) → EStateM ε σ (List (Nat × K × V))
  | [] => pure []
  | entry :: rest => do
    let h ← cb.hash entry.1
    cb.allocate (widerBytes counterBytes noted)
    return (h.toNat % buckets, entry) :: (← placements buckets (noted + 1) rest)

def distribute (buckets : Nat) (placed : List (Nat × K × V)) : Table K V :=
  placed.foldl (fun table (slot, entry) => table.append slot entry) (vacant buckets)

/-- Asks for storage for so many entries in bucket after bucket; an empty one takes none. -/
def reserve : List Nat → EStateM ε σ Unit
  | [] => pure ()
  | 0 :: sizes => reserve sizes
  | (n + 1) :: sizes => do
    cb.allocate (cb.entryBytes * (n + 1))
    reserve sizes

/-- The same entries over `buckets` buckets; every call comes before the first move. -/
def resized (table : Table K V) (buckets : Nat) : EStateM ε σ (Table K V) := do
  cb.allocate (counterBytes * buckets)
  let placed ← placements cb buckets 0 table.entries
  cb.allocate (bucketBytes * buckets)
  let fresh := distribute buckets placed
  reserve cb (fresh.toList.map List.length)
  return fresh

/-- Adds the entries of the buckets from `slot` on to `seen`, when all are homed. -/
def countHomed (size : Nat) (slot seen : Nat) : List (Bucket K V) → EStateM ε σ (Option Nat)
  | [] => pure (some seen)
  | bucket :: rest => do
    if ← bucket.homed cb size slot then countHomed size (slot + 1) (seen + bucket.length) rest
    else return none

/-- The number of entries, when all are at home and no bucket repeats a key. -/
def homed (table : Table K V) : EStateM ε σ (Option Nat) :=
  countHomed cb table.size 0 0 table.toList

end Table
end LockedContainers
