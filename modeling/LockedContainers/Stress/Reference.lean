import LockedContainers.Map.Integer
import LockedContainers.Output.Spooler
import LockedContainers.Set.Integer

/-!
# Checking a container against a reference

A plain dictionary runs beside the container. An adapter says whether the
container's answers are the ones that the dictionary expects.
-/
namespace LockedContainers.Stress

/-- A dictionary of integers, each key once. -/
structure Reference where
  entries : List (Int × Int) := []
deriving DecidableEq, Repr

namespace Reference

def lookup (reference : Reference) (key : Int) : Option Int := reference.entries.lookup key

def contains (reference : Reference) (key : Int) : Bool := (reference.lookup key).isSome

def insert (reference : Reference) (key value : Int) : Reference :=
  if reference.contains key then
    ⟨reference.entries.map fun (k, v) => if k = key then (k, value) else (k, v)⟩
  else ⟨reference.entries ++ [(key, value)]⟩

def erase (reference : Reference) (key : Int) : Reference :=
  ⟨reference.entries.filter fun (k, _) => k ≠ key⟩

def size (reference : Reference) : Nat := reference.entries.length

end Reference

/-- How a container answers a checked run; flags say that it agreed with what was expected. -/
structure Adapter (ε S : Type) where
  insert (key value : Int) (expected : Option Int) : EStateM ε S Bool
  erase (key : Int) (expected : Option Int) : EStateM ε S Bool
  lookup (key : Int) : EStateM ε S Bool
  holds (key value : Int) : EStateM ε S Bool
  size : EStateM ε S Nat
  auditLive : EStateM ε S Bool

namespace Adapter

/-- A set holds the keys only. -/
def ofSet (S : Type → Type) [LockedSet S] (ε σ : Type) : Adapter ε (Shared (S Int) σ) where
  insert key _ expected := do return (← LockedSet.add .integer key) = expected.isNone
  erase key expected := do return (← LockedSet.remove .integer key) = expected.isSome
  lookup key := LockedSet.contains .integer key
  holds key _ := LockedSet.contains .integer key
  size := LockedSet.size
  auditLive := LockedSet.auditLive .integer

def ofMap (l : Locking) (σ : Type) :
    Adapter (MapFailure MemoryFault) (Shared (LockedMap l Int Int) σ) where
  insert key value expected := do return (← LockedMap.put .integer key value) = expected
  erase key expected := do return (← LockedMap.remove .integer key) = expected
  lookup key := do return (← LockedMap.get .integer key).isSome
  holds key value := do return (← LockedMap.get .integer key) = some value
  size := LockedMap.size
  auditLive := LockedMap.audit .integer

end Adapter

inductive Mismatch
  | size (reference container : Nat)
  | entry (key value : Int)
deriving DecidableEq, Repr

def Mismatch.line : Mismatch → Line
  | size reference container =>
    ⟨true, Template.format "Size mismatch: reference=\x7b\x7d, container=\x7b\x7d"
      [toString reference, toString container]⟩
  | entry key value =>
    ⟨true, Template.format "Mismatch for key \x7b\x7d: reference=\x7b\x7d" [toString key, toString value]⟩

section
variable {ε S : Type} (adapter : Adapter ε S)

/-- The first entry that the container does not match. -/
def firstMismatch : List (Int × Int) → EStateM ε S (Option Mismatch)
  | [] => pure none
  | (key, value) :: rest => do
    if ← adapter.holds key value then firstMismatch rest
    else return some (.entry key value)

/-- Compares the sizes, then probes the container for every entry of the reference. -/
def Reference.mismatch? (reference : Reference) : EStateM ε S (Option Mismatch) := do
  let size ← adapter.size
  if size ≠ reference.size then return some (.size reference.size size)
  else firstMismatch adapter reference.entries

/-- A container and the reference that follows it. -/
structure Checked (S : Type) where
  subject : S
  reference : Reference := {}

namespace Checked

def onSubject {α : Type} (act : EStateM ε S α) : EStateM ε (Checked S) α :=
  onPart subject (fun s t => { s with subject := t }) act

/-- A writer's step: the reference foretells the answer and then follows. -/
def insert (key value : Int) : EStateM ε (Checked S) Bool := do
  let expected := (← get).reference.lookup key
  let agreed ← onSubject (adapter.insert key value expected)
  modify fun s => { s with reference := s.reference.insert key value }
  return agreed

def erase (key : Int) : EStateM ε (Checked S) Bool := do
  let expected := (← get).reference.lookup key
  let agreed ← onSubject (adapter.erase key expected)
  modify fun s => { s with reference := s.reference.erase key }
  return agreed

end Checked

/-- Runs at most one live audit at a time. -/
structure LiveAudit where
  inProgress : Bool := false
  performed : Nat := 0
  failed : Bool := false
deriving DecidableEq, Repr

namespace LiveAudit

def begin? (audit : LiveAudit) : Option LiveAudit :=
  if audit.inProgress then none else some { audit with inProgress := true }

def finish (audit : LiveAudit) (valid : Bool) : LiveAudit where
  performed := audit.performed + 1
  failed := audit.failed || !valid

/-- False also when an audit is under way; one that fails leaves a line. -/
def attempt (audit : LiveAudit) (spooler : Spooler) (context : String) :
    EStateM ε S (Bool × LiveAudit × Spooler) := do
  match audit.begin? with
  | none => return (false, audit, spooler)
  | some begun =>
    let valid ← adapter.auditLive
    let spooler :=
      if valid then spooler else spooler.error "VALIDATION FAILED during \x7b\x7d!" [context]
    return (valid, begun.finish valid, spooler)

end LiveAudit
end
end LockedContainers.Stress
