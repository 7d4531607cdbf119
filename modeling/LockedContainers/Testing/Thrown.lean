import LockedContainers.Text.Message

/-!
# Failures thrown by a body under test
-/
namespace LockedContainers.Testing

inductive FailureKind
  | runtime
  | overflow
  | logic
  | invalidArgument
  | length
deriving DecidableEq, Repr

/-- The more general kind that a kind belongs to. -/
def FailureKind.general? : FailureKind → Option FailureKind
  | overflow => some runtime
  | invalidArgument => some logic
  | length => some logic
  | runtime => none
  | logic => none

inductive Thrown
  | failure (kind : FailureKind) (message : Message)
  /-- A bare number, which is no failure. -/
  | number (n : Int)
deriving DecidableEq, Repr

/-- What a handler accepts. -/
inductive Handler
  | anyFailure
  | failure (kind : FailureKind)
  | number
deriving DecidableEq, Repr

def Handler.accepts : Handler → Thrown → Bool
  | anyFailure, .failure _ _ => true
  | failure kind, .failure k _ => k = kind || k.general? = some kind
  | number, .number _ => true
  | _, _ => false

/-- Whether the body throws what the handler accepts; anything else goes on outwards. -/
def Handler.catches {s : Type} (handler : Handler) (body : EStateM Thrown s Unit) :
    EStateM Thrown s Bool := fun s =>
  match body s with
  | .ok () s => .ok false s
  | .error thrown s => if handler.accepts thrown then .ok true s else .error thrown s

end LockedContainers.Testing
