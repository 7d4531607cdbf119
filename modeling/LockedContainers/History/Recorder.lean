import LockedContainers.History.Event
import LockedContainers.Part

/-!
# Recording calls

A clock ticks just before and just after each call. An event is added when
its call returns; a call that fails leaves no event.
-/
namespace LockedContainers

structure Recorder where
  clock : Nat := 0
  /-- In order of completion. -/
  events : List Event := []
deriving DecidableEq, Repr

/-- A recorder beside what it records. -/
structure Recording (S : Type) where
  recorder : Recorder := {}
  subject : S

namespace Recording

variable {S ε α : Type}

def tick : EStateM ε (Recording S) Nat := fun s =>
  .ok s.recorder.clock { s with recorder.clock := s.recorder.clock + 1 }

def note (e : Event) : EStateM ε (Recording S) Unit := fun s =>
  .ok () { s with recorder.events := s.recorder.events ++ [e] }

/-- Acts on the subject, out of the recorder's sight. -/
def onSubject (act : EStateM ε S α) : EStateM ε (Recording S) α :=
  onPart subject (fun s t => { s with subject := t }) act

/-- Records `body` as one call. -/
def timed (i : Invocation) (body : EStateM ε (Recording S) Int) : EStateM ε (Recording S) Int := do
  let invoked ← tick
  let result ← body
  let returned ← tick
  note { i with result, invoked, returned }
  return result

end Recording
end LockedContainers
