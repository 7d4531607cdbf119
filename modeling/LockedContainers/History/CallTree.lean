import LockedContainers.History.Recorder

/-!
# Nested recorded calls

The body of a recorded call first makes its nested calls and then performs
the operation on the subject, or fails.
-/
namespace LockedContainers

inductive CallTree (ε : Type)
  /-- With `fault` the body fails after its nested calls; `caught` says whether the caller goes on. -/
  | call (invocation : Invocation) (nested : List (CallTree ε)) (fault : Option ε) (caught : Bool)

/-- A subject with the outcome of every call so far, in order of completion. -/
structure Journal (ε S : Type) where
  subject : S
  outcomes : List (Except ε Int) := []

namespace Journal

variable {S ε : Type}

def perform (act : EStateM ε S Int) : EStateM ε (Recording (Journal ε S)) Int :=
  Recording.onSubject (onPart subject (fun j s => { j with subject := s }) act)

def conclude (outcome : Except ε Int) : EStateM ε (Recording (Journal ε S)) Unit :=
  Recording.onSubject (modify fun j => { j with outcomes := j.outcomes ++ [outcome] })

end Journal

namespace CallTree

variable {S ε : Type} (operation : Invocation → EStateM ε S Int)

mutual

def run : CallTree ε → EStateM ε (Recording (Journal ε S)) Unit
  | call i nested fault caught => fun s =>
    let body := do
      runAll nested
      match fault with
      | some e => throw e
      | none => Journal.perform (operation i)
    match Recording.timed i body s with
    | .ok result s => Journal.conclude (.ok result) s
    | .error e s =>
      if caught then Journal.conclude (.error e) s
      else (do Journal.conclude (.error e); throw e) s

def runAll : List (CallTree ε) → EStateM ε (Recording (Journal ε S)) Unit
  | [] => pure ()
  | t :: rest => do
    run t
    runAll rest

end

end CallTree
end LockedContainers
