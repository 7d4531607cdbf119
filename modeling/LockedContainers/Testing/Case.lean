import LockedContainers.Output.Console
import LockedContainers.Testing.Thrown

/-!
# Self-checking test cases

A case passes when no expectation fails and no failure escapes from it.
-/
namespace LockedContainers.Testing

structure CaseRun where
  console : Console := {}
  failures : Nat := 0
  /-- What the case was told, question by question. -/
  answers : List Bool := []
deriving DecidableEq, Repr

inductive CaseStep
  | expect (ok : Bool) (what : String)
  /-- Asks whether the case has passed so far. -/
  | askPassed
  | throw (thrown : Thrown)
deriving DecidableEq, Repr

namespace CaseRun

def passed (run : CaseRun) : Bool := run.failures = 0

def expect (run : CaseRun) (ok : Bool) (what : String) : CaseRun :=
  if ok then run
  else { run with
    console := run.console.errorLine "  FAILED: \x7b\x7d" [what]
    failures := run.failures + 1 }

def answer (run : CaseRun) (b : Bool) : CaseRun := { run with answers := run.answers ++ [b] }

end CaseRun

namespace CaseStep

def perform : CaseStep → EStateM Thrown CaseRun Unit
  | expect ok what => modify fun run => (run.expect ok what).answer ok
  | askPassed => modify fun run => run.answer run.passed
  | throw thrown => MonadExcept.throw thrown

end CaseStep

/-- Runs a case and prints its verdict; a thrown number escapes before that. -/
def judge (name : String) (body : EStateM Thrown CaseRun Unit) : EStateM Thrown CaseRun Bool := do
  try body
  catch
    | .failure _ message =>
      modify fun run =>
        run.expect false (Template.format "unexpected exception: \x7b\x7d" [message.text])
    | .number n => throw (.number n)
  modify fun run =>
    let verdict := if run.passed then "PASSED" else "FAILED"
    { run with console := run.console.printLine "\x7b\x7d: \x7b\x7d" [name, verdict] }
  return (← get).passed

end LockedContainers.Testing
