import LockedContainers.Output.Console

/-!
# A spooler of lines

Producers queue whole lines under a lock; one writer takes a line under that
lock and writes it outside. Once asked to stop, the writer leaves when the
queue is empty, and what is queued later is never written.
-/
namespace LockedContainers

/-- Where the writer thread stands. -/
inductive Writer
  | idle
  /-- Has taken a line and not yet written it. -/
  | holding (line : Line)
  | exited
deriving DecidableEq, Repr

structure Spooler where
  queue : List Line := []
  running : Bool := true
  writer : Writer := .idle
  written : List Line := []
deriving DecidableEq, Repr

namespace Spooler

def push (spooler : Spooler) (line : Line) : Spooler :=
  { spooler with queue := spooler.queue ++ [line] }

def requestStop (spooler : Spooler) : Spooler := { spooler with running := false }

/-- The writer's next step; none when it waits for a line or has left. -/
def advance? (spooler : Spooler) : Option Spooler :=
  match spooler.writer, spooler.queue with
  | .holding line, _ =>
    some { spooler with writer := .idle, written := spooler.written ++ [line] }
  | .idle, line :: rest => some { spooler with writer := .holding line, queue := rest }
  | .idle, [] => if spooler.running then none else some { spooler with writer := .exited }
  | .exited, _ => none

/-- Bounds the steps that the writer can take before the next line or request. -/
def pending (spooler : Spooler) : Nat :=
  match spooler.writer with
  | .idle => 2 * spooler.queue.length + 1
  | .holding _ => 2 * spooler.queue.length + 2
  | .exited => 0

theorem pending_of_advance? {p q : Spooler} (h : p.advance? = some q) :
    q.pending < p.pending := by
  obtain ⟨queue, running, writer, written⟩ := p
  cases writer with
  | holding line =>
    simp only [advance?, Option.some.injEq] at h
    subst h
    simp [pending]
  | exited => simp [advance?] at h
  | idle =>
    cases queue with
    | cons line rest =>
      simp only [advance?, Option.some.injEq] at h
      subst h
      simp only [pending, List.length_cons]
      omega
    | nil =>
      cases running with
      | true => simp [advance?] at h
      | false =>
        simp only [advance?, Bool.false_eq_true, if_false, Option.some.injEq] at h
        subst h
        simp [pending]

def advanceBy : Nat → Spooler → Spooler
  | 0, spooler => spooler
  | n + 1, spooler =>
    match spooler.advance? with
    | some next => advanceBy n next
    | none => spooler

/-- Lets the writer work until it waits or has left. -/
def settle (spooler : Spooler) : Spooler := advanceBy spooler.pending spooler

theorem advance?_advanceBy {n : Nat} {p : Spooler} (h : p.pending ≤ n) :
    (advanceBy n p).advance? = none := by
  induction n generalizing p with
  | zero =>
    cases hq : p.advance? with
    | none => exact hq
    | some q => have := pending_of_advance? hq; omega
  | succ n ih =>
    cases hq : p.advance? with
    | none => simp [advanceBy, hq]
    | some q =>
      have := pending_of_advance? hq
      simpa [advanceBy, hq] using ih (p := q) (by omega)

theorem advance?_settle (p : Spooler) : p.settle.advance? = none :=
  advance?_advanceBy (Nat.le_refl _)

/-- Asks the writer to stop and waits until it has left. -/
def stop (spooler : Spooler) : Spooler := spooler.requestStop.settle

def print (spooler : Spooler) (template : String) (args : List String) : Spooler :=
  spooler.push ⟨false, Template.format template args⟩

def error (spooler : Spooler) (template : String) (args : List String) : Spooler :=
  spooler.push ⟨true, Template.format template args⟩

/-- What has been written so far. -/
def console (spooler : Spooler) : Console := spooler.written.foldl Console.write {}

end Spooler
end LockedContainers
