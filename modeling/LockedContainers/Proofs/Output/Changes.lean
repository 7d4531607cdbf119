import Mathlib.Data.List.Induction
import LockedContainers.Output.Spooler

/-!
# Lines on their way to the console

A line is queued, held by the writer, or written. Whatever happens to a
spooler moves lines on and neither drops one nor lets one overtake another;
the writer leaves only when it was asked to and nothing is queued.
-/
namespace LockedContainers

/-- The line that the writer has taken and not yet written. -/
def Writer.held : Writer → List Line
  | idle => []
  | holding line => [line]
  | exited => []

namespace Spooler

/-- All lines, in the order in which they were queued. -/
def lines (spooler : Spooler) : List Line :=
  spooler.written ++ spooler.writer.held ++ spooler.queue

/-- What can happen to a spooler, with the lines that are queued by it. -/
inductive Change : List Line → Spooler → Spooler → Prop
  | none {p : Spooler} : Change [] p p
  | push {p : Spooler} (line : Line) : Change [line] p (p.push line)
  | stop {p : Spooler} : Change [] p p.requestStop
  | advance {p q : Spooler} (h : p.advance? = some q) : Change [] p q

/-- A step of the writer: it writes the line that it holds, takes the first line of the queue, or
leaves when it is asked to and none is left. -/
theorem advance?_cases {p q : Spooler} (h : p.advance? = some q) :
    (∃ line, p.writer = .holding line ∧
      q = { p with writer := .idle, written := p.written ++ [line] }) ∨
    (∃ line rest, p.writer = .idle ∧ p.queue = line :: rest ∧
      q = { p with writer := .holding line, queue := rest }) ∨
    (p.writer = .idle ∧ p.queue = [] ∧ p.running = false ∧ q = { p with writer := .exited }) := by
  obtain ⟨queue, running, writer, written⟩ := p
  cases writer with
  | holding line =>
    cases h
    exact .inl ⟨line, rfl, rfl⟩
  | exited => cases h
  | idle =>
    cases queue with
    | cons line rest =>
      cases h
      exact .inr (.inl ⟨line, rest, rfl, rfl, rfl⟩)
    | nil =>
      cases running with
      | true => cases h
      | false =>
        cases h
        exact .inr (.inr ⟨rfl, rfl, rfl, rfl⟩)

namespace Change

variable {new : List Line} {p q : Spooler}

/-- Lines are added at the end, and none is lost, repeated or moved. -/
theorem lines (h : Change new p q) : q.lines = p.lines ++ new := by
  cases h with
  | none => rw [List.append_nil]
  | push line => simp [Spooler.lines, Spooler.push]
  | stop =>
    rw [List.append_nil]
    rfl
  | advance h =>
    rcases advance?_cases h with ⟨line, hwriter, rfl⟩ | ⟨line, rest, hwriter, hqueue, rfl⟩ |
      ⟨hwriter, hqueue, -, rfl⟩
    · simp [Spooler.lines, hwriter, Writer.held]
    · simp [Spooler.lines, hwriter, hqueue, Writer.held]
    · simp [Spooler.lines, hwriter, hqueue, Writer.held]

/-- The writer leaves only when it is asked to stop and the queue is empty. -/
theorem exits (h : Change new p q) (before : p.writer ≠ .exited) (after : q.writer = .exited) :
    p.running = false ∧ p.queue = [] ∧ q.queue = [] := by
  cases h with
  | none => exact absurd after before
  | push line => exact absurd after before
  | stop => exact absurd after before
  | advance h =>
    rcases advance?_cases h with ⟨line, hwriter, rfl⟩ | ⟨line, rest, hwriter, hqueue, rfl⟩ |
      ⟨-, hqueue, hrunning, rfl⟩
    · cases after
    · cases after
    · exact ⟨hrunning, hqueue, hqueue⟩

/-- When the writer leaves, all lines are written. -/
theorem written_of_exits (h : Change new p q) (before : p.writer ≠ .exited)
    (after : q.writer = .exited) : q.written = q.lines := by
  have hqueue := (h.exits before after).2.2
  simp [Spooler.lines, after, hqueue, Writer.held]

/-- Nothing is written when the writer has left. -/
theorem exited (h : Change new p q) (gone : p.writer = .exited) :
    q.writer = .exited ∧ q.written = p.written := by
  cases h with
  | none => exact ⟨gone, rfl⟩
  | push line => exact ⟨gone, rfl⟩
  | stop => exact ⟨gone, rfl⟩
  | advance h =>
    rw [advance?, gone] at h
    cases h

/-- Lines that are written by the time when the writer leaves stay so. -/
theorem delivers {early : List Line} (h : Change new p q)
    (queued : early <+: p.lines ∧ (p.writer = .exited → early <+: p.written)) :
    early <+: q.lines ∧ (q.writer = .exited → early <+: q.written) := by
  have hlines : early <+: q.lines := by
    rw [h.lines]
    exact queued.1.trans (List.prefix_append _ _)
  refine ⟨hlines, fun hleft => ?_⟩
  by_cases hbefore : p.writer = .exited
  · rw [(h.exited hbefore).2]
    exact queued.2 hbefore
  · rw [h.written_of_exits hbefore hleft]
    exact hlines

/-- Nobody calls a stop off. -/
theorem stopped (h : Change new p q) (asked : p.running = false) : q.running = false := by
  cases h with
  | none => exact asked
  | push line => exact asked
  | stop => rfl
  | advance h =>
    rcases advance?_cases h with ⟨_, -, rfl⟩ | ⟨_, _, -, -, rfl⟩ | ⟨-, -, -, rfl⟩ <;> exact asked

end Change
end Spooler

/-! ## The two streams -/

/-- What is on one of the streams when the lines have been written. -/
def Console.textOf (toError : Bool) (lines : List Line) : String :=
  ((lines.filter (·.toError == toError)).map (·.text ++ "\n")).foldl (· ++ ·) ""

/-- Every line is on the stream that its kind names, in the order of the lines. -/
theorem Spooler.console_eq (spooler : Spooler) :
    spooler.console =
      ⟨Console.textOf false spooler.written, Console.textOf true spooler.written⟩ := by
  rw [console]
  induction spooler.written using List.reverseRecOn with
  | nil => rfl
  | append_singleton lines line ih =>
    rw [List.foldl_append, ih]
    obtain ⟨toError, text⟩ := line
    cases toError <;> simp [Console.write, Console.textOf, String.append_assoc]

end LockedContainers
