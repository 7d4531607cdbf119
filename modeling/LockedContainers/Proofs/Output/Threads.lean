import Mathlib.Logic.Function.Basic
import LockedContainers.Proofs.Interleaved
import LockedContainers.Proofs.Output.Changes

/-!
# The threads around a spooler

Callers and the writer share the spooler under one mutex. A caller takes the
mutex, makes its change, gives the mutex up and notifies the writer; the
writer gives the mutex up while it sleeps and while it writes a line. Between
any two of their steps the other threads may take any number of theirs.
-/
namespace LockedContainers

/-- What threads ask of a spooler. -/
inductive SpoolCall
  | print (template : String) (args : List String)
  | error (template : String) (args : List String)
  /-- Returns when the writer has left. -/
  | stop
deriving DecidableEq, Repr

namespace SpoolCall

/-- The change under the mutex. -/
def apply (spooler : Spooler) : SpoolCall → Spooler
  | print template args => spooler.print template args
  | error template args => spooler.error template args
  | stop => spooler.requestStop

/-- The line that is queued, for the stream that the kind of the call names. -/
def lines : SpoolCall → List Line
  | print template args => [⟨false, Template.format template args⟩]
  | error template args => [⟨true, Template.format template args⟩]
  | stop => []

theorem change (spooler : Spooler) (call : SpoolCall) :
    Spooler.Change call.lines spooler (call.apply spooler) := by
  cases call with
  | print template args => exact .push _
  | error template args => exact .push _
  | stop => exact .stop

end SpoolCall

/-- What the threads share. -/
structure SpoolRoom where
  spooler : Spooler := {}
  /-- Whether some thread has the mutex. -/
  locked : Bool := false
  /-- Whether the writer was notified since it fell asleep. -/
  notified : Bool := false
  /-- Whether nobody has waited for the end of the writer. -/
  joinable : Bool := true
deriving DecidableEq, Repr

namespace SpoolRoom

/-- The queue and the flag that the mutex guards. -/
def guarded (room : SpoolRoom) : List Line × Bool := (room.spooler.queue, room.spooler.running)

end SpoolRoom

/-- Where a caller stands in a call. -/
inductive CallStage
  /-- Before the mutex. -/
  | knocking
  /-- With the mutex, before the change. -/
  | changing
  /-- With the mutex, after the change. -/
  | parting
  /-- Before the notification. -/
  | notifying
  /-- Before the end of the writer. -/
  | joining
deriving DecidableEq, Repr

/-- A thread that calls a spooler. -/
structure SpoolCaller where
  returned : List SpoolCall := []
  current : Option (SpoolCall × CallStage) := none
  pending : List SpoolCall
deriving DecidableEq, Repr

namespace SpoolCaller

def goTo (caller : SpoolCaller) (call : SpoolCall) (stage : CallStage) : SpoolCaller :=
  { caller with current := some (call, stage) }

def finish (caller : SpoolCaller) (call : SpoolCall) : SpoolCaller :=
  { caller with returned := caller.returned ++ [call], current := none }

/-- The next step of a call, or the begin of the next call. -/
def next (room : SpoolRoom) (caller : SpoolCaller) : SpoolRoom × SpoolCaller :=
  match caller.current with
  | none =>
    match caller.pending with
    | [] => (room, caller)
    | call :: rest => (room, { caller with current := some (call, .knocking), pending := rest })
  | some (call, .knocking) =>
    if room.locked then (room, caller)
    else ({ room with locked := true }, caller.goTo call .changing)
  | some (call, .changing) =>
    ({ room with spooler := call.apply room.spooler }, caller.goTo call .parting)
  | some (call, .parting) => ({ room with locked := false }, caller.goTo call .notifying)
  | some (call, .notifying) =>
    ({ room with notified := true },
      if call = .stop then caller.goTo call .joining else caller.finish call)
  | some (call, .joining) =>
    if room.joinable && room.spooler.writer ≠ .exited then (room, caller)
    else ({ room with joinable := false }, caller.finish call)

/-- Whether the thread has the mutex. -/
def holds (caller : SpoolCaller) : Bool :=
  match caller.current with
  | some (_, .changing) => true
  | some (_, .parting) => true
  | _ => false

/-- The lines that the next step queues. -/
def queues (caller : SpoolCaller) : List Line :=
  match caller.current with
  | some (call, .changing) => call.lines
  | _ => []

/-- The lines that are not queued yet. -/
def unqueued (caller : SpoolCaller) : List Line :=
  (match caller.current with
    | some (call, .knocking) => call.lines
    | some (call, .changing) => call.lines
    | _ => []) ++ caller.pending.flatMap SpoolCall.lines

end SpoolCaller

/-- Where the writer stands in its loop. -/
inductive WriterStage
  /-- Before the mutex, at first and when woken. -/
  | arriving
  /-- With the mutex, before the test whether to sleep. -/
  | testing
  | asleep
  /-- With the mutex, before the test whether a line is queued. -/
  | draining
  /-- With the mutex and a line. -/
  | carrying (line : Line)
  /-- With a line and without the mutex. -/
  | writing (line : Line)
  /-- Before the mutex, with the line written. -/
  | returning
  /-- With the mutex, before the test whether to leave. -/
  | leaving
  /-- With the mutex, before it leaves. -/
  | departing
  | gone
deriving DecidableEq, Repr

namespace WriterStage

/-- The next step of the writer. It may wake without being notified. -/
def next (room : SpoolRoom) : WriterStage → SpoolRoom × WriterStage
  | arriving => if room.locked then (room, arriving) else ({ room with locked := true }, testing)
  | testing =>
    if room.spooler.queue.isEmpty && room.spooler.running then
      ({ room with locked := false, notified := false }, asleep)
    else (room, draining)
  | asleep => (room, arriving)
  | draining =>
    match room.spooler.queue with
    | [] => (room, leaving)
    | line :: rest =>
      ({ room with spooler := { room.spooler with queue := rest, writer := .holding line } },
        carrying line)
  | carrying line => ({ room with locked := false }, writing line)
  | writing line =>
    ({ room with
        spooler :=
          { room.spooler with writer := .idle, written := room.spooler.written ++ [line] } },
      returning)
  | returning => if room.locked then (room, returning) else ({ room with locked := true }, draining)
  | leaving => if room.spooler.running then (room, testing) else (room, departing)
  | departing =>
    ({ room with spooler := { room.spooler with writer := .exited }, locked := false }, gone)
  | gone => (room, gone)

/-- Whether the writer has the mutex. -/
def holds : WriterStage → Bool
  | testing => true
  | draining => true
  | carrying _ => true
  | leaving => true
  | departing => true
  | _ => false

/-- What the spooler shows of the writer. -/
def writer : WriterStage → Writer
  | carrying line => .holding line
  | writing line => .holding line
  | gone => .exited
  | _ => .idle

/-- What the writer relies on. -/
def Knows (room : SpoolRoom) (stage : WriterStage) : Prop :=
  room.spooler.writer = stage.writer ∧ match stage with
    | leaving => room.spooler.queue = []
    | departing => room.spooler.queue = [] ∧ room.spooler.running = false
    | _ => True

end WriterStage

/-! ## What a step can be -/

/-- The mutex is taken, given up or left alone; the flags tell whether it is locked and whether the
thread has it, before and after. -/
inductive Grip : Bool → Bool → Bool → Bool → Prop
  | same {locked holds : Bool} : Grip locked holds locked holds
  | take : Grip false false true true
  | give {locked : Bool} : Grip locked true false false

namespace SpoolCaller

/-- What a caller can make of the room and of itself. -/
inductive Step : SpoolRoom → SpoolCaller → SpoolRoom → SpoolCaller → Prop
  | rest {room : SpoolRoom} {caller : SpoolCaller} (queues : caller.queues = []) :
      Step room caller room caller
  | call {room : SpoolRoom} {returned pending : List SpoolCall} {call : SpoolCall} :
      Step room ⟨returned, none, call :: pending⟩ room ⟨returned, some (call, .knocking), pending⟩
  | lock {room : SpoolRoom} {returned pending : List SpoolCall} {call : SpoolCall}
      (free : room.locked = false) :
      Step room ⟨returned, some (call, .knocking), pending⟩ { room with locked := true }
        ⟨returned, some (call, .changing), pending⟩
  | change {room : SpoolRoom} {returned pending : List SpoolCall} {call : SpoolCall} :
      Step room ⟨returned, some (call, .changing), pending⟩
        { room with spooler := call.apply room.spooler } ⟨returned, some (call, .parting), pending⟩
  | unlock {room : SpoolRoom} {returned pending : List SpoolCall} {call : SpoolCall} :
      Step room ⟨returned, some (call, .parting), pending⟩ { room with locked := false }
        ⟨returned, some (call, .notifying), pending⟩
  | notify {room : SpoolRoom} {returned pending : List SpoolCall} {call : SpoolCall}
      (returns : call ≠ .stop) :
      Step room ⟨returned, some (call, .notifying), pending⟩ { room with notified := true }
        ⟨returned ++ [call], none, pending⟩
  | await {room : SpoolRoom} {returned pending : List SpoolCall} :
      Step room ⟨returned, some (.stop, .notifying), pending⟩ { room with notified := true }
        ⟨returned, some (.stop, .joining), pending⟩
  | join {room : SpoolRoom} {returned pending : List SpoolCall} {call : SpoolCall}
      (ended : room.joinable = true → room.spooler.writer = .exited) :
      Step room ⟨returned, some (call, .joining), pending⟩ { room with joinable := false }
        ⟨returned ++ [call], none, pending⟩

theorem next_step (room : SpoolRoom) (caller : SpoolCaller) :
    Step room caller (caller.next room).1 (caller.next room).2 := by
  obtain ⟨returned, current, pending⟩ := caller
  cases current with
  | none =>
    cases pending with
    | nil => exact .rest rfl
    | cons call pending => exact .call
  | some current =>
    obtain ⟨call, stage⟩ := current
    cases stage with
    | knocking =>
      simp only [next]
      split
      · exact .rest rfl
      · rename_i hfree
        exact .lock (by simpa using hfree)
    | changing => exact .change
    | parting => exact .unlock
    | notifying =>
      simp only [next]
      split
      · rename_i hstop
        subst hstop
        exact .await
      · rename_i hreturns
        exact .notify hreturns
    | joining =>
      simp only [next]
      split
      · exact .rest rfl
      · rename_i hended
        exact .join (by simpa using hended)

namespace Step

variable {room room' : SpoolRoom} {caller caller' : SpoolCaller}
  (h : Step room caller room' caller')
include h

theorem grip : Grip room.locked caller.holds room'.locked caller'.holds := by
  cases h with
  | rest queues => exact .same
  | call => exact .same
  | lock free =>
    rw [free]
    exact .take
  | change => exact .same
  | unlock => exact .give
  | notify returns => exact .same
  | await => exact .same
  | join ended => exact .same

/-- A call makes its change, and queues its lines, with the mutex. -/
theorem spooler_change : Spooler.Change caller.queues room.spooler room'.spooler := by
  cases h with
  | rest queues =>
    rw [queues]
    exact .none
  | change => exact SpoolCall.change _ _
  | _ => exact .none

/-- A caller never acts in the place of the writer. -/
theorem writer : room'.spooler.writer = room.spooler.writer := by
  cases h with
  | @change returned pending call => cases call <;> rfl
  | _ => rfl

/-- Without the mutex a caller leaves queue and flag alone. -/
theorem guarded (without : caller.holds = false) : room'.guarded = room.guarded := by
  cases h with
  | change => cases without
  | _ => rfl

/-- Lines are queued call by call. -/
theorem unqueued : caller.queues ++ caller'.unqueued = caller.unqueued := by
  cases h with
  | rest queues => rw [queues, List.nil_append]
  | _ => rfl

end Step
end SpoolCaller

namespace WriterStage

/-- What the writer can make of the room and of itself. -/
inductive Step : SpoolRoom → WriterStage → SpoolRoom → WriterStage → Prop
  | rest {room : SpoolRoom} {stage : WriterStage} : Step room stage room stage
  | lock {room : SpoolRoom} (free : room.locked = false) :
      Step room arriving { room with locked := true } testing
  | sleep {room : SpoolRoom} (empty : room.spooler.queue = [])
      (running : room.spooler.running = true) :
      Step room testing { room with locked := false, notified := false } asleep
  | enter {room : SpoolRoom} : Step room testing room draining
  | wake {room : SpoolRoom} : Step room asleep room arriving
  | take {room : SpoolRoom} {line : Line} {rest : List Line}
      (queued : room.spooler.queue = line :: rest) :
      Step room draining
        { room with spooler := { room.spooler with queue := rest, writer := .holding line } }
        (carrying line)
  | drained {room : SpoolRoom} (empty : room.spooler.queue = []) : Step room draining room leaving
  | unlock {room : SpoolRoom} {line : Line} :
      Step room (carrying line) { room with locked := false } (writing line)
  | write {room : SpoolRoom} {line : Line} :
      Step room (writing line)
        { room with
          spooler :=
            { room.spooler with writer := .idle, written := room.spooler.written ++ [line] } }
        returning
  | relock {room : SpoolRoom} (free : room.locked = false) :
      Step room returning { room with locked := true } draining
  | again {room : SpoolRoom} : Step room leaving room testing
  | quit {room : SpoolRoom} (asked : room.spooler.running = false) :
      Step room leaving room departing
  | depart {room : SpoolRoom} :
      Step room departing
        { room with spooler := { room.spooler with writer := .exited }, locked := false } gone

theorem next_step (room : SpoolRoom) (stage : WriterStage) :
    Step room stage (stage.next room).1 (stage.next room).2 := by
  cases stage with
  | arriving =>
    simp only [next]
    split
    · exact .rest
    · rename_i hfree
      exact .lock (by simpa using hfree)
  | testing =>
    simp only [next]
    split
    · rename_i hsleep
      rw [Bool.and_eq_true, List.isEmpty_iff] at hsleep
      exact .sleep hsleep.1 hsleep.2
    · exact .enter
  | asleep => exact .wake
  | draining =>
    simp only [next]
    split
    · rename_i hempty
      exact .drained hempty
    · rename_i line rest hqueued
      exact .take hqueued
  | carrying line => exact .unlock
  | writing line => exact .write
  | returning =>
    simp only [next]
    split
    · exact .rest
    · rename_i hfree
      exact .relock (by simpa using hfree)
  | leaving =>
    simp only [next]
    split
    · exact .again
    · rename_i hasked
      exact .quit (by simpa using hasked)
  | departing => exact .depart
  | gone => exact .rest

namespace Step

variable {room room' : SpoolRoom} {stage stage' : WriterStage} (h : Step room stage room' stage')
include h

theorem grip : Grip room.locked stage.holds room'.locked stage'.holds := by
  cases h with
  | lock free =>
    rw [free]
    exact .take
  | relock free =>
    rw [free]
    exact .take
  | sleep empty running => exact .give
  | unlock => exact .give
  | depart => exact .give
  | _ => exact .same

/-- Every step of the writer's loop is one of the writer of the spooler, or none. -/
theorem spooler_change (knows : stage.Knows room) :
    Spooler.Change [] room.spooler room'.spooler := by
  obtain ⟨⟨queue, running, writer, written⟩, locked, notified, joinable⟩ := room
  obtain ⟨hwriter, hknows⟩ := knows
  cases hwriter
  cases h with
  | take queued =>
    cases queued
    exact .advance rfl
  | write => exact .advance rfl
  | depart =>
    obtain ⟨rfl, rfl⟩ := hknows
    exact .advance rfl
  | _ => exact .none

theorem knows (knows : stage.Knows room) : stage'.Knows room' := by
  cases h with
  | rest => exact knows
  | take queued => exact ⟨rfl, trivial⟩
  | drained empty => exact ⟨knows.1, empty⟩
  | write => exact ⟨rfl, trivial⟩
  | quit asked => exact ⟨knows.1, knows.2, asked⟩
  | depart => exact ⟨rfl, trivial⟩
  | _ => exact ⟨knows.1, trivial⟩

end Step

/-- Others do not act in the place of the writer, and leave queue and flag alone while the writer
has the mutex: then it can still rely on what it knows. -/
theorem Knows.frame {room room' : SpoolRoom} {stage : WriterStage} (knows : stage.Knows room)
    (writer : room'.spooler.writer = room.spooler.writer)
    (guarded : stage.holds = true → room'.guarded = room.guarded) : stage.Knows room' := by
  obtain ⟨hwriter, hknows⟩ := knows
  refine ⟨writer.trans hwriter, ?_⟩
  cases stage with
  | leaving => exact (congrArg Prod.fst (guarded rfl)).trans hknows
  | departing =>
    exact ⟨(congrArg Prod.fst (guarded rfl)).trans hknows.1,
      (congrArg Prod.snd (guarded rfl)).trans hknows.2⟩
  | _ => trivial

end WriterStage
end LockedContainers
