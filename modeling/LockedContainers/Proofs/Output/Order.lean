import LockedContainers.Proofs.Output.Threads

/-!
# Lines in the order in which they are queued

Any number of callers and the writer take their steps in any order. The mutex
has one holder at a time, so the writer still finds the queue empty when it
leaves, and every step moves lines on as the spooler does.
-/
namespace LockedContainers

/-- The threads around a spooler, between two of their steps. -/
structure SpoolRun (Thread : Type) where
  room : SpoolRoom := {}
  writer : WriterStage := .arriving
  callers : Thread → SpoolCaller

namespace SpoolRun

variable {Thread : Type}

/-- A new spooler. The writer has not begun, and no call has. -/
def begin (program : Thread → List SpoolCall) : SpoolRun Thread where
  callers t := { pending := program t }

variable [DecidableEq Thread]

/-- The next step of a caller, or of the writer. -/
def step (s : SpoolRun Thread) : Option Thread → SpoolRun Thread
  | none =>
    { s with
      room := (s.writer.next s.room).1
      writer := (s.writer.next s.room).2 }
  | some t =>
    { s with
      room := ((s.callers t).next s.room).1
      callers := Function.update s.callers t ((s.callers t).next s.room).2 }

def run (s : SpoolRun Thread) (schedule : List (Option Thread)) : SpoolRun Thread :=
  schedule.foldl step s

omit [DecidableEq Thread] in
/-- The lines that a step queues, with the caller that queues them. -/
def queued (s : SpoolRun Thread) : Option Thread → List (Thread × Line)
  | none => []
  | some t => (s.callers t).queues.map (t, ·)

/-- The lines that are queued in a run, in that order. -/
def history (s : SpoolRun Thread) : List (Option Thread) → List (Thread × Line)
  | [] => []
  | a :: rest => s.queued a ++ (s.step a).history rest

omit [DecidableEq Thread] in
/-- Whether the caller, or the writer, has the mutex. -/
def holds (s : SpoolRun Thread) : Option Thread → Bool
  | none => s.writer.holds
  | some t => (s.callers t).holds

end SpoolRun

/-! ## The mutex -/

/-- The mutex is free, or one thread has it. -/
structure MutexKept {α : Type} (locked : Bool) (holds : α → Bool) : Prop where
  exclusive : ∀ a b, holds a = true → holds b = true → a = b
  free : locked = false → ∀ a, holds a = false
  taken : locked = true → ∃ a, holds a = true

/-- A grip of one thread keeps it so. -/
theorem MutexKept.step {α : Type} {locked locked' here here' : Bool} {holds holds' : α → Bool}
    {a : α} (kept : MutexKept locked holds) (grip : Grip locked here locked' here')
    (before : holds a = here) (after : holds' a = here')
    (others : ∀ b, b ≠ a → holds' b = holds b) : MutexKept locked' holds' := by
  cases grip with
  | same =>
    have hsame : holds' = holds := by
      funext b
      by_cases hb : b = a
      · rw [hb, after, before]
      · exact others b hb
    rw [hsame]
    exact kept
  | take =>
    have honly : ∀ b, holds' b = true → b = a := by
      intro b hb
      by_contra hne
      rw [others b hne, kept.free rfl b] at hb
      cases hb
    exact ⟨fun b c hb hc => (honly b hb).trans (honly c hc).symm, nofun, fun _ => ⟨a, after⟩⟩
  | give =>
    have hnone : ∀ b, holds' b = false := by
      intro b
      by_cases hb : b = a
      · rw [hb, after]
      · rw [others b hb, Bool.eq_false_iff]
        exact fun hholds => hb (kept.exclusive b a hholds before)
    refine ⟨fun b c hb => ?_, fun _ => hnone, nofun⟩
    rw [hnone b] at hb
    cases hb

/-! ## Stops and notifications -/

/-- Whether the change of the call is made. -/
def CallStage.changed : CallStage → Bool
  | knocking => false
  | changing => false
  | _ => true

namespace SpoolCaller

/-- The caller has made the change of a stop. -/
def HasStopped (caller : SpoolCaller) : Prop :=
  .stop ∈ caller.returned ∨ ∃ stage, caller.current = some (.stop, stage) ∧ stage.changed = true

/-- The caller has made a change and not yet notified the writer. -/
def OwesNotice (caller : SpoolCaller) : Prop :=
  ∃ call, caller.current = some (call, .parting) ∨ caller.current = some (call, .notifying)

namespace Step

variable {room room' : SpoolRoom} {caller caller' : SpoolCaller}
  (h : Step room caller room' caller')
include h

/-- A stop stays made. -/
theorem hasStopped (stopped : caller.HasStopped) : caller'.HasStopped := by
  cases h with
  | rest queues => exact stopped
  | await => exact .inr ⟨.joining, rfl, rfl⟩
  | unlock =>
    rcases stopped with hreturned | ⟨stage, hstage, -⟩
    · exact .inl hreturned
    · cases hstage
      exact .inr ⟨.notifying, rfl, rfl⟩
  | notify returns =>
    rcases stopped with hreturned | ⟨stage, hstage, -⟩
    · exact .inl (List.mem_append_left _ hreturned)
    · cases hstage
      exact absurd rfl returns
  | join ended =>
    rcases stopped with hreturned | ⟨stage, hstage, -⟩
    · exact .inl (List.mem_append_left _ hreturned)
    · cases hstage
      exact .inl (by simp)
  | call | lock free | change =>
    -- in these stages no change is made yet
    rcases stopped with hreturned | ⟨stage, hstage, hchanged⟩
    · exact .inl hreturned
    · cases hstage <;> cases hchanged

/-- The flag goes down by the change of a stop. -/
theorem running (asked : room'.spooler.running = false) :
    room.spooler.running = false ∨ caller'.HasStopped := by
  cases h with
  | @change returned pending call =>
    cases call with
    | stop => exact .inr (.inr ⟨.parting, rfl, rfl⟩)
    | print template args => exact .inl asked
    | error template args => exact .inl asked
  | _ => exact .inl asked

/-- The change of a stop takes the flag down. -/
theorem stops (stopped : caller'.HasStopped) :
    caller.HasStopped ∨ room'.spooler.running = false := by
  cases h with
  | rest queues => exact .inl stopped
  | await => exact .inl (.inr ⟨.notifying, rfl, rfl⟩)
  | call | lock free =>
    -- in these stages no change is made yet
    rcases stopped with hreturned | ⟨stage, hstage, hchanged⟩
    · exact .inl (.inl hreturned)
    · cases hstage
      cases hchanged
  | change =>
    rcases stopped with hreturned | ⟨stage, hstage, -⟩
    · exact .inl (.inl hreturned)
    · cases hstage
      exact .inr rfl
  | unlock =>
    rcases stopped with hreturned | ⟨stage, hstage, -⟩
    · exact .inl (.inl hreturned)
    · cases hstage
      exact .inl (.inr ⟨.parting, rfl, rfl⟩)
  | notify returns =>
    rcases stopped with hreturned | ⟨stage, hstage, -⟩
    · rw [List.mem_append, List.mem_singleton] at hreturned
      exact .inl (.inl (hreturned.resolve_right fun heq => returns heq.symm))
    · cases hstage
  | join ended =>
    rcases stopped with hreturned | ⟨stage, hstage, -⟩
    · rcases List.mem_append.1 hreturned with hbefore | hnow
      · exact .inl (.inl hbefore)
      · cases List.mem_singleton.1 hnow
        exact .inl (.inr ⟨.joining, rfl, rfl⟩)
    · cases hstage

/-- A stop returns when the writer has been waited for. -/
theorem returned (stop : .stop ∈ caller'.returned) :
    .stop ∈ caller.returned ∨ room'.joinable = false := by
  cases h with
  | notify returns =>
    rw [List.mem_append, List.mem_singleton] at stop
    exact .inl (stop.resolve_right fun heq => returns heq.symm)
  | join ended => exact .inr rfl
  | _ => exact .inl stop

/-- Nobody has waited for the writer before it has left. -/
theorem joinable (joined : room'.joinable = false) :
    room.joinable = false ∨ room.spooler.writer = .exited := by
  cases h with
  | join ended =>
    cases hjoinable : room.joinable with
    | true => exact .inr (ended hjoinable)
    | false => exact .inl rfl
  | _ => exact .inl joined

theorem joined (joined : room.joinable = false) : room'.joinable = false := by
  cases h with
  | join ended => rfl
  | _ => exact joined

/-- Who changes the queue or the flag owes the writer a notice. -/
theorem guarded_or_owes : room'.guarded = room.guarded ∨ caller'.OwesNotice := by
  cases h with
  | @change returned pending call => exact .inr ⟨call, .inl rfl⟩
  | _ => exact .inl rfl

/-- Who owes the writer a notice gives it in the end. -/
theorem owes (owes : caller.OwesNotice) : caller'.OwesNotice ∨ room'.notified = true := by
  obtain ⟨call, howes⟩ := owes
  cases h with
  | rest queues => exact .inl ⟨call, howes⟩
  | @unlock returned pending call => exact .inl ⟨call, .inr rfl⟩
  | notify returns => exact .inr rfl
  | await => exact .inr rfl
  | _ => rcases howes with howes | howes <;> cases howes

theorem notified (notified : room.notified = true) : room'.notified = true := by
  cases h with
  | notify returns => rfl
  | await => rfl
  | _ => exact notified

/-- A stop of a spooler that was stopped changes nothing. -/
theorem stop_again {stage : CallStage} (stop : caller.current = some (.stop, stage))
    (asked : room.spooler.running = false) : room'.spooler = room.spooler := by
  cases h with
  | change =>
    cases stop
    obtain ⟨⟨queue, running, writer, written⟩, locked, notified, joinable⟩ := room
    cases asked
    rfl
  | _ => rfl

end Step
end SpoolCaller

namespace WriterStage.Step

variable {room room' : SpoolRoom} {stage stage' : WriterStage} (h : Step room stage room' stage')
include h

/-- The writer leaves alone what only callers change. -/
theorem others : room'.spooler.running = room.spooler.running ∧ room'.joinable = room.joinable := by
  cases h <;> exact ⟨rfl, rfl⟩

/-- The writer falls asleep when there is nothing to do. -/
theorem asleep (asleep : stage' = .asleep) :
    room'.guarded = ([], true) ∨ stage = .asleep ∧ room' = room := by
  cases h with
  | rest => exact .inr ⟨asleep, rfl⟩
  | sleep empty running => exact .inl (Prod.ext empty running)
  | _ => cases asleep

end WriterStage.Step

/-! ## The way out -/

namespace WriterStage

/-- Bounds the steps that the writer takes when it is asked to stop and nobody is in its way. -/
def remaining (room : SpoolRoom) (stage : WriterStage) : Nat :=
  4 * room.spooler.queue.length + match stage with
    | gone => 0
    | departing => 1
    | leaving => 2
    | draining => 3
    | testing => 4
    | returning => 4
    | arriving => 5
    | writing _ => 5
    | carrying _ => 6
    | asleep => 6

theorem remaining_next {room : SpoolRoom} {stage : WriterStage}
    (asked : room.spooler.running = false) (free : stage.holds = false → room.locked = false)
    (here : stage ≠ .gone) :
    (stage.next room).2.remaining (stage.next room).1 < stage.remaining room := by
  cases stage with
  | gone => exact absurd rfl here
  | arriving => simp [next, free rfl, remaining]
  | returning => simp [next, free rfl, remaining]
  | testing => simp [next, asked, remaining]
  | leaving => simp [next, asked, remaining]
  | draining =>
    simp only [next]
    split
    · simp [remaining]
    · rename_i line rest hqueued
      simp only [remaining, hqueued, List.length_cons]
      omega
  | _ => simp [next, remaining]

end WriterStage

/-! ## Every run -/

namespace SpoolRun

variable {Thread : Type} [DecidableEq Thread] {s : SpoolRun Thread}

/-- What holds between any two steps. -/
structure Sound (s : SpoolRun Thread) : Prop where
  knows : s.writer.Knows s.room
  mutex : MutexKept s.room.locked s.holds
  asked : s.room.spooler.running = false ↔ ∃ t, (s.callers t).HasStopped
  left : s.room.spooler.writer = .exited → s.room.spooler.running = false
  joined : s.room.joinable = false → s.room.spooler.writer = .exited
  returned : ∀ t, .stop ∈ (s.callers t).returned → s.room.joinable = false
  heard : s.writer = .asleep →
    s.room.guarded = ([], true) ∨ s.room.notified = true ∨ ∃ t, (s.callers t).OwesNotice

theorem step_callers_self (s : SpoolRun Thread) (t : Thread) :
    (s.step (some t)).callers t = ((s.callers t).next s.room).2 :=
  Function.update_self ..

theorem step_callers_of_ne (s : SpoolRun Thread) {t t' : Thread} (h : t' ≠ t) :
    (s.step (some t)).callers t' = s.callers t' :=
  Function.update_of_ne h ..

/-- A notice that is owed is still owed, or given. -/
theorem owes_step (s : SpoolRun Thread) (t : Thread) (h : ∃ t', (s.callers t').OwesNotice) :
    (s.step (some t)).room.notified = true ∨
      ∃ t', ((s.step (some t)).callers t').OwesNotice := by
  obtain ⟨t', howes⟩ := h
  by_cases ht : t' = t
  · subst ht
    rcases (SpoolCaller.next_step s.room (s.callers t')).owes howes with hstill | hnotified
    · exact .inr ⟨t', (s.step_callers_self t').symm ▸ hstill⟩
    · exact .inl hnotified
  · exact .inr ⟨t', (s.step_callers_of_ne ht).symm ▸ howes⟩

/-- Whatever the step is, the spooler changes by it as a spooler can. -/
theorem step_change (knows : s.writer.Knows s.room) (a : Option Thread) :
    Spooler.Change ((s.queued a).map Prod.snd) s.room.spooler (s.step a).room.spooler := by
  cases a with
  | none => exact (WriterStage.next_step _ _).spooler_change knows
  | some t =>
    have hqueued : (s.queued (some t)).map Prod.snd = (s.callers t).queues := by
      simp [queued, Function.comp_def]
    rw [hqueued]
    exact (SpoolCaller.next_step _ _).spooler_change

namespace Sound

omit [DecidableEq Thread] in
theorem begin (program : Thread → List SpoolCall) : (begin program).Sound where
  knows := ⟨rfl, trivial⟩
  mutex := ⟨fun a b ha => (by cases a <;> cases ha), fun _ a => (by cases a <;> rfl), nofun⟩
  asked := ⟨nofun, by simp [SpoolRun.begin, SpoolCaller.HasStopped]⟩
  left := nofun
  joined := nofun
  returned := nofun
  heard := nofun

/-- The writer has left only where it was asked to. -/
theorem left_step (h : s.Sound) (a : Option Thread)
    (gone : (s.step a).room.spooler.writer = .exited) :
    (s.step a).room.spooler.running = false := by
  have hchange := step_change h.knows a
  apply hchange.stopped
  by_cases hbefore : s.room.spooler.writer = .exited
  · exact h.left hbefore
  · exact (hchange.exits hbefore gone).1

/-- The writer that somebody has waited for has left. -/
theorem joined_step (h : s.Sound) (a : Option Thread)
    (joined : s.room.joinable = false ∨ s.room.spooler.writer = .exited) :
    (s.step a).room.spooler.writer = .exited :=
  ((step_change h.knows a).exited (joined.elim h.joined id)).1

/-- The writer is asked to stop by the calls that cleared the flag, and by nothing else. -/
theorem asked_step (h : s.Sound) (t : Thread) :
    (s.step (some t)).room.spooler.running = false ↔
      ∃ t', ((s.step (some t)).callers t').HasStopped := by
  have hstep := SpoolCaller.next_step s.room (s.callers t)
  refine Iff.trans ?_ (Function.exists_update_iff s.callers fun _ c => c.HasStopped).symm
  constructor
  · intro hasked
    rcases hstep.running hasked with hbefore | hnow
    · obtain ⟨t', ht'⟩ := h.asked.1 hbefore
      by_cases ht : t' = t
      · exact .inl (hstep.hasStopped (ht ▸ ht'))
      · exact .inr ⟨t', ht, ht'⟩
    · exact .inl hnow
  · have hstays (hbefore : ∃ t', (s.callers t').HasStopped) :=
      (step_change h.knows (some t)).stopped (h.asked.2 hbefore)
    rintro (hself | ⟨t', -, hother⟩)
    · exact (hstep.stops hself).elim (fun hbefore => hstays ⟨t, hbefore⟩) id
    · exact hstays ⟨t', hother⟩

theorem writer_step (h : s.Sound) : (s.step none).Sound := by
  have hstep := WriterStage.next_step s.room s.writer
  have hrunning : (s.step none).room.spooler.running = s.room.spooler.running := hstep.others.1
  have hjoinable : (s.step none).room.joinable = s.room.joinable := hstep.others.2
  constructor
  case knows => exact hstep.knows h.knows
  case mutex =>
    refine h.mutex.step (a := none) hstep.grip rfl rfl fun b hb => ?_
    cases b with
    | none => exact absurd rfl hb
    | some t => rfl
  case asked =>
    rw [hrunning]
    exact h.asked
  case left => exact h.left_step none
  case joined =>
    rw [hjoinable]
    exact fun hjoined => h.joined_step none (.inl hjoined)
  case returned =>
    rw [hjoinable]
    exact h.returned
  case heard =>
    intro hasleep
    rcases hstep.asleep hasleep with hidle | ⟨hbefore, hroom⟩
    · exact .inl hidle
    · rw [step, hroom]
      exact h.heard hbefore

theorem caller_step (h : s.Sound) (t : Thread) : (s.step (some t)).Sound := by
  have hstep := SpoolCaller.next_step s.room (s.callers t)
  constructor
  case knows =>
    refine h.knows.frame hstep.writer fun hwriter => hstep.guarded ?_
    rw [Bool.eq_false_iff]
    exact fun hcaller => nomatch h.mutex.exclusive none (some t) hwriter hcaller
  case mutex =>
    have hself := congrArg SpoolCaller.holds (s.step_callers_self t)
    refine h.mutex.step (a := some t) hstep.grip rfl hself fun b hb => ?_
    cases b with
    | none => rfl
    | some t' =>
      have hother : t' ≠ t := fun ht => hb (congrArg some ht)
      exact congrArg SpoolCaller.holds (s.step_callers_of_ne hother)
  case asked => exact h.asked_step t
  case left => exact h.left_step (some t)
  case joined => exact fun hjoined => h.joined_step (some t) (hstep.joinable hjoined)
  case returned =>
    apply (Function.forall_update_iff s.callers fun _ c =>
      .stop ∈ c.returned → (s.step (some t)).room.joinable = false).2
    constructor
    · intro hreturned
      rcases hstep.returned hreturned with hbefore | hnow
      · exact hstep.joined (h.returned t hbefore)
      · exact hnow
    · exact fun t' _ hreturned => hstep.joined (h.returned t' hreturned)
  case heard =>
    intro hasleep
    rcases hstep.guarded_or_owes with hguarded | howes
    · rcases h.heard hasleep with hidle | hnotified | howes
      · exact .inl (hguarded.trans hidle)
      · exact .inr (.inl (hstep.notified hnotified))
      · exact .inr (s.owes_step t howes)
    · exact .inr (.inr ⟨t, (s.step_callers_self t).symm ▸ howes⟩)

theorem step (h : s.Sound) (a : Option Thread) : (s.step a).Sound := by
  cases a with
  | none => exact h.writer_step
  | some t => exact h.caller_step t

theorem run (h : s.Sound) (schedule : List (Option Thread)) : (s.run schedule).Sound := by
  induction schedule generalizing s with
  | nil => exact h
  | cons a rest ih => exact ih (h.step a)

/-- A run adds the lines that are queued in it, and nothing else happens to the lines. -/
theorem lines_run (h : s.Sound) (schedule : List (Option Thread)) :
    (s.run schedule).room.spooler.lines =
      s.room.spooler.lines ++ (s.history schedule).map Prod.snd := by
  induction schedule generalizing s with
  | nil => simp [SpoolRun.run, history]
  | cons a rest ih =>
    have hrest := ih (h.step a)
    rw [(step_change h.knows a).lines] at hrest
    simpa [SpoolRun.run, history] using hrest

/-- Lines that were queued in time are written when the writer leaves. -/
theorem run_delivers {early : List Line} (h : s.Sound)
    (queued : early <+: s.room.spooler.lines ∧
      (s.room.spooler.writer = .exited → early <+: s.room.spooler.written))
    (schedule : List (Option Thread)) :
    (s.run schedule).room.spooler.writer = .exited →
      early <+: (s.run schedule).room.spooler.written := by
  induction schedule generalizing s with
  | nil => exact queued.2
  | cons a rest ih => exact ih (h.step a) ((step_change h.knows a).delivers queued)

/-- When the writer has left, nothing is written any more. -/
theorem run_exited (h : s.Sound) (gone : s.room.spooler.writer = .exited)
    (schedule : List (Option Thread)) :
    (s.run schedule).room.spooler.writer = .exited ∧
      (s.run schedule).room.spooler.written = s.room.spooler.written := by
  induction schedule generalizing s with
  | nil => exact ⟨gone, rfl⟩
  | cons a rest ih =>
    obtain ⟨hgone, hwritten⟩ := (step_change h.knows a).exited gone
    have hrest := ih (h.step a) hgone
    exact ⟨hrest.1, hrest.2.trans hwritten⟩

omit [DecidableEq Thread] in
/-- A mutex that no caller has is free, or the writer has it. -/
theorem free_of_apart (h : s.Sound) (apart : ∀ t, (s.callers t).holds = false)
    (without : s.writer.holds = false) : s.room.locked = false := by
  rw [← Bool.not_eq_true]
  intro hlocked
  obtain ⟨a, ha⟩ := h.mutex.taken hlocked
  cases a with
  | none => exact Bool.noConfusion (without.symm.trans ha)
  | some t => exact Bool.noConfusion ((apart t).symm.trans ha)

/-- The writer that is asked to stop leaves, when it takes its steps and no caller has the mutex. -/
theorem drains (h : s.Sound) (asked : s.room.spooler.running = false)
    (apart : ∀ t, (s.callers t).holds = false) :
    ∃ n, (s.run (List.replicate n none)).room.spooler.writer = .exited := by
  induction hr : s.writer.remaining s.room using Nat.strongRecOn generalizing s with
  | ind r ih =>
    by_cases hgone : s.writer = .gone
    · exact ⟨0, h.knows.1.trans (congrArg WriterStage.writer hgone)⟩
    · have hless := WriterStage.remaining_next asked (h.free_of_apart apart) hgone
      have hasked := (step_change h.knows none).stopped asked
      obtain ⟨n, hleft⟩ := ih _ (hr ▸ hless) (h.step none) hasked apart rfl
      exact ⟨n + 1, hleft⟩

omit [DecidableEq Thread] in
/-- Where a stop has returned, the writer has left. -/
theorem exited_of_returned (h : s.Sound) {t : Thread} (stop : .stop ∈ (s.callers t).returned) :
    s.room.spooler.writer = .exited :=
  h.joined (h.returned t stop)

end Sound

/-- A step queues the lines of its caller next. -/
theorem unqueued_step (s : SpoolRun Thread) (a : Option Thread) (t : Thread) :
    Interleaving.logOf (s.queued a) t ++ ((s.step a).callers t).unqueued =
      (s.callers t).unqueued := by
  cases a with
  | none => rfl
  | some t' =>
    by_cases ht : t = t'
    · subst ht
      rw [queued, Interleaving.logOf_self, step_callers_self]
      exact (SpoolCaller.next_step _ _).unqueued
    · rw [queued, Interleaving.logOf_other ht, step_callers_of_ne s ht, List.nil_append]

theorem unqueued_run (s : SpoolRun Thread) (schedule : List (Option Thread)) (t : Thread) :
    Interleaving.logOf (s.history schedule) t ++ ((s.run schedule).callers t).unqueued =
      (s.callers t).unqueued := by
  induction schedule generalizing s with
  | nil => rfl
  | cons a rest ih =>
    rw [history, Interleaving.logOf_append, List.append_assoc, ← s.unqueued_step a t]
    exact congrArg _ (ih (s.step a))

/-- Every line that was pushed is written, held or queued, in the order of the pushes, and none is
left behind by a stop. -/
structure Delivers (program : Thread → List SpoolCall) (pushed : List (Thread × Line))
    (s : SpoolRun Thread) : Prop where
  lines : s.room.spooler.written ++ s.room.spooler.writer.held ++ s.room.spooler.queue =
    pushed.map Prod.snd
  /-- A caller pushes the lines of its calls, for the streams that they name. -/
  own : ∀ t, Interleaving.logOf pushed t ++ (s.callers t).unqueued =
    (program t).flatMap SpoolCall.lines
  console : s.room.spooler.console =
    ⟨Console.textOf false s.room.spooler.written, Console.textOf true s.room.spooler.written⟩
  /-- The flag goes down as soon as a stop makes its change, and by nothing else. -/
  asked : s.room.spooler.running = false ↔ ∃ t, (s.callers t).HasStopped
  /-- The writer leaves only when it is asked to and nothing is queued. -/
  exits : ∀ a, s.room.spooler.writer ≠ .exited → (s.step a).room.spooler.writer = .exited →
    s.room.spooler.running = false ∧ s.room.spooler.queue = []
  /-- What is pushed before the first stop is written when a stop returns. -/
  stopped : (∀ t, ¬(s.callers t).HasStopped) →
    ∀ later t, .stop ∈ ((s.run later).callers t).returned →
      pushed.map Prod.snd <+: (s.run later).room.spooler.written
  /-- Once asked to stop, the writer can always leave, so the stop can return. -/
  drains : s.room.spooler.running = false → (∀ t, (s.callers t).holds = false) →
    ∃ n, (s.run (List.replicate n none)).room.spooler.writer = .exited
  /-- When a stop has returned, the steps of other stops change nothing. -/
  again : ∀ t t' stage, .stop ∈ (s.callers t).returned →
    (s.callers t').current = some (.stop, stage) →
      (s.step (some t')).room.spooler = s.room.spooler ∧
        (s.step (some t')).room.joinable = s.room.joinable
  /-- What is pushed when the writer has left is never written. -/
  gone : s.room.spooler.writer = .exited → ∀ later,
    (s.run later).room.spooler.writer = .exited ∧
      (s.run later).room.spooler.written = s.room.spooler.written
  /-- The writer sleeps only when it has nothing to do, or it is notified in the end. -/
  heard : s.writer = .asleep →
    (s.room.spooler.queue = [] ∧ s.room.spooler.running = true) ∨ s.room.notified = true ∨
      ∃ t, (s.callers t).OwesNotice

end SpoolRun

/-- Whatever the threads call and however their steps interleave, the lines arrive in order. -/
theorem spooler_delivers_in_order {Thread : Type} [DecidableEq Thread]
    (program : Thread → List SpoolCall) (schedule : List (Option Thread)) :
    ((SpoolRun.begin program).run schedule).Delivers program
      ((SpoolRun.begin program).history schedule) := by
  have hbegin := SpoolRun.Sound.begin program
  have hsound := hbegin.run schedule
  have hlines := hbegin.lines_run schedule
  constructor
  case lines => exact hlines
  case own => exact SpoolRun.unqueued_run _ schedule
  case console => exact Spooler.console_eq _
  case asked => exact hsound.asked
  case exits =>
    intro a hbefore hafter
    have hexits := (SpoolRun.step_change hsound.knows a).exits hbefore hafter
    exact ⟨hexits.1, hexits.2.1⟩
  case stopped =>
    intro hnone later t hreturned
    refine hsound.run_delivers ⟨?_, fun hgone => ?_⟩ later
      ((hsound.run later).exited_of_returned hreturned)
    · rw [hlines]
      exact List.prefix_rfl
    · obtain ⟨t', ht'⟩ := hsound.asked.1 (hsound.left hgone)
      exact absurd ht' (hnone t')
  case drains => exact hsound.drains
  case again =>
    intro t t' stage hreturned hstop
    have hstep := SpoolCaller.next_step (((SpoolRun.begin program).run schedule).room)
      (((SpoolRun.begin program).run schedule).callers t')
    have hjoined := hsound.returned t hreturned
    have hasked := hsound.left (hsound.exited_of_returned hreturned)
    exact ⟨hstep.stop_again hstop hasked, (hstep.joined hjoined).trans hjoined.symm⟩
  case gone => exact hsound.run_exited
  case heard =>
    intro hasleep
    rcases hsound.heard hasleep with hidle | hheard
    · exact .inl (Prod.ext_iff.1 hidle)
    · exact .inr hheard

/-- A line, a stop and one line more. -/
def stoppedBetween : Unit → List SpoolCall
  | () => [.print "a" [], .stop, .error "b" []]

/-- The stop takes the flag down while the first line is being written, and returns with that line
written. The next line stays in the queue. -/
theorem spooler_delivers_in_order_stoppedBetween :
    let early := List.replicate 5 (some ()) ++ List.replicate 4 none ++ List.replicate 3 (some ())
    let late := List.replicate 2 (some ()) ++ List.replicate 5 none ++ List.replicate 6 (some ())
    let s := (SpoolRun.begin stoppedBetween).run early
    s.Delivers stoppedBetween ((SpoolRun.begin stoppedBetween).history early) ∧
      s.writer = .writing ⟨false, "a"⟩ ∧ s.room.spooler.running = false ∧
      (s.run late).Delivers stoppedBetween
        ((SpoolRun.begin stoppedBetween).history (early ++ late)) ∧
      (s.run late).room.spooler = ⟨[⟨true, "b"⟩], false, .exited, [⟨false, "a"⟩]⟩ ∧
      ((s.run late).callers ()).returned = stoppedBetween () := by
  intro early late s
  have hlater : s.run late = (SpoolRun.begin stoppedBetween).run (early ++ late) :=
    List.foldl_append.symm
  refine ⟨spooler_delivers_in_order _ _, by decide +kernel, by decide +kernel, ?_,
    by decide +kernel, by decide +kernel⟩
  rw [hlater]
  exact spooler_delivers_in_order _ _

end LockedContainers
