import Mathlib.Data.List.Nodup
import LockedContainers.Proofs.History.Recorded

/-!
# The moments of a run and the clock

The same calls, watched instead of recorded, leave a log of the moments in
which one of them begins, completes or fails. The clock of a recorder is the
number of moments of that log in which it ticks, so what is between two moments
is between their times.
-/
namespace LockedContainers

variable {S ε α β : Type}

inductive Moment
  | began (invocation : Invocation)
  /-- The call that began in moment `start` completes. -/
  | completed (start : Nat) (invocation : Invocation) (result : Int)
  | failed (invocation : Invocation)
deriving DecidableEq, Repr

/-- The clock ticks when a call begins and when it completes. -/
def Moment.ticks : Moment → Bool
  | began _ => true
  | completed _ _ _ => true
  | failed _ => false

/-- A completed call between two moments. -/
structure Span where
  invocation : Invocation
  result : Int
  began : Nat
  ended : Nat
deriving DecidableEq, Repr

/-- What the calls have done to the subject, moment by moment. -/
structure Watched (S : Type) where
  subject : S
  moments : List Moment := []

/-! ## Watched calls -/

namespace Watched

def onSubject (act : EStateM ε S α) : EStateM ε (Watched S) α :=
  onPart subject (fun v s => { v with subject := s }) act

/-- Watches `body` as one call. -/
def observed (i : Invocation) (body : EStateM ε (Watched S) Int) : EStateM ε (Watched S) Int :=
  fun v =>
    match body { v with moments := v.moments ++ [.began i] } with
    | .ok result v' => .ok result
      { v' with moments := v'.moments ++ [.completed v.moments.length i result] }
    | .error e v' => .error e { v' with moments := v'.moments ++ [.failed i] }

end Watched

namespace CallTree

variable (operation : Invocation → EStateM ε S Int)

mutual

/-- Makes the same calls as `run`. -/
def watch : CallTree ε → EStateM ε (Watched S) Unit
  | call i nested fault caught => fun v =>
    let body := do
      watchAll nested
      match fault with
      | some e => throw e
      | none => Watched.onSubject (operation i)
    match Watched.observed i body v with
    | .ok _ v => .ok () v
    | .error e v => if caught then .ok () v else .error e v

def watchAll : List (CallTree ε) → EStateM ε (Watched S) Unit
  | [] => pure ()
  | t :: rest => do
    watch t
    watchAll rest

end

end CallTree

/-! ## Spans of a log -/

/-- The call that completes in a moment. -/
def Moment.span? (ended : Nat) : Moment → Option Span
  | completed start i r => some ⟨i, r, start, ended⟩
  | _ => none

/-- The completed calls, in order of completion. -/
def spans (moments : List Moment) : List Span :=
  moments.zipIdx.filterMap fun m => m.1.span? m.2

/-- The ticks before a moment. -/
def timeOf (moments : List Moment) (moment : Nat) : Nat := (moments.take moment).countP Moment.ticks

/-- The event of a completed call, with the times of its moments. -/
def Span.stamped (moments : List Moment) (c : Span) : Event :=
  { c.invocation with
    result := c.result
    invoked := timeOf moments c.began
    returned := timeOf moments c.ended }

section Logs
variable {moments moments' : List Moment} {m : Moment} {c : Span} {p q : Nat}

theorem spans_append (moments : List Moment) (m : Moment) :
    spans (moments ++ [m]) = spans moments ++ (m.span? moments.length).toList := by
  rw [spans, List.zipIdx_append, List.filterMap_append, spans]
  cases h : m.span? moments.length <;> simp [h]

theorem spans_append_quiet (quiet : m.span? moments.length = none) :
    spans (moments ++ [m]) = spans moments := by
  rw [spans_append, quiet, Option.toList_none, List.append_nil]

/-- What is appended does not change the time of a moment. -/
theorem timeOf_stable (h : moments <+: moments') (hp : p ≤ moments.length) :
    timeOf moments' p = timeOf moments p := by
  obtain ⟨rest, rfl⟩ := h
  rw [timeOf, List.take_append_of_le_length hp, timeOf]

theorem timeOf_length (moments : List Moment) :
    timeOf moments moments.length = moments.countP Moment.ticks := by
  rw [timeOf, List.take_length]

/-- After a moment in which the clock ticks it is later. -/
theorem timeOf_lt (h : moments[p]? = some m) (ticks : m.ticks) (hpq : p < q) :
    timeOf moments p < timeOf moments q := by
  obtain ⟨hp, hm⟩ := List.getElem?_eq_some_iff.1 h
  have hnext : timeOf moments (p + 1) = timeOf moments p + 1 := by
    rw [timeOf, List.take_add_one, h, List.countP_append, timeOf]
    simp [ticks]
  have hmono : timeOf moments (p + 1) ≤ timeOf moments q :=
    (List.take_prefix_take_left (Nat.succ_le_of_lt hpq)).sublist.countP_le
  omega

/-- Different ticks are at different times. -/
theorem timeOf_inj {m' : Moment} (hp : moments[p]? = some m) (hm : m.ticks)
    (hq : moments[q]? = some m') (hm' : m'.ticks) (h : timeOf moments p = timeOf moments q) :
    p = q := by
  rcases Nat.lt_trichotomy p q with hlt | heq | hlt
  · exact absurd h (Nat.ne_of_lt (timeOf_lt hp hm hlt))
  · exact heq
  · exact absurd h.symm (Nat.ne_of_lt (timeOf_lt hq hm' hlt))

/-- Calls begin before they complete, in different moments, and what is logged of them is true. -/
structure Sound (moments : List Moment) : Prop where
  began : ∀ c ∈ spans moments, moments[c.began]? = some (.began c.invocation)
  ended : ∀ c ∈ spans moments, moments[c.ended]? = some (.completed c.began c.invocation c.result)
  forward : ∀ c ∈ spans moments, c.began < c.ended
  distinct : ((spans moments).map Span.began).Nodup
  ascending : (spans moments).Pairwise fun c d => c.ended < d.ended
  /-- Of two calls the first to complete was over before the other began, or was made within it. -/
  nested : (spans moments).Pairwise fun c d => c.ended < d.began ∨ d.began < c.began

namespace Sound

theorem nil : Sound [] where
  began := nofun
  ended := nofun
  forward := nofun
  distinct := .nil
  ascending := .nil
  nested := .nil

variable (h : Sound moments)
include h

theorem began_lt (hc : c ∈ spans moments) : c.began < moments.length :=
  (List.getElem?_eq_some_iff.1 (h.began c hc)).1

theorem ended_lt (hc : c ∈ spans moments) : c.ended < moments.length :=
  (List.getElem?_eq_some_iff.1 (h.ended c hc)).1

/-- A moment in which no call completes. -/
theorem append_quiet (quiet : m.span? moments.length = none) : Sound (moments ++ [m]) := by
  have hspans := spans_append_quiet quiet
  constructor
  · intro c hc
    rw [hspans] at hc
    rw [List.getElem?_append_left (h.began_lt hc)]
    exact h.began c hc
  · intro c hc
    rw [hspans] at hc
    rw [List.getElem?_append_left (h.ended_lt hc)]
    exact h.ended c hc
  · rw [hspans]
    exact h.forward
  · rw [hspans]
    exact h.distinct
  · rw [hspans]
    exact h.ascending
  · rw [hspans]
    exact h.nested

/-- A moment in which a call completes whose beginning is within no other. -/
theorem append_completed {start : Nat} {i : Invocation} {r : Int}
    (began : moments[start]? = some (.began i))
    (fresh : ∀ c ∈ spans moments, c.ended < start ∨ start < c.began) :
    Sound (moments ++ [.completed start i r]) := by
  have hspans : spans (moments ++ [.completed start i r]) =
      spans moments ++ [⟨i, r, start, moments.length⟩] := spans_append moments _
  have hstart := (List.getElem?_eq_some_iff.1 began).1
  constructor
  · intro c hc
    rw [hspans] at hc
    rcases List.mem_append.1 hc with hold | hnew
    · rw [List.getElem?_append_left (h.began_lt hold)]
      exact h.began c hold
    · rw [List.mem_singleton.1 hnew, List.getElem?_append_left hstart]
      exact began
  · intro c hc
    rw [hspans] at hc
    rcases List.mem_append.1 hc with hold | hnew
    · rw [List.getElem?_append_left (h.ended_lt hold)]
      exact h.ended c hold
    · rw [List.mem_singleton.1 hnew]
      simp
  · intro c hc
    rw [hspans] at hc
    rcases List.mem_append.1 hc with hold | hnew
    · exact h.forward c hold
    · rw [List.mem_singleton.1 hnew]
      exact hstart
  · rw [hspans, List.map_append, List.nodup_append]
    refine ⟨h.distinct, List.nodup_singleton _, ?_⟩
    rintro a ha b hb rfl
    obtain ⟨c, hc, hsame⟩ := List.mem_map.1 ha
    obtain rfl : a = start := List.mem_singleton.1 hb
    have hforward := h.forward c hc
    have hfresh := fresh c hc
    omega
  · rw [hspans]
    refine List.pairwise_append.2 ⟨h.ascending, List.pairwise_singleton _ _, ?_⟩
    intro c hc d hd
    rw [List.mem_singleton.1 hd]
    exact h.ended_lt hc
  · rw [hspans]
    refine List.pairwise_append.2 ⟨h.nested, List.pairwise_singleton _ _, ?_⟩
    intro c hc d hd
    rw [List.mem_singleton.1 hd]
    exact fresh c hc

/-- What is appended does not change the event of a call. -/
theorem stamped_stable (honward : moments <+: moments') (hc : c ∈ spans moments) :
    c.stamped moments' = c.stamped moments := by
  rw [Span.stamped, Span.stamped, timeOf_stable honward (Nat.le_of_lt (h.began_lt hc)),
    timeOf_stable honward (Nat.le_of_lt (h.ended_lt hc))]

theorem map_stamped_append (m : Moment) :
    (spans moments).map (Span.stamped (moments ++ [m])) =
      (spans moments).map (Span.stamped moments) :=
  List.map_congr_left fun _ hc => h.stamped_stable (List.prefix_append _ _) hc

theorem events_append_quiet (quiet : m.span? moments.length = none) :
    (spans (moments ++ [m])).map (Span.stamped (moments ++ [m])) =
      (spans moments).map (Span.stamped moments) := by
  rw [spans_append_quiet quiet, h.map_stamped_append]

end Sound

/-- The log goes on, and every call of it that was not completed before began later. -/
structure Extends (moments moments' : List Moment) : Prop where
  onward : moments <+: moments'
  later : ∀ c ∈ spans moments', c ∈ spans moments ∨ moments.length ≤ c.began

namespace Extends
variable {moments'' : List Moment}

theorem refl (moments : List Moment) : Extends moments moments :=
  ⟨List.prefix_refl _, fun _ => .inl⟩

theorem trans (h : Extends moments moments') (h' : Extends moments' moments'') :
    Extends moments moments'' where
  onward := h.onward.trans h'.onward
  later c hc := by
    rcases h'.later c hc with hmid | hlate
    · exact h.later c hmid
    · exact .inr (Nat.le_trans h.onward.length_le hlate)

theorem append_quiet (h : Extends moments moments') (quiet : m.span? moments'.length = none) :
    Extends moments (moments' ++ [m]) where
  onward := h.onward.trans (List.prefix_append _ _)
  later := by
    rw [spans_append_quiet quiet]
    exact h.later

/-- When a call begins, no call that will complete before it is being made. -/
theorem fresh {i : Invocation} (sound : Sound moments)
    (h : Extends (moments ++ [.began i]) moments') :
    ∀ c ∈ spans moments', c.ended < moments.length ∨ moments.length < c.began := by
  intro c hc
  rcases h.later c hc with hold | hlate
  · rw [spans_append_quiet rfl] at hold
    exact .inl (sound.ended_lt hold)
  · rw [List.length_append, List.length_singleton] at hlate
    exact .inr hlate

theorem append_completed {i : Invocation} {r : Int} (h : Extends (moments ++ [.began i]) moments') :
    Extends moments (moments' ++ [.completed moments.length i r]) where
  onward := (List.prefix_append _ _).trans (h.onward.trans (List.prefix_append _ _))
  later c hc := by
    rw [spans_append] at hc
    rcases List.mem_append.1 hc with hold | hnew
    · exact ((Extends.refl moments).append_quiet rfl |>.trans h).later c hold
    · rw [List.mem_singleton.1 hnew]
      exact .inr (Nat.le_refl _)

end Extends
end Logs

/-! ## Recorded and watched runs -/

/-- The recorder has the events of the log, and its clock has ticked as often. -/
structure Mirrors (w : Recording (Journal ε S)) (v : Watched S) : Prop where
  subject : w.subject.subject = v.subject
  clock : w.recorder.clock = v.moments.countP Moment.ticks
  events : w.recorder.events = (spans v.moments).map (Span.stamped v.moments)
  sound : Sound v.moments

namespace Mirrors
variable {w : Recording (Journal ε S)} {v : Watched S} {i : Invocation}

theorem begin (h : Mirrors w v) (i : Invocation) :
    Mirrors { w with recorder.clock := w.recorder.clock + 1 }
      { v with moments := v.moments ++ [.began i] } where
  subject := h.subject
  clock := by simp [h.clock, Moment.ticks]
  events := h.events.trans (h.sound.events_append_quiet rfl).symm
  sound := h.sound.append_quiet rfl

theorem fail (h : Mirrors w v) (i : Invocation) :
    Mirrors w { v with moments := v.moments ++ [.failed i] } where
  subject := h.subject
  clock := by simp [h.clock, Moment.ticks]
  events := h.events.trans (h.sound.events_append_quiet rfl).symm
  sound := h.sound.append_quiet rfl

theorem complete (h : Mirrors w v) {start : Nat} (began : v.moments[start]? = some (.began i))
    (fresh : ∀ c ∈ spans v.moments, c.ended < start ∨ start < c.began) (result : Int) :
    Mirrors
      { w with
        recorder.clock := w.recorder.clock + 1
        recorder.events := w.recorder.events ++
          [{ i with result, invoked := timeOf v.moments start, returned := w.recorder.clock }] }
      { v with moments := v.moments ++ [.completed start i result] } where
  subject := h.subject
  clock := by simp [h.clock, Moment.ticks]
  events := by
    have hstart := (List.getElem?_eq_some_iff.1 began).1
    have hbefore : timeOf (v.moments ++ [.completed start i result]) start = timeOf v.moments start :=
      timeOf_stable (List.prefix_append _ _) (Nat.le_of_lt hstart)
    have hnow : timeOf (v.moments ++ [.completed start i result]) v.moments.length =
        w.recorder.clock := by
      rw [timeOf_stable (List.prefix_append _ _) (Nat.le_refl _), timeOf_length, h.clock]
    rw [spans_append, List.map_append, h.sound.map_stamped_append, h.events, Moment.span?,
      Option.toList_some, List.map_singleton, Span.stamped, hbefore, hnow]
  sound := h.sound.append_completed began fresh

theorem conclude (h : Mirrors w v) (outcomes : List (Except ε Int)) :
    Mirrors { w with subject.outcomes := outcomes } v :=
  ⟨h.subject, h.clock, h.events, h.sound⟩

end Mirrors

/-- Both runs end in the same way, and the log was extended. -/
inductive EndMirrored (moments : List Moment) :
    EStateM.Result ε (Recording (Journal ε S)) α → EStateM.Result ε (Watched S) α → Prop
  | ok {a : α} {w : Recording (Journal ε S)} {v : Watched S} (mirrors : Mirrors w v)
    (onward : Extends moments v.moments) : EndMirrored moments (.ok a w) (.ok a v)
  | error {e : ε} {w : Recording (Journal ε S)} {v : Watched S} (mirrors : Mirrors w v)
    (onward : Extends moments v.moments) : EndMirrored moments (.error e w) (.error e v)

namespace EndMirrored
variable {moments moments' : List Moment} {recorded : EStateM.Result ε (Recording (Journal ε S)) α}
  {watched : EStateM.Result ε (Watched S) α}

theorem mirrors (h : EndMirrored moments recorded watched) :
    Mirrors (finalState recorded) (finalState watched) := by
  cases h with
  | ok hmirrors _ => exact hmirrors
  | error hmirrors _ => exact hmirrors

theorem after (h : EndMirrored moments' recorded watched) (onward : Extends moments moments') :
    EndMirrored moments recorded watched := by
  cases h with
  | ok hmirrors hrest => exact .ok hmirrors (onward.trans hrest)
  | error hmirrors hrest => exact .error hmirrors (onward.trans hrest)

end EndMirrored

/-- What is recorded of the one is the log of the other. -/
def Shadows (act : EStateM ε (Recording (Journal ε S)) α) (act' : EStateM ε (Watched S) α) : Prop :=
  ∀ w v, Mirrors w v → EndMirrored v.moments (act w) (act' v)

namespace Shadows

theorem pure (a : α) :
    Shadows (Pure.pure a : EStateM ε (Recording (Journal ε S)) α) (Pure.pure a) :=
  fun _ _ h => .ok h (.refl _)

theorem throw (e : ε) : Shadows (MonadExcept.throw e : EStateM ε (Recording (Journal ε S)) α)
    (MonadExcept.throw e) :=
  fun _ _ h => .error h (.refl _)

theorem bind {act : EStateM ε (Recording (Journal ε S)) α} {act' : EStateM ε (Watched S) α}
    {next : α → EStateM ε (Recording (Journal ε S)) β} {next' : α → EStateM ε (Watched S) β}
    (h : Shadows act act') (hnext : ∀ a, Shadows (next a) (next' a)) :
    Shadows (act >>= next) (act' >>= next') := by
  intro w v hmirrors
  have hact := h w v hmirrors
  simp only [Bind.bind, EStateM.bind]
  generalize act w = recorded at hact ⊢
  generalize act' v = watched at hact ⊢
  cases hact with
  | @ok a w' v' hmid honward => exact (hnext a w' v' hmid).after honward
  | error hmid honward => exact .error hmid honward

/-- The operation is out of sight of recorder and log. -/
theorem perform (act : EStateM ε S Int) :
    Shadows (Journal.perform act) (Watched.onSubject act) := by
  intro w v h
  simp only [Journal.perform, Recording.onSubject, Watched.onSubject, onPart, h.subject]
  cases act v.subject with
  | ok a s => exact .ok ⟨rfl, h.clock, h.events, h.sound⟩ (.refl _)
  | error e s => exact .error ⟨rfl, h.clock, h.events, h.sound⟩ (.refl _)

/-- The clock before a call is the time of the moment in which it begins. -/
theorem timed (i : Invocation) {body : EStateM ε (Recording (Journal ε S)) Int}
    {body' : EStateM ε (Watched S) Int} (h : Shadows body body') :
    Shadows (Recording.timed i body) (Watched.observed i body') := by
  intro w v hmirrors
  have hbody := h _ _ (hmirrors.begin i)
  rw [Recording.timed_eq, Watched.observed]
  generalize body { w with recorder.clock := w.recorder.clock + 1 } = recorded at hbody ⊢
  generalize body' { v with moments := v.moments ++ [.began i] } = watched at hbody ⊢
  cases hbody with
  | @ok a w' v' hmid hextends =>
    have honward : v.moments <+: v'.moments := (List.prefix_append _ _).trans hextends.onward
    have hbegan : v'.moments[v.moments.length]? = some (.began i) := by
      obtain ⟨rest, hrest⟩ := hextends.onward
      rw [← hrest]
      simp
    have htime : w.recorder.clock = timeOf v'.moments v.moments.length := by
      rw [timeOf_stable honward (Nat.le_refl _), timeOf_length, hmirrors.clock]
    refine .ok ?_ hextends.append_completed
    rw [htime]
    exact hmid.complete hbegan (hextends.fresh hmirrors.sound) a
  | error hmid hextends =>
    have hbegan := (Extends.refl v.moments).append_quiet (m := .began i) rfl
    exact .error (hmid.fail i) ((hbegan.trans hextends).append_quiet rfl)

end Shadows

namespace CallTree
variable (operation : Invocation → EStateM ε S Int)

mutual

theorem shadows_run : (t : CallTree ε) → Shadows (run operation t) (watch operation t)
  | .call i nested fault caught => by
    have hlast : Shadows
        (match fault with
          | some e => throw e
          | none => Journal.perform (operation i) : EStateM ε (Recording (Journal ε S)) Int)
        (match fault with
          | some e => throw e
          | none => Watched.onSubject (operation i)) := by
      cases fault with
      | some e => exact .throw e
      | none => exact .perform (operation i)
    have hcall := Shadows.timed i ((shadows_runAll nested).bind fun _ => hlast)
    intro w v h
    have hend := hcall w v h
    simp only [run, watch]
    generalize Recording.timed i _ w = recorded at hend ⊢
    generalize Watched.observed i _ v = watched at hend ⊢
    cases hend with
    | ok hmid honward => exact .ok (hmid.conclude _) honward
    | error hmid honward =>
      cases caught with
      | true => exact .ok (hmid.conclude _) honward
      | false => exact .error (hmid.conclude _) honward

theorem shadows_runAll : (ts : List (CallTree ε)) →
    Shadows (runAll operation ts) (watchAll operation ts)
  | [] => .pure ()
  | t :: rest => by
    rw [runAll, watchAll]
    exact (shadows_run t).bind fun _ => shadows_runAll rest

end

end CallTree

/-- The completed calls of the log have one event each, in order of completion, and there is no
other event; and the times of the events are in the order of the moments. -/
structure FaithfullyTimed (moments : List Moment) (events : List Event) : Prop where
  sound : Sound moments
  noted : events = (spans moments).map (Span.stamped moments)
  distinct : (events.map Event.invoked ++ events.map Event.returned).Nodup
  forward : ∀ e ∈ events, e.invoked < e.returned
  ascending : events.Pairwise fun a b => a.returned < b.returned
  /-- One call was made and over within the other. -/
  inside : ∀ c ∈ spans moments, ∀ d ∈ spans moments, c.began < d.began → d.ended < c.ended →
    (c.stamped moments).invoked < (d.stamped moments).invoked ∧
      (d.stamped moments).returned < (c.stamped moments).returned
  /-- One call was over when the other began. -/
  apart : ∀ c ∈ spans moments, ∀ d ∈ spans moments, c.ended < d.began →
    (c.stamped moments).before (d.stamped moments)

namespace Sound
variable {moments : List Moment} {c d : Span} (h : Sound moments)
include h

theorem timeOf_began_lt {q : Nat} (hc : c ∈ spans moments) (hlt : c.began < q) :
    timeOf moments c.began < timeOf moments q := timeOf_lt (h.began c hc) rfl hlt

theorem timeOf_ended_lt {q : Nat} (hc : c ∈ spans moments) (hlt : c.ended < q) :
    timeOf moments c.ended < timeOf moments q := timeOf_lt (h.ended c hc) rfl hlt

theorem ascending_stamped : ((spans moments).map (Span.stamped moments)).Pairwise
    fun a b => a.returned < b.returned := by
  rw [List.pairwise_map]
  exact h.ascending.imp_of_mem fun hc _ hlt => h.timeOf_ended_lt hc hlt

/-- No two calls begin at one time, no two complete at one time, and none completes when another
begins. -/
theorem distinct_stamped :
    (((spans moments).map (Span.stamped moments)).map Event.invoked ++
      ((spans moments).map (Span.stamped moments)).map Event.returned).Nodup := by
  have hinvoked : ((spans moments).map (Span.stamped moments)).map Event.invoked =
      ((spans moments).map Span.began).map (timeOf moments) := by
    rw [List.map_map, List.map_map]
    rfl
  rw [List.nodup_append]
  refine ⟨?_, ?_, ?_⟩
  · rw [hinvoked]
    apply List.Nodup.map_on _ h.distinct
    intro x hx y hy hxy
    obtain ⟨c, hc, rfl⟩ := List.mem_map.1 hx
    obtain ⟨d, hd, rfl⟩ := List.mem_map.1 hy
    exact timeOf_inj (h.began c hc) rfl (h.began d hd) rfl hxy
  · rw [List.Nodup, List.pairwise_map]
    exact h.ascending_stamped.imp Nat.ne_of_lt
  · rw [hinvoked]
    intro x hx y hy hxy
    obtain ⟨_, hbegan, rfl⟩ := List.mem_map.1 hx
    obtain ⟨c, hc, rfl⟩ := List.mem_map.1 hbegan
    obtain ⟨_, hreturned, rfl⟩ := List.mem_map.1 hy
    obtain ⟨d, hd, rfl⟩ := List.mem_map.1 hreturned
    -- The clock ticks in both moments, but a call begins in one and completes in the other.
    have hsame := timeOf_inj (h.began c hc) rfl (h.ended d hd) rfl hxy
    have hmoment := h.began c hc
    rw [hsame, h.ended d hd] at hmoment
    cases hmoment

theorem faithfullyTimed :
    FaithfullyTimed moments ((spans moments).map (Span.stamped moments)) where
  sound := h
  noted := rfl
  distinct := h.distinct_stamped
  forward := by
    rintro _ he
    obtain ⟨c, hc, rfl⟩ := List.mem_map.1 he
    exact h.timeOf_began_lt hc (h.forward c hc)
  ascending := h.ascending_stamped
  inside _ hc _ hd hbegan hended := ⟨h.timeOf_began_lt hc hbegan, h.timeOf_ended_lt hd hended⟩
  apart _ hc _ _ hlt := h.timeOf_ended_lt hc hlt

end Sound

/-- Whatever calls are made of the subject, nested to any depth and failing anywhere, the recorded
events are those of the log of the same calls, with times in the order of its moments. -/
theorem recorded_times_faithful (operation : Invocation → EStateM ε S Int)
    (trees : List (CallTree ε)) (s : S) :
    let watched := CallTree.watchAll operation trees ⟨s, []⟩
    EndMirrored [] (CallTree.runAll operation trees ⟨{}, ⟨s, []⟩⟩) watched ∧
      FaithfullyTimed (finalState watched).moments (CallTree.history operation trees s) := by
  intro watched
  have hstart : Mirrors (⟨{}, ⟨s, []⟩⟩ : Recording (Journal ε S)) ⟨s, []⟩ := ⟨rfl, rfl, rfl, .nil⟩
  have hend : EndMirrored [] (CallTree.runAll operation trees ⟨{}, ⟨s, []⟩⟩) watched :=
    CallTree.shadows_runAll operation trees _ _ hstart
  have hmirrors := hend.mirrors
  refine ⟨hend, ?_⟩
  rw [CallTree.history, hmirrors.events]
  exact hmirrors.sound.faithfullyTimed

/-- The first look-up is made within the put and the second one after it; a call that fails between
them is logged, but has no time of its failure. -/
example : (finalState (CallTree.watchAll (fun _ => (pure 7 : EStateM Unit Unit Int))
    CallTree.nestedPut ⟨(), []⟩)).moments =
      [.began ⟨0, 3, 254⟩, .began ⟨1, 3, 0⟩, .completed 1 ⟨1, 3, 0⟩ 7, .began ⟨2, 3, 0⟩,
        .failed ⟨2, 3, 0⟩, .completed 0 ⟨0, 3, 254⟩ 7, .began ⟨1, 3, 0⟩,
        .completed 6 ⟨1, 3, 0⟩ 7] := by
  decide

end LockedContainers
