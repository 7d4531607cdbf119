import Mathlib.Logic.Function.Basic
import LockedContainers.Proofs.Sequential

/-!
# Threads that interleave their critical sections

An operation goes from one critical section to the next until one of them
answers or fails. A schedule says whose section comes next. The log has the
operations in the order of their last sections.
-/
namespace LockedContainers

/-- Operations made of critical sections; a task stands before its next one. -/
structure Sections (C ε σ α β τ : Type) where
  start : α → τ
  request : τ → α
  /-- Answers the request or leaves a task. -/
  next : τ → Guarded C ε σ (β ⊕ τ)

/-- At most so many sections of one task, with nothing between them. -/
def Sections.alone {C ε σ α β τ : Type} (ops : Sections C ε σ α β τ) :
    Nat → τ → Guarded C ε σ (β ⊕ τ)
  | 0, task => return .inr task
  | n + 1, task => do
    match ← ops.next task with
    | .inl a => return .inl a
    | .inr task => alone ops n task

/-- A thread's task, when it is inside an operation, and the requests after that. -/
structure Client (α τ : Type) where
  task : Option τ := none
  pending : List α

namespace Client

variable {α τ : Type}

/-- The task of the next section, and the requests after that. -/
def upcoming (start : α → τ) : Client α τ → Option (τ × List α)
  | ⟨some task, pending⟩ => some (task, pending)
  | ⟨none, r :: rest⟩ => some (start r, rest)
  | ⟨none, []⟩ => none

/-- The requests that are not answered yet. -/
def unanswered (request : τ → α) (client : Client α τ) : List α :=
  client.task.toList.map request ++ client.pending

/-- A client inside an operation. -/
theorem eq_of_task {client : Client α τ} {task : τ} (h : task ∈ client.task) :
    ∃ pending, client = ⟨some task, pending⟩ :=
  ⟨client.pending, by rw [← Option.mem_def.1 h]⟩

end Client

/-- A container, its clients, and what they were answered so far. -/
structure Interleaving (Thread C ε σ α β τ : Type) where
  shared : Shared C σ
  clients : Thread → Client α τ
  log : List (Thread × α × Except ε β) := []

namespace Interleaving

variable {Thread C ε σ α β τ : Type}

/-- No thread has begun. -/
def begin (shared : Shared C σ) (program : Thread → List α) :
    Interleaving Thread C ε σ α β τ where
  shared
  clients t := { pending := program t }

variable [DecidableEq Thread]

/-- What a thread makes of the container and itself, and the operations that it completes. -/
def turn (s : Interleaving Thread C ε σ α β τ) (t : Thread) (shared : Shared C σ)
    (client : Client α τ) (done : List (α × Except ε β)) : Interleaving Thread C ε σ α β τ where
  shared
  clients := Function.update s.clients t client
  log := s.log ++ done.map (t, ·)

/-- The next section of a thread; nothing happens when it has no request left. -/
def step (ops : Sections C ε σ α β τ) (s : Interleaving Thread C ε σ α β τ) (t : Thread) :
    Interleaving Thread C ε σ α β τ :=
  match (s.clients t).upcoming ops.start with
  | none => s
  | some (task, pending) =>
    match ops.next task s.shared with
    | .ok (.inl a) shared => s.turn t shared { pending } [(ops.request task, .ok a)]
    | .ok (.inr task) shared => s.turn t shared { task := some task, pending } []
    | .error e shared => s.turn t shared { pending } [(ops.request task, .error e)]

def run (ops : Sections C ε σ α β τ) (s : Interleaving Thread C ε σ α β τ)
    (schedule : List Thread) : Interleaving Thread C ε σ α β τ :=
  schedule.foldl (step ops) s

/-- A step is nothing, or what some outcome of the thread's next section makes of it. -/
theorem step_cases {ops : Sections C ε σ α β τ} {s : Interleaving Thread C ε σ α β τ} {t : Thread}
    {post : τ → C → Option τ → Prop}
    (h : ∀ task pending, (s.clients t).upcoming ops.start = some (task, pending) →
      Ends s.shared.container (ops.next task) (fun out c => post task c out.getRight?)
        fun _ c => post task c none) :
    step ops s t = s ∨ ∃ task pending shared out done,
      (s.clients t).upcoming ops.start = some (task, pending) ∧
        post task shared.container out ∧
        step ops s t = s.turn t shared { task := out, pending } done := by
  cases hup : (s.clients t).upcoming ops.start with
  | none =>
    left
    simp only [step, hup]
  | some up =>
    obtain ⟨task, pending⟩ := up
    have hends := h task pending hup
    right
    simp only [step, hup]
    cases hrun : ops.next task s.shared with
    | ok out shared =>
      cases out with
      | inl a => exact ⟨task, pending, shared, none, _, rfl, hends.of_ok hrun, rfl⟩
      | inr task' => exact ⟨task, pending, shared, some task', _, rfl, hends.of_ok hrun, rfl⟩
    | error e shared =>
      exact ⟨task, pending, shared, none, _, rfl, hends.of_error hrun, rfl⟩

/-- The part of a log that is about one thread. -/
def logOf (log : List (Thread × α)) (t : Thread) : List α :=
  (log.filter fun e => e.1 = t).map Prod.snd

@[simp] theorem logOf_append (log log' : List (Thread × α)) (t : Thread) :
    logOf (log ++ log') t = logOf log t ++ logOf log' t := by
  simp [logOf]

theorem mem_logOf {log : List (Thread × α)} {t : Thread} {a : α} :
    a ∈ logOf log t ↔ (t, a) ∈ log := by
  simp [logOf]

theorem logOf_self (t : Thread) (done : List α) : logOf (done.map (t, ·)) t = done := by
  simp [logOf, List.filter_map, Function.comp_def]

theorem logOf_other {t t' : Thread} (h : t' ≠ t) (done : List α) :
    logOf (done.map (t, ·)) t' = [] := by
  simp [logOf, List.filter_map, Function.comp_def, Ne.symm h]

end Interleaving

/-- Every section but the last of an operation leaves the state of the object, and the last one
answers by it. A fit task is one that its operation may leave. -/
structure Sections.Refines {C D ε σ α β τ : Type} (ops : Sections C ε σ α β τ)
    (obj : SequentialObject D α β) (excused : ε → Prop) (R : C → D → Prop) (Fit : τ → Prop) :
    Prop where
  start : ∀ r, Fit (ops.start r) ∧ ops.request (ops.start r) = r
  next : ∀ c d task, R c d → Fit task → Ends c (ops.next task)
    (fun out c' => match out with
      | .inl a => obj.accepts d (ops.request task) a ∧ R c' (obj.effect d (ops.request task))
      | .inr task' => ops.request task' = ops.request task ∧ Fit task' ∧ R c' d)
    (fun e c' => excused e ∧ R c' d)

/-- The next task of a client is for its first request that is not answered yet. -/
theorem Sections.Refines.fit_upcoming {C D ε σ α β τ : Type} {ops : Sections C ε σ α β τ}
    {obj : SequentialObject D α β} {excused : ε → Prop} {R : C → D → Prop} {Fit : τ → Prop}
    (refines : ops.Refines obj excused R Fit) {client : Client α τ}
    (fit : ∀ task ∈ client.task, Fit task) {task : τ} {pending : List α}
    (h : client.upcoming ops.start = some (task, pending)) :
    Fit task ∧ client.unanswered ops.request = ops.request task :: pending := by
  obtain ⟨current, requests⟩ := client
  cases current with
  | some task' =>
    cases h
    exact ⟨fit task rfl, rfl⟩
  | none =>
    cases requests with
    | nil => cases h
    | cons r rest =>
      cases h
      exact ⟨(refines.start r).1, by rw [(refines.start r).2]; rfl⟩

namespace Interleaving

variable {Thread C D ε σ α β τ : Type}

/-- The log leads the object to a state to which the container is related, and every thread has its
program behind it or before it. -/
structure Explained [DecidableEq Thread] (ops : Sections C ε σ α β τ)
    (obj : SequentialObject D α β) (excused : ε → Prop) (R : C → D → Prop) (Fit : τ → Prop)
    (program : Thread → List α) (d₀ : D) (s : Interleaving Thread C ε σ α β τ) (d : D) :
    Prop where
  explains : obj.Explains excused d₀ (s.log.map Prod.snd) d
  related : R s.shared.container d
  fit : ∀ t, ∀ task ∈ (s.clients t).task, Fit task
  kept : ∀ t, (logOf s.log t).map Prod.fst ++ (s.clients t).unanswered ops.request = program t

variable [DecidableEq Thread] {ops : Sections C ε σ α β τ} {obj : SequentialObject D α β}
  {excused : ε → Prop} {R : C → D → Prop} {Fit : τ → Prop} {program : Thread → List α} {d₀ d : D}
  {s : Interleaving Thread C ε σ α β τ}

theorem Explained.begin (shared : Shared C σ) (related : R shared.container d) :
    (begin shared program).Explained ops obj excused R Fit program d d where
  explains := .nil
  related := related
  fit t task htask := by cases htask
  kept t := rfl

theorem Explained.turn (h : s.Explained ops obj excused R Fit program d₀ d) {t : Thread}
    {shared : Shared C σ} {client : Client α τ} {done : List (α × Except ε β)} {d' : D}
    (explains : obj.Explains excused d done d') (related : R shared.container d')
    (fit : ∀ task ∈ client.task, Fit task)
    (kept : (s.clients t).unanswered ops.request =
      done.map Prod.fst ++ client.unanswered ops.request) :
    (s.turn t shared client done).Explained ops obj excused R Fit program d₀ d' where
  explains := by
    have hdone : (done.map (t, ·)).map Prod.snd = done := by simp [Function.comp_def]
    rw [Interleaving.turn, List.map_append, hdone]
    exact h.explains.append explains
  related := related
  fit := (Function.forall_update_iff s.clients fun _ c => ∀ task ∈ c.task, Fit task).2
    ⟨fit, fun t' _ => h.fit t'⟩
  kept t' := by
    simp only [Interleaving.turn, logOf_append]
    by_cases ht : t' = t
    · subst ht
      rw [logOf_self, Function.update_self, List.map_append, List.append_assoc, ← kept]
      exact h.kept t'
    · rw [logOf_other ht, List.append_nil, Function.update_of_ne ht]
      exact h.kept t'

/-- Whoever takes the step, it is explained, and unless it completes an operation the object stays
as it is. -/
theorem Explained.step (refines : ops.Refines obj excused R Fit)
    (h : s.Explained ops obj excused R Fit program d₀ d) (t : Thread) :
    ∃ d', (step ops s t).Explained ops obj excused R Fit program d₀ d' ∧
      ((Interleaving.step ops s t).log = s.log → d' = d) := by
  cases hup : (s.clients t).upcoming ops.start with
  | none =>
    simp only [Interleaving.step, hup]
    exact ⟨d, h, fun _ => rfl⟩
  | some up =>
    obtain ⟨task, pending⟩ := up
    obtain ⟨fit, hr⟩ := refines.fit_upcoming (h.fit t) hup
    have hends := refines.next _ _ task h.related fit
    cases hrun : ops.next task s.shared with
    | ok out shared =>
      have hout := hends.of_ok hrun
      cases out with
      | inl a =>
        simp only [Interleaving.step, hup, hrun]
        refine ⟨_, h.turn (.answer hout.1 .nil) hout.2 (by simp) hr, fun hlog => ?_⟩
        simp [Interleaving.turn] at hlog
      | inr task' =>
        simp only [Interleaving.step, hup, hrun]
        refine ⟨d, h.turn .nil hout.2.2 (by simpa using hout.2.1) ?_, fun _ => rfl⟩
        rw [hr, ← hout.1]
        rfl
    | error e shared =>
      obtain ⟨he, hR⟩ := hends.of_error hrun
      simp only [Interleaving.step, hup, hrun]
      exact ⟨d, h.turn (.failure he .nil) hR (by simp) hr, fun _ => rfl⟩

/-- Every schedule is explained. -/
theorem Explained.run (refines : ops.Refines obj excused R Fit)
    (h : s.Explained ops obj excused R Fit program d₀ d) (schedule : List Thread) :
    ∃ d', (run ops s schedule).Explained ops obj excused R Fit program d₀ d' := by
  induction schedule generalizing s d with
  | nil => exact ⟨d, h⟩
  | cons t rest ih =>
    obtain ⟨d', h', -⟩ := h.step refines t
    exact ih h'

end Interleaving
end LockedContainers
