import Mathlib.Logic.Basic
import LockedContainers.Proofs.Guarded
import LockedContainers.Threads.Race

/-!
# What holds after every schedule of a race

The requests that are left of a race are a bag, and a step takes one out of it
and carries it out. So what every request keeps, when the others may still be
to come in any order, holds whichever schedule is run.
-/
namespace LockedContainers

variable {α β S ε : Type}

/-- From state `s` the action comes to an answer and a state in `post`, or to an error and a state
in `failed`. -/
structure TurnsOut (s : S) (act : EStateM ε S α) (post : α → S → Prop) (failed : ε → S → Prop) :
    Prop where
  ok : ∀ a s', act s = .ok a s' → post a s'
  error : ∀ e s', act s = .error e s' → failed e s'

namespace TurnsOut

variable {s : S} {act : EStateM ε S α} {post : α → S → Prop} {failed : ε → S → Prop}

theorem pure {a : α} (h : post a s) :
    TurnsOut s (Pure.pure a : EStateM ε S α) post failed where
  ok _ _ hrun := by
    cases hrun
    exact h
  error _ _ hrun := by cases hrun

theorem bind_ok {f : α → EStateM ε S β} {post : β → S → Prop} {a : α} {s' : S}
    (hrun : act s = .ok a s') (h : TurnsOut s' (f a) post failed) :
    TurnsOut s (act >>= f) post failed where
  ok := by
    rw [bind_of_ok f hrun]
    exact h.ok
  error := by
    rw [bind_of_ok f hrun]
    exact h.error

theorem bind_error {f : α → EStateM ε S β} {post : β → S → Prop} {e : ε} {s' : S}
    (hrun : act s = .error e s') (h : failed e s') : TurnsOut s (act >>= f) post failed where
  ok := by
    rw [bind_of_error f hrun]
    exact nofun
  error := by
    rw [bind_of_error f hrun]
    rintro _ _ ⟨⟩
    exact h

theorem bind {f : α → EStateM ε S β} {mid : α → S → Prop} {post : β → S → Prop}
    (hact : TurnsOut s act mid failed) (hf : ∀ a s', mid a s' → TurnsOut s' (f a) post failed) :
    TurnsOut s (act >>= f) post failed := by
  cases hrun : act s with
  | ok a s' => exact .bind_ok hrun (hf a s' (hact.ok a s' hrun))
  | error e s' => exact .bind_error hrun (hact.error e s' hrun)

theorem map {f : α → β} {post : β → S → Prop}
    (h : TurnsOut s act (fun a s' => post (f a) s') failed) :
    TurnsOut s (f <$> act) post failed := by
  rw [map_eq_pure_bind]
  exact h.bind fun _ _ ha => .pure ha

theorem mono {post' : α → S → Prop} {failed' : ε → S → Prop} (h : TurnsOut s act post failed)
    (hp : ∀ a s', post a s' → post' a s') (hf : ∀ e s', failed e s' → failed' e s') :
    TurnsOut s act post' failed' where
  ok a s' hrun := hp a s' (h.ok a s' hrun)
  error e s' hrun := hf e s' (h.error e s' hrun)

/-- An operation on a container that is a part of the state. -/
theorem onPart {C σ : Type} {part : S → Shared C σ} {replace : S → Shared C σ → S}
    {act : Guarded C ε σ α} {answers : α → C → Prop} {errors : ε → C → Prop}
    (h : Ends (part s).container act answers errors)
    (hp : ∀ a t, answers a t.container → post a (replace s t))
    (hf : ∀ e t, errors e t.container → failed e (replace s t)) :
    TurnsOut s (LockedContainers.onPart part replace act) post failed := by
  cases hrun : act (part s) with
  | ok a t =>
    constructor
    · rw [onPart_ok part replace hrun]
      rintro _ _ ⟨⟩
      exact hp a t (h.of_ok hrun)
    · rw [onPart_ok part replace hrun]
      exact nofun
  | error e t =>
    constructor
    · rw [onPart_error part replace hrun]
      exact nofun
    · rw [onPart_error part replace hrun]
      rintro _ _ ⟨⟩
      exact hf e t (h.of_error hrun)

end TurnsOut

namespace Race

/-- The requests that are left, thread by thread. -/
def pending (race : Race α β) : List α := race.workers.flatMap Worker.pending

/-- Every thread has made all its requests. -/
def IsOver (race : Race α β) : Prop := ∀ worker ∈ race.workers, worker.pending = []

theorem isOver_iff {race : Race α β} : race.IsOver ↔ race.pending = [] :=
  List.flatMap_eq_nil_iff.symm

theorem pending_assemble (threads : List (List α)) :
    (assemble threads : Race α β).pending = threads.flatten := by
  rw [pending, assemble, List.flatMap_map]
  exact List.flatMap_id

theorem isOpen_assemble (threads : List (List α)) :
    (assemble threads : Race α β).latch.isOpen = true := by
  have harrived (latch : Latch) :
      (threads.foldl (fun latch _ => latch.arrive) latch).arrived =
        latch.arrived + threads.length := by
    induction threads generalizing latch with
    | nil => rfl
    | cons _ rest ih =>
      rw [List.foldl_cons, ih, List.length_cons]
      simp only [Latch.arrive]
      omega
  have hall := harrived {}
  rw [assemble, Latch.openAt, if_pos (by omega)]

/-- After the next request of a thread. -/
def advance (race : Race α β) (turn : Nat) (worker : Worker α β) (answer : β) : Race α β where
  latch := race.latch
  workers := race.workers.set turn ⟨worker.pending.tail, worker.answers ++ [answer]⟩

section Step
variable {operation : α → EStateM ε S β} {race : Race α β} {turn : Nat} {worker : Worker α β}
  {request : α} {rest : List α}

/-- One request has gone from those that are left, whatever it was answered. -/
theorem pending_advance (found : race.workers[turn]? = some worker)
    (next : worker.pending = request :: rest) :
    ∃ left, race.pending.Perm (request :: left) ∧
      ∀ answer, (race.advance turn worker answer).pending = left := by
  obtain ⟨hlt, hworker⟩ := List.getElem?_eq_some_iff.1 found
  have hsplit : race.workers =
      race.workers.take turn ++ worker :: race.workers.drop (turn + 1) := by
    rw [← hworker, List.getElem_cons_drop, List.take_append_drop]
  refine ⟨(race.workers.take turn).flatMap Worker.pending ++
    (rest ++ (race.workers.drop (turn + 1)).flatMap Worker.pending), ?_, fun answer => ?_⟩
  · rw [pending, hsplit, List.flatMap_append, List.flatMap_cons, next, ← hsplit]
    exact List.perm_middle
  · rw [pending, advance, List.set_eq_take_append_cons_drop, if_pos hlt, List.flatMap_append,
      List.flatMap_cons, next, List.tail_cons]

theorem step_of_pending (operation : α → EStateM ε S β) (opened : race.latch.isOpen = true)
    (found : race.workers[turn]? = some worker) (next : worker.pending = request :: rest) :
    step operation race turn = race.advance turn worker <$> operation request := by
  obtain ⟨pending, answers⟩ := worker
  obtain rfl : pending = request :: rest := next
  rw [map_eq_pure_bind]
  simp only [step, opened, found]
  rfl

/-- A step is nothing, or a thread's next request. -/
theorem step_cases (operation : α → EStateM ε S β) (race : Race α β) (turn : Nat) :
    step operation race turn = pure race ∨ ∃ worker request rest,
      race.workers[turn]? = some worker ∧ worker.pending = request :: rest ∧
        step operation race turn = race.advance turn worker <$> operation request := by
  by_cases hnext : race.latch.isOpen = true ∧ ∃ worker request rest,
      race.workers[turn]? = some worker ∧ worker.pending = request :: rest
  · obtain ⟨opened, worker, request, rest, found, next⟩ := hnext
    exact .inr ⟨worker, request, rest, found, next, step_of_pending operation opened found next⟩
  · left
    rw [step]
    split
    · rename_i opened found
      exact absurd ⟨opened, _, _, _, found, rfl⟩ hnext
    · rfl

end Step

section InTurn
variable (operation : α → EStateM ε S β) (latch : Latch) (opened : latch.isOpen = true)
include opened

/-- One thread goes on to its end. -/
theorem run_replicate (before after : List (Worker α β)) (requests : List α) (answers : List β) :
    run operation ⟨latch, before ++ ⟨requests, answers⟩ :: after⟩
        (List.replicate requests.length before.length) =
      (fun more => ⟨latch, before ++ ⟨[], answers ++ more⟩ :: after⟩) <$>
        requests.mapM operation := by
  induction requests generalizing answers with
  | nil => simp [run]
  | cons request rest ih =>
    have hstep : step operation ⟨latch, before ++ ⟨request :: rest, answers⟩ :: after⟩
        before.length =
          (fun answer => ⟨latch, before ++ ⟨rest, answers ++ [answer]⟩ :: after⟩) <$>
            operation request := by
      have found : (before ++ ⟨request :: rest, answers⟩ :: after)[before.length]? =
          some ⟨request :: rest, answers⟩ := by simp
      rw [step_of_pending operation opened found rfl]
      congr 1
      funext answer
      simp [advance]
    rw [List.length_cons, List.replicate_succ, run, List.foldlM_cons, hstep, bind_map_left,
      List.mapM_cons, map_bind]
    congr 1
    funext answer
    refine (ih _).trans ?_
    simp

/-- Each thread in its turn, when those before it have come to their ends. -/
theorem run_zipIdx (before : List (Worker α β)) (threads : List (List α)) :
    run operation ⟨latch, before ++ threads.map fun requests => { pending := requests }⟩
        ((threads.zipIdx before.length).flatMap fun (requests, turn) =>
          List.replicate requests.length turn) =
      (fun answers => ⟨latch, before ++ answers.map fun a => ⟨[], a⟩⟩) <$>
        threads.mapM fun requests => requests.mapM operation := by
  induction threads generalizing before with
  | nil => simp [run]
  | cons requests threads ih =>
    -- the first thread joins those before, with its answers
    rw [List.map_cons, List.zipIdx_cons, List.flatMap_cons, run, List.foldlM_append]
    refine (congrArg (· >>= _) (run_replicate operation latch opened ..)).trans ?_
    rw [bind_map_left, List.mapM_cons, map_bind]
    congr 1
    funext answers
    have hnext := ih (before ++ [⟨[], answers⟩])
    rw [List.append_assoc, List.length_append] at hnext
    refine hnext.trans ?_
    simp

end InTurn

/-- In turn the threads do as one thread would that has the requests of all. -/
theorem run_inTurn (operation : α → EStateM ε S β) (threads : List (List α)) :
    run operation (assemble threads) (inTurn threads) =
      (fun answers => ⟨(assemble threads : Race α β).latch, answers.map fun a => ⟨[], a⟩⟩) <$>
        threads.mapM fun requests => requests.mapM operation :=
  run_zipIdx operation _ (isOpen_assemble threads) [] threads

theorem isOver_inTurn {operation : α → EStateM ε S β} {threads : List (List α)} {s s' : S}
    {race : Race α β} (h : run operation (assemble threads) (inTurn threads) s = .ok race s') :
    race.IsOver := by
  rw [run_inTurn] at h
  obtain ⟨answers, -, rfl⟩ := ok_of_map h
  intro worker hworker
  obtain ⟨_, -, rfl⟩ := List.mem_map.1 hworker
  rfl

theorem discard_mapM {m : Type → Type} [Monad m] [LawfulMonad m] (f : α → m Unit) (l : List α) :
    (fun _ => ()) <$> l.mapM f = forM l f := by
  induction l with
  | nil => simp
  | cons a rest ih =>
    rw [List.mapM_cons, List.forM_cons, map_bind]
    refine bind_congr fun _ => ?_
    rw [← ih]
    simp

/-- Where there are no answers only the order of the requests is left. -/
theorem discard_run_inTurn (operation : α → EStateM ε S Unit) (threads : List (List α)) :
    (fun _ => ()) <$> run operation (assemble threads) (inTurn threads) =
      forM threads.flatten operation := by
  rw [run_inTurn, ← comp_map]
  induction threads with
  | nil => simp
  | cons requests threads ih =>
    rw [List.mapM_cons, List.flatten_cons, List.forM_append, ← ih, ← discard_mapM, map_bind,
      bind_map_left]
    refine bind_congr fun _ => ?_
    rw [map_bind, map_eq_pure_bind]
    simp

/-- What holds of the requests that are left and the state, whichever comes next. A request that
fails ends the race. -/
structure Upheld (operation : α → EStateM ε S β) (holds : List α → S → Prop)
    (failed : ε → S → Prop) : Prop where
  perm : ∀ left left' s, left.Perm left' → holds left s → holds left' s
  perform : ∀ request rest s, holds (request :: rest) s →
    TurnsOut s (operation request) (fun _ s' => holds rest s') failed

namespace Upheld

variable {operation : α → EStateM ε S β} {holds : List α → S → Prop} {failed : ε → S → Prop}
  (upheld : Upheld operation holds failed) {race : Race α β} {s : S}
include upheld

theorem advance {turn : Nat} {worker : Worker α β} {request : α} {rest : List α}
    (h : holds race.pending s) (found : race.workers[turn]? = some worker)
    (next : worker.pending = request :: rest) :
    TurnsOut s (race.advance turn worker <$> operation request)
      (fun race' s' => holds race'.pending s' ∧ race'.latch = race.latch ∧
        race'.pending.length < race.pending.length) failed := by
  obtain ⟨left, hperm, hleft⟩ := pending_advance found next
  apply TurnsOut.map
  apply (upheld.perform request left s (upheld.perm _ _ s hperm h)).mono _ fun _ _ hf => hf
  intro answer s' hs'
  rw [hleft answer, hperm.length_eq, List.length_cons]
  exact ⟨hs', rfl, Nat.lt_succ_self _⟩

theorem step (h : holds race.pending s) (turn : Nat) :
    TurnsOut s (step operation race turn)
      (fun race' s' => holds race'.pending s' ∧ race'.latch = race.latch) failed := by
  rcases step_cases operation race turn with hidle | ⟨_, _, _, found, next, hstep⟩
  · rw [hidle]
    exact .pure ⟨h, rfl⟩
  · rw [hstep]
    exact (upheld.advance h found next).mono (fun _ _ h' => ⟨h'.1, h'.2.1⟩) fun _ _ hf => hf

/-- Every schedule, to its end or to a failure. -/
theorem run (h : holds race.pending s) (schedule : List Nat) :
    TurnsOut s (run operation race schedule)
      (fun race' s' => holds race'.pending s' ∧ race'.latch = race.latch) failed := by
  induction schedule generalizing race s with
  | nil => exact .pure ⟨h, rfl⟩
  | cons turn rest ih =>
    rw [Race.run, List.foldlM_cons]
    apply (upheld.step h turn).bind
    rintro race' s' ⟨h', hlatch⟩
    exact (ih h').mono (fun _ _ h'' => ⟨h''.1, h''.2.trans hlatch⟩) fun _ _ hf => hf

/-- Threads that may start come to an end under some schedule, unless a request fails. -/
theorem exists_schedule (h : holds race.pending s) (opened : race.latch.isOpen = true) :
    ∃ schedule, TurnsOut s (Race.run operation race schedule)
      (fun race' s' => race'.IsOver ∧ holds [] s') failed := by
  -- any thread with a request left may go next, and one request fewer is left then
  induction hn : race.pending.length using Nat.strongRecOn generalizing race s with
  | ind n ih =>
    by_cases hover : race.IsOver
    · refine ⟨[], .pure ⟨hover, ?_⟩⟩
      rwa [isOver_iff.1 hover] at h
    · obtain ⟨worker, hworker, hpending⟩ := not_forall₂.1 hover
      obtain ⟨turn, found⟩ := List.mem_iff_getElem?.1 hworker
      obtain ⟨request, rest, next⟩ := List.exists_cons_of_ne_nil hpending
      have hstep := upheld.advance h found next
      rw [← step_of_pending operation opened found next] at hstep
      cases hrun : Race.step operation race turn s with
      | ok race' s' =>
        obtain ⟨h', hlatch, hfewer⟩ := hstep.ok race' s' hrun
        obtain ⟨schedule, hschedule⟩ := ih _ (hn ▸ hfewer) h' (by rw [hlatch, opened]) rfl
        refine ⟨turn :: schedule, ?_⟩
        rw [Race.run, List.foldlM_cons]
        exact .bind_ok hrun hschedule
      | error e s' =>
        refine ⟨[turn], ?_⟩
        rw [Race.run, List.foldlM_cons]
        exact .bind_error hrun (hstep.error e s' hrun)

end Upheld

end Race
end LockedContainers
