import LockedContainers.Proofs.Interleaved
import LockedContainers.Proofs.Map.Sequential

/-!
# Threads that share a striped map

A put that finds the table full gives its stripe up, grows the table under
all stripes and tries again, and other threads may come between. Any order of
these critical sections is one of a dictionary.
-/
namespace LockedContainers

variable {Thread K V ε σ : Type}

namespace StripedMap

/-- A request to a striped map before one of its critical sections. -/
inductive Task (K V : Type)
  | asked (request : MapRequest K V)
  /-- A put with the hash of its key, before an attempt. -/
  | placing (h : UInt64) (key : K) (value : V)
  /-- A put that gave up on a table of `seen` buckets. -/
  | growing (h : UInt64) (key : K) (value : V) (seen : Nat)
deriving DecidableEq, Repr

namespace Task

def request : Task K V → MapRequest K V
  | asked request => request
  | placing _ key value => .put key value
  | growing _ key value _ => .put key value

/-- A put takes section after section; any other request is one section. -/
def next (cb : MapCallbacks K V ε σ) :
    Task K V → MapSection .striped K V ε σ (MapAnswer V ⊕ Task K V)
  | asked (.put key value) => do return .inr (.placing (← Guarded.ask (cb.hash key)) key value)
  | asked request => .inl <$> request.perform cb
  | placing h key value => do
    match ← attempt cb h key value with
    | .done previous => return .inl (.value previous)
    | .full seen => return .inr (.growing h key value seen)
  | growing h key value seen => do
    grow cb seen
    return .inr (.placing h key value)

/-- The task has the hash of its own key. -/
def Fit (hash : K → UInt64) : Task K V → Prop
  | asked _ => True
  | placing h key _ => h = hash key
  | growing h key _ _ => h = hash key

end Task

def sections (cb : MapCallbacks K V ε σ) :
    Sections (StripedMap K V) (MapFailure ε) σ (MapRequest K V) (MapAnswer V) (Task K V) where
  start := .asked
  request := Task.request
  next := Task.next cb

theorem sections_next (cb : MapCallbacks K V ε σ) (task : Task K V) :
    (sections cb).next task = task.next cb := rfl

section Lawful
variable {cb : MapCallbacks K V ε σ} {hash : K → UInt64} {same : K → K → Bool}
  (lawful : LawfulKeys hash same) (follows : cb.Follows hash same)
include lawful follows

theorem sections_refine :
    (sections cb).Refines (Dictionary.object same) cb.Excuses
      (fun map dict => map.Stores hash same dict) (Task.Fit hash) where
  start r := ⟨trivial, rfl⟩
  next map dict task h fit := by
    cases task with
    | asked request =>
      have hone := LockedMap.ends_perform lawful follows h request
      cases request with
      | put key value => exact LockedMap.ends_hash_bind follows h (.pure ⟨rfl, rfl, h⟩)
      | _ => exact .map hone
    | placing x key value =>
      cases fit
      refine (ends_attempt lawful follows h key value).bind fun outcome map' hout => ?_
      cases outcome with
      | done previous => exact .pure ⟨congrArg MapAnswer.value hout.1, hout.2⟩
      | full seen =>
        rw [hout.1]
        exact .pure ⟨rfl, rfl, h⟩
    | growing x key value seen =>
      exact (ends_grow follows h seen).bind fun _ map' hgrow => .pure ⟨rfl, fit, hgrow.1⟩

end Lawful

/-- In the state `s` the log of operations, in the order of their last sections, is one of a
dictionary whose entries are those of the table. Nobody's next section changes an entry, or what a
key is mapped to, without completing an operation. -/
structure Linearized [DecidableEq Thread] (cb : MapCallbacks K V ε σ) (same : K → K → Bool)
    (program : Thread → List (MapRequest K V))
    (s : Interleaving Thread (StripedMap K V) (MapFailure ε) σ (MapRequest K V) (MapAnswer V)
      (Task K V))
    (dict : Dictionary K V) : Prop where
  explains : (Dictionary.object same).Explains cb.Excuses [] (s.log.map Prod.snd) dict
  distinct : DistinctKeys same dict
  entries : s.shared.container.table.entries.Perm dict
  /-- A thread completes its operations in the order of its program. -/
  kept : ∀ t, (Interleaving.logOf s.log t).map Prod.fst ++ (s.clients t).unanswered Task.request =
    program t
  steady : ∀ t, (s.step (sections cb) t).log = s.log →
    (s.step (sections cb) t).shared.container.table.entries.Perm dict ∧
      ∀ key, Dictionary.get? same (s.step (sections cb) t).shared.container.table.entries key =
        Dictionary.get? same s.shared.container.table.entries key

/-- The sections of a put, one after the other, are the put. -/
theorem putWithin_eq_alone (cb : MapCallbacks K V ε σ) (h : UInt64) (key : K) (value : V)
    (attempts : Nat) :
    putWithin cb h key value attempts = (do
      match ← (sections cb).alone (2 * attempts) (.placing h key value) with
      | .inl (.value previous) => return previous
      | _ => throw .tooLarge) := by
  induction attempts with
  | zero => rfl
  | succ attempts ih =>
    rw [putWithin, Nat.mul_succ, Sections.alone, bind_assoc]
    simp only [sections_next, Task.next, bind_assoc]
    congr
    funext outcome
    cases outcome with
    | done previous => rfl
    | full seen =>
      simp only [pure_bind, Sections.alone, sections_next, Task.next, bind_assoc]
      rw [ih]

theorem put_eq_alone (cb : MapCallbacks K V ε σ) (key : K) (value : V) :
    put cb key value = (do
      match ← (sections cb).alone (2 * maxAttempts + 1) (.asked (.put key value)) with
      | .inl (.value previous) => return previous
      | _ => throw .tooLarge) := by
  simp only [put, putWithin_eq_alone, Sections.alone, sections_next, Task.next, bind_assoc,
    pure_bind]

end StripedMap

/-- Whatever order the threads' critical sections come in, a striped map answers as the dictionary
whose operations are executed in the order of their last sections. -/
theorem striped_map_linearized [DecidableEq Thread] {cb : MapCallbacks K V ε σ} {hash : K → UInt64}
    {same : K → K → Bool} (lawful : LawfulKeys hash same) (follows : cb.Follows hash same)
    {options : MapOptions} {o o' : σ} {map : StripedMap K V}
    (made : StripedMap.make cb options o = .ok map o') (roomy : 0 < map.table.size) (outside : σ)
    (program : Thread → List (MapRequest K V)) (schedule : List Thread) :
    ∃ dict, StripedMap.Linearized cb same program
      ((Interleaving.begin ⟨map, outside⟩ program).run (StripedMap.sections cb) schedule) dict := by
  have refines := StripedMap.sections_refine lawful follows
  have hstart : map.Stores hash same [] :=
    LockedMap.stores_made (l := .striped) made roomy
  obtain ⟨dict, h⟩ := (Interleaving.Explained.begin ⟨map, outside⟩ hstart).run refines schedule
  refine ⟨dict, h.explains, h.related.distinct, h.related.entries, h.kept, fun t hlog => ?_⟩
  obtain ⟨dict', h', hsame⟩ := h.step refines t
  have hdict := hsame hlog
  subst hdict
  refine ⟨h'.related.entries, fun key => ?_⟩
  rw [h'.related.get?_entries lawful, h.related.get?_entries lawful]

/-- Two threads that put equal keys. -/
def twoPutters : Bool → List (MapRequest Nat Nat)
  | false => [.put 11 1, .put 25 2, .get 20]
  | true => [.put 26 3, .remove 12]

/-- Both insertions give up on the same table; the later growth finds that it has grown, and the
later attempt finds the key that the other thread put. -/
theorem striped_map_linearized_twoPutters :
    (∃ dict, StripedMap.Linearized (.fused tensHash sameTens) sameTens twoPutters
      ((Interleaving.begin ⟨LockedMap.ofTwo, none⟩ twoPutters).run
        (StripedMap.sections (.fused tensHash sameTens))
        [false, false, false, true, false, true, true, true, false, false, true, false]) dict) ∧
    ((Interleaving.begin ⟨(LockedMap.ofTwo : StripedMap Nat Nat), none⟩ twoPutters).run
      (StripedMap.sections (.fused tensHash sameTens))
      [false, false, false, true, false, true, true, true, false, false, true, false]).log =
      [(false, .put 11 1, .ok (.value none)), (true, .put 26 3, .ok (.value none)),
        (false, .put 25 2, .ok (.value (some 3))), (true, .remove 12, .ok (.value (some 1))),
        (false, .get 20, .ok (.value (some 2)))] :=
  ⟨striped_map_linearized tens_lawful (MapCallbacks.fused_follows tensHash sameTens)
    (LockedMap.make_ofTwo (l := .striped) tensHash sameTens) (by decide) none twoPutters _,
    by decide +kernel⟩

end LockedContainers
