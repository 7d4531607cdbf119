import LockedContainers.Proofs.Map.Progress
import LockedContainers.Proofs.Set.Interleaved
import LockedContainers.Proofs.Set.Progress

/-!
# No deadlock

Waiting follows an order in both containers with more than one lock: the order
of the list, which changes while threads wait, and the order of the stripes.
-/
namespace LockedContainers

variable {Thread T K V ε σ : Type}

/-- Whatever the callbacks answer, whatever threads ask of a coupled set and of a striped map, and
whatever order their steps come in: while a thread waits, its locks are before the one it waits for,
and as long as a thread is inside an operation some such thread can take a step. -/
theorem locks_never_deadlock [DecidableEq Thread] (setCallbacks : SetCallbacks T ε σ) (outside : σ)
    (errands : Thread → List (Errand T)) (turns : List (Thread × Nat))
    {mapCallbacks : MapCallbacks K V ε σ} {options : MapOptions} {o o' : σ} {map : StripedMap K V}
    (made : StripedMap.make mapCallbacks options o = .ok map o')
    (requests : Thread → List (MapRequest K V)) (schedule : List Thread) :
    (∃ inner last, NodeRun.Orderly setCallbacks
      ((NodeRun.begin outside errands).run setCallbacks turns) inner last) ∧
    StripeBank.Orderly mapCallbacks map.options.stripes.toNat
      ((Interleaving.begin ⟨{ map }, outside⟩ requests).run (StripeBank.sections mapCallbacks)
        schedule) := by
  constructor
  · obtain ⟨cells, steady⟩ := (NodeRun.steady_begin outside).run turns
    exact steady.orderly
  · obtain ⟨-, _, _, kept, -⟩ := StripeBank.upheld_run made outside requests schedule
    exact kept.orderly mapCallbacks

/-- One thread puts a key under the second stripe, the other takes all stripes. -/
def putterAndAuditor : Bool → List (MapRequest Nat Nat)
  | false => [.put 11 1]
  | true => [.audit]

/-- While comparing finds every key before every other, one search waits for the head, which the
other holds. An audit holds the first stripe and waits for the second. -/
theorem locks_never_deadlock_waiting :
    let s := (NodeRun.begin none twoSeekers).run (.fused fun _ _ => true)
      [(false, 0), (true, 0), (false, 0), (true, 0)]
    let s' := (Interleaving.begin ⟨{ map := LockedMap.ofTwo }, none⟩ putterAndAuditor).run
      (StripeBank.sections (.fused tensHash sameTens)) [false, false, true, true]
    ((∃ inner last, NodeRun.Orderly (.fused fun _ _ => true) s inner last) ∧
      StripeBank.Orderly (.fused tensHash sameTens) 2 s') ∧
    ((s.callers true).task.bind (·.phase.awaited s.heap.head) = some 0 ∧
      s.heap.owner 0 = some false) ∧
    (s'.clients true).task.bind (·.awaited 2) = some 1 ∧
      s'.shared.container.locked 0 ∧ s'.shared.container.locked 1 :=
  ⟨locks_never_deadlock (.fused fun _ _ => true) none twoSeekers _
    (LockedMap.make_ofTwo (l := .striped) tensHash sameTens) putterAndAuditor _,
    by decide +kernel, by decide +kernel⟩

end LockedContainers
